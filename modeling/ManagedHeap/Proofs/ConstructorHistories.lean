import ManagedHeap.Proofs.CopyInvariant
import ManagedHeap.Proofs.OperationHistories

/-!
# Constructors and copies make histories

A constructor fills what an allocation answers, with a payload of the length that was asked
for. A copy of data has the length of the original.
-/

namespace ManagedHeap

namespace Attempt

variable {ω α β : Type} {P P' E E' : Heap → Prop} {Q Q' : α → Heap → Prop} {x : Attempt ω α}
  {f : α → Attempt ω β}

theorem Triple.and (hx : Triple P x Q E) (hx' : Triple P' x Q' E') :
    Triple (fun heap => P heap ∧ P' heap) x (fun a heap => Q a heap ∧ Q' a heap)
      fun heap => E heap ∧ E' heap := by
  refine HostM.Triple.conseq (HostM.Triple.and hx hx') (fun _ => id) ?_
  rintro (e | a) heap h
  · exact h
  · exact h

def Traced (act : Attempt ω α) : Prop := Triple Heap.SoundWithHistory act (fun _ => Heap.SoundWithHistory) Heap.SoundWithHistory

namespace Traced

theorem bind (hx : Traced x) (hf : ∀ a, Traced (f a)) : Traced (x >>= f) := Triple.bind hx hf

theorem pure {a : α} : Traced (pure a : Attempt ω α) := Triple.pure fun _ => id

theorem throwFault {e : Fault} : Traced (throwThe Fault e : Attempt ω α) := Triple.throwFault

theorem throw_bind {e : HeapError} : Traced ((throwThe HeapError e : Attempt ω α) >>= f) :=
  Triple.throw fun _ => id

theorem lift {act : HeapM α} (h : act.Traced) : Traced (liftM act : Attempt ω α) := Triple.lift h

theorem reads {act : HeapM α} (h : act.Reads) : Traced (liftM act : Attempt ω α) := lift (.reads h)

theorem retouch {act : HeapM α} (hsafe : act.Safe) (hr : act.Retouches) (hsettles : act.Settles) :
    Traced (liftM act : Attempt ω α) := lift (.of_retouches hsafe hr hsettles)

theorem liftHost {act : HostM ω α} (h : act.Traced) : Traced (liftM act : Attempt ω α) :=
  Triple.liftHost h

theorem run (hx : Traced x) : HostM.Traced x.run := by
  intro state heap r heap' ht hrun
  have hend := hx state heap r heap' ht hrun
  obtain ⟨e | a, state'⟩ := r
  · exact hend
  · exact hend

theorem mk {act : HostM ω (Except HeapError α)} (h : HostM.Traced act) :
    Traced (ExceptT.mk act : Attempt ω α) := by
  refine Triple.mk (HostM.Triple.conseq h (fun _ => id) ?_)
  rintro (e | a) heap h
  · exact h
  · exact h

theorem attempt {act : HeapM (Except HeapError α)} (hsafe : act.Safe) (hr : act.Retouches)
    (hsettles : act.Settles) : Traced (HostM.attempt act : Attempt ω α) :=
  mk (.retouch hsafe hr hsettles)

theorem pushRoot {h : Handle} : Traced (HostM.attempt (HeapM.pushRoot h) : Attempt ω Nat) :=
  attempt .pushRoot .pushRoot .pushRoot

theorem protecting (hx : Traced x) : Traced (HostM.protecting x) :=
  mk (HostM.Traced.bind (.reads .protectDepth) fun _ => .bind hx.run fun _ =>
    .bind (.retouch .closeScope .closeScope .closeScope) fun _ => .pure)

end Traced

end Attempt

namespace HeapM

variable {kind : Kind} {payload : Payload} {slots : List Handle} {h : Handle}

theorem traced_of_retouches {P : Heap → Prop} {act : HeapM Unit}
    (hsafe : Triple P act fun _ => Heap.Sound) (hP : ∀ heap, P heap → heap.HasBoundedHistory)
    (hr : ∀ {heap u heap'}, P heap → act.run heap = .ok (u, heap') →
      heap.Amends heap' ∧ heap.Settles heap') : Triple P act fun _ => Heap.SoundWithHistory :=
  fun heap u heap' hstart hrun => ⟨hsafe heap u heap' hstart hrun,
    (hP heap hstart).retouched (hr hstart hrun).1 (hr hstart hrun).2⟩

theorem traced_countFirst (hsuits : payload.suits kind = true) : Triple
    (fun heap => heap.SoundWithHistory ∧ heap.Sized kind payload.length h)
    (HostM.countReferences slots) fun _ heap =>
      (((heap.Sound ∧ heap.Fresh kind h) ∧ ∀ k ∈ slots, heap.arena.contains k = true) ∧
        heap.OwesCounts fun o => -(slots.count o)) ∧ heap.Roomy payload.length h := by
  rintro heap u heap' ⟨ht, hsized⟩ hrun
  exact ⟨⟨countReferences_fresh slots _ _ _ ⟨ht.1, hsized.fresh⟩ hrun,
    heap, ht.2, Retouches.countReferences slots _ _ _ hrun, owes_countReferences slots hrun⟩,
    Retouches.roomy_countReferences slots _ _ _ (hsized.roomy hsuits) hrun⟩

theorem traced_fillCounted (hfits : payload.Fits kind slots) (hcovered : payload.Covered slots) : Triple
    (fun heap => (((heap.Sound ∧ heap.Fresh kind h) ∧ ∀ k ∈ slots, heap.arena.contains k = true) ∧
      heap.OwesCounts fun o => -(slots.count o)) ∧ heap.Roomy payload.length h) (HostM.setPayload h payload)
      fun _ => Heap.SoundWithHistory := by
  rintro heap u heap' ⟨⟨hfresh, start, hs, hr, howes⟩, hroomy⟩ hrun
  refine ⟨setPayload_counted hfits _ _ _ hfresh hrun,
    hs.retouched (hr.trans (Retouches.setPayload hroomy hrun)) ?_⟩
  refine (howes.trans (owes_setPayload hrun)).mono fun o hnil hunbound => ?_
  have hle := hcovered o hnil hunbound
  simp only [Pi.add_apply, Pi.zero_apply]
  omega

end HeapM

namespace HostM

variable {ω α : Type} {host : Host ω} {kind : Kind} {payload : Payload} {slots : List Handle}
  {h : Handle}

theorem allocate_traced (hhost : host.Traced) {length : Nat} {roots : List Handle}
    {next : Handle → Attempt ω α} (hnext : ∀ h, Attempt.Traced (next h)) :
    Attempt.Traced (allocate host kind length roots >>= next) :=
  Attempt.Triple.bind (allocate_sized hhost) fun h =>
    (hnext h).conseq (fun _ ht => ht.1) (fun _ _ => id) fun _ => id

theorem fill_traced (hfits : payload.Fits kind slots) (hcovered : payload.Covered slots) {length : Nat}
    (hlength : payload.length = length) {next : Attempt ω α} (hnext : Attempt.Traced next) :
    Attempt.Triple (fun heap => heap.SoundWithHistory ∧ heap.Sized kind length h) (do
      setPayload h payload
      countReferences slots
      next : Attempt ω α) (fun _ => Heap.SoundWithHistory) Heap.SoundWithHistory :=
  hlength ▸ .bind (.lift (HeapM.hasBoundedHistory_setPayload hfits.suits)) fun _ =>
    .bind (.lift (HeapM.hasBoundedHistory_countReferences hfits hcovered)) fun _ => hnext

theorem construct_traced (hhost : host.Traced) (hfits : payload.Fits kind slots)
    (hcovered : payload.Covered slots) (hlength : payload.length = 0) :
    Attempt.Traced (construct host kind payload slots) :=
  Attempt.Triple.bind (allocate_sized hhost) fun _ => fill_traced hfits hcovered hlength .pure

theorem bindAll_traced (hhost : host.Traced) (bindings : List (Handle × Handle)) (frame : Handle) :
    Attempt.Traced (bindAll host frame bindings) := by
  induction bindings generalizing frame with
  | nil => exact .pure
  | cons b rest ih =>
    obtain ⟨name, value⟩ := b
    refine Attempt.Triple.bind (allocate_sized hhost) fun cell => fill_traced ?_ (.refl _) (by rfl) (ih cell)
    exact ⟨rfl, nofun, by simp [Payload.children]⟩

theorem makeEnvironment_traced (hhost : host.Traced) {names values : List Handle}
    {parent : Handle} : Attempt.Traced (makeEnvironment host names values parent) := by
  unfold makeEnvironment
  dsimp only
  split
  · exact .throw_bind
  · refine .mk (.withTransient (Attempt.Traced.run ?_))
    refine .bind (bindAll_traced hhost _ .nil) fun frame =>
      Attempt.Triple.bind (allocate_sized hhost) fun env => fill_traced ?_ (.refl _) (by rfl) .pure
    exact ⟨rfl, nofun, by simp [Payload.children]⟩

theorem makeWeakRef_traced (hhost : host.Traced) {key value finalizer : Handle} {onExit : Bool} :
    Attempt.Traced (makeWeakRef host key value finalizer onExit) := by
  have hmake : Attempt.Traced (do
      let record ← allocate host .weakRef 0 [key, value, finalizer]
      HeapM.linkWeakRef record key value finalizer onExit
      return record) := by
    refine Attempt.Triple.bind (allocate_sized hhost) fun record =>
      .bind (Q := fun _ => Heap.SoundWithHistory) (.lift (HeapM.traced_of_retouches ?_ (fun _ ht => ht.1.2)
        fun ht hrun => ⟨HeapM.Retouches.linkWeakRef ht.2 hrun, HeapM.Settles.linkWeakRef _ _ _ hrun⟩))
        fun _ => Attempt.Traced.pure
    exact HeapM.linkWeakRef_safe.conseq (fun _ ht => ⟨ht.1.1, ht.2.fresh⟩) fun _ _ => id
  unfold makeWeakRef
  dsimp only
  split
  · refine .bind (.reads .kind) fun k => ?_
    split
    · exact .throw_bind
    · exact hmake
  · exact hmake

theorem makeNativeFunction_traced (hhost : host.Traced) {routine : Nat} :
    Attempt.Traced (makeNativeFunction host routine) :=
  construct_traced hhost ⟨rfl, nofun, by simp [Payload.children]⟩ (.refl _) rfl

theorem registerFinalizer_traced (hhost : host.Traced) {key : Handle} {finalizer : Finalizer}
    {onExit : Bool} : Attempt.Traced (registerFinalizer host key finalizer onExit) := by
  refine .protecting (.bind .pushRoot fun _ => ?_)
  cases finalizer with
  | native routine =>
    exact .bind (makeNativeFunction_traced hhost) fun function => .bind .pushRoot fun _ =>
      makeWeakRef_traced hhost
  | closure h =>
    exact .bind .pure fun function => .bind .pushRoot fun _ => makeWeakRef_traced hhost

theorem internString_traced (hhost : host.Traced) {bytes : Bytes} {encoding : Encoding} :
    Attempt.Traced (internString host bytes encoding) := by
  refine .bind (.liftHost .getHeap) fun heap => .bind (.reads .findCached) fun found => ?_
  cases found with
  | some h => exact .pure
  | none =>
    refine Attempt.Triple.bind (allocate_sized hhost) fun h =>
      .bind (Q := fun _ => Heap.SoundWithHistory) (.lift (HeapM.traced_of_retouches ?_ (fun _ ht => ht.1.2)
        fun ht hrun => ⟨HeapM.Retouches.cacheString ht.1.1 ht.2 hrun,
          HeapM.Settles.cacheString ht.1.1 ht.2.fresh hrun⟩)) fun _ => Attempt.Traced.pure
    exact HeapM.cacheString_cached.conseq (fun _ ht => ⟨ht.1.1, ht.2.fresh⟩) fun _ _ hs => hs.1

theorem makeSymbol_traced (hhost : host.Traced) {name : Bytes} : Attempt.Traced (do
    let pname ← internString host name (nameEncoding name)
    let sym ← allocate host .symbol 0 [pname]
    HeapM.nameSymbol sym pname
    modifyThe Heap fun heap => { heap with symbols := heap.symbols.insert name sym }
    return sym) := by
  refine Attempt.Triple.bind (((internString_cached hhost.safe).and
    (internString_traced hhost)).conseq (fun _ ht => ⟨ht.1, ht⟩) (fun _ _ => id) fun _ ht => ht.2)
    fun pname => ?_
  have hspared : Attempt.Triple (fun heap => heap.Sound ∧ heap.KeptStrings [pname] [pname])
      (allocate host .symbol 0 [pname])
      (fun h heap => heap.Sound ∧ heap.Allocated .symbol [pname] h) Heap.Sound :=
    allocate_spec hhost.safe
  refine .bind ((hspared.and (allocate_sized hhost)).conseq (fun heap ht => ⟨⟨ht.1.1, ?_⟩, ht.2⟩)
    (fun _ _ => id) fun _ ht => ht.2) fun sym => ?_
  · intro p hp
    obtain rfl := List.mem_singleton.mp hp
    exact ⟨hp, ht.1.2⟩
  · refine .bind (.lift (HeapM.traced_of_retouches ?_ (fun _ ht => ht.2.1.2)
      fun ht hrun => ⟨HeapM.Retouches.nameSymbol ht.2.2 hrun, HeapM.Settles.nameSymbol _ _ _ hrun⟩))
      fun _ => .bind (.modifyHeap fun heap ht => ?_) fun _ => .pure fun _ => id
    · exact HeapM.nameSymbol_safe.conseq (fun _ ht => ht.1) fun _ _ => id
    · exact ⟨ht.1.aside rfl rfl rfl rfl rfl, ht.2.retouched (.aside rfl rfl rfl) (.aside rfl)⟩

theorem internSymbol_traced (hhost : host.Traced) {name : Bytes} :
    Attempt.Traced (internSymbol host name) := by
  refine .bind (.liftHost .getHeap) fun heap => ?_
  cases heap.symbols.find? name with
  | some sym => exact .pure
  | none =>
    dsimp only
    split
    · exact .throw_bind
    · exact makeSymbol_traced hhost

theorem defineVar_traced (hhost : host.Traced) {env sym value : Handle} :
    Attempt.Traced (defineVar host env sym value) := by
  refine .bind (.reads .frameBinding) fun found => ?_
  cases found with
  | some cell => exact .lift .setCar
  | none =>
    exact .bind (.reads .envFrame) fun frame => allocate_traced hhost fun cell =>
      .bind (.lift .setCar) fun _ => .bind (.retouch .setCdr .setCdr .setCdr) fun _ =>
      .bind (.retouch .setTag .setTag .setTag) fun _ => .retouch .setFrame .setFrame .setFrame

variable {copyOne : Handle → Attempt ω Handle}

theorem copyPairs_traced (hhost : host.Traced) (hcopy : ∀ h, Attempt.Traced (copyOne h))
    {index : Nat} (fuel : Nat) (head tail cursor : Handle) :
    Attempt.Traced (copyPairs host copyOne index head tail cursor fuel) := by
  induction fuel generalizing head tail cursor with
  | zero => exact .throwFault
  | succ fuel ih =>
    refine .bind (.reads .kind) fun k => ?_
    split
    · exact .pure
    · refine .bind (.reads .car) fun car => .bind (hcopy car) fun element =>
        .bind (.reads .kind) fun cellKind => .bind (.reads .tag) fun cellTag =>
        allocate_traced hhost fun cell => .bind (.lift .setCar) fun _ =>
        .bind (.retouch .setTag .setTag .setTag) fun _ => ?_
      have hend : ∀ head, Attempt.Traced (ω := ω) (do
          let next ← HeapM.cdr cursor
          copyPairs host copyOne index head cell next fuel) :=
        fun head => .bind (.reads .cdr) fun next => ih head cell next
      split
      · exact .bind (.retouch .reprotect .onProtect .onProtect) fun _ => hend cell
      · exact .bind (.retouch .setCdr .setCdr .setCdr) fun _ => hend head

theorem copyPairlist_traced (hhost : host.Traced) (hcopy : ∀ h, Attempt.Traced (copyOne h)) :
    Attempt.Traced (copyPairlist host copyOne h) := by
  refine .protecting (.bind .pushRoot fun index => .bind (.liftHost .stepBound)
    fun bound => .bind (copyPairs_traced hhost hcopy bound .nil .nil h) fun result => ?_)
  obtain ⟨head, tail, rest⟩ := result
  dsimp only
  split
  · exact .bind (hcopy rest) fun last => .bind (.retouch .setCdr .setCdr .setCdr) fun _ => .pure
  · exact .pure

theorem copyElements_traced (hcopy : ∀ h, Attempt.Traced (copyOne h)) {copy : Handle}
    (places : List Nat) : Attempt.Traced (copyElements copyOne h copy places) := by
  induction places with
  | nil => exact .pure
  | cons i rest ih =>
    exact .bind (.attempt (.of_reads .vectorElt) (.of_reads .vectorElt) (.of_reads .vectorElt)) fun old =>
      .bind (hcopy old) fun element => .bind (.attempt .setVectorElt .setVectorElt .setVectorElt) fun _ => ih

theorem copyVector_traced (hhost : host.Traced) (hcopy : ∀ h, Attempt.Traced (copyOne h)) :
    Attempt.Traced (copyVector host copyOne h) :=
  .bind (.reads .kind) fun _ => .bind (.reads .length) fun length => .protecting <|
    allocate_traced hhost fun _ => .bind .pushRoot fun _ =>
    .bind (copyElements_traced hcopy (List.range length)) fun _ => .pure

theorem suits_traced {p : Payload} {next : Kind → Attempt ω α}
    (hnext : ∀ k, p.suits k = true → Attempt.Traced (next k)) : Attempt.Triple
    (fun heap => heap.SoundWithHistory ∧ ∃ c, heap.arena.get? h = some c ∧ c.payload = p) (do
      let k ← HeapM.kind h
      next k : Attempt ω α) (fun _ => Heap.SoundWithHistory) Heap.SoundWithHistory := by
  have hkind : HeapM.Triple
      (fun heap => heap.SoundWithHistory ∧ ∃ c, heap.arena.get? h = some c ∧ c.payload = p) (HeapM.kind h)
      fun k heap => heap.SoundWithHistory ∧ p.suits k = true := by
    rintro heap k heap' ⟨ht, hc⟩ hrun
    have hsuits := (HeapM.kind_suits _ _ _ ⟨ht.1, hc⟩ hrun).2
    obtain rfl := HeapM.Reads.kind _ _ _ hrun
    exact ⟨ht, hsuits⟩
  exact .bind (.lift hkind) fun k => .of_and (hnext k)

theorem copyStrings_traced (hhost : host.Traced) : Attempt.Traced (copyStrings host h) := by
  have hpayload : HeapM.Triple Heap.SoundWithHistory (HeapM.payload h) fun p heap =>
      heap.SoundWithHistory ∧ ∃ c, heap.arena.get? h = some c ∧ c.payload = p := by
    intro heap p heap' ht hrun
    obtain ⟨c, hc, hp, rfl⟩ := HeapM.run_payload.mp hrun
    exact ⟨ht, c, hc, hp⟩
  refine Attempt.Triple.bind (.lift hpayload) fun p => ?_
  cases p
  case handles elements =>
    exact suits_traced fun kind hsuits => Attempt.Triple.bind (allocate_sized hhost) fun copy =>
      .bind (.lift (HeapM.traced_countFirst hsuits)) fun _ =>
      .bind (.lift (HeapM.traced_fillCounted ⟨hsuits, nofun, fun k hk => .inl hk⟩ (.refl _))) fun _ =>
      .pure fun _ => id
  all_goals
    exact .conseq (P := Heap.SoundWithHistory) (Attempt.Traced.reads .wrongKind) (fun _ ht => ht.1)
      (fun _ _ => id) fun _ => id

theorem copyData_traced (hhost : host.Traced) {data : Kind}
    (hdata : data ∈ [.charString, .logicalVector, .integerVector, .realVector, .rawVector]) :
    Attempt.Triple (fun heap => heap.SoundWithHistory ∧ ∃ c, heap.arena.get? h = some c ∧ c.kind = data)
      (copyData host h) (fun _ => Heap.SoundWithHistory) Heap.SoundWithHistory := by
  have hpayload : HeapM.Triple
      (fun heap => heap.SoundWithHistory ∧ ∃ c, heap.arena.get? h = some c ∧ c.kind = data)
      (HeapM.payload h) fun p heap =>
        (heap.SoundWithHistory ∧ ∃ c, heap.arena.get? h = some c ∧ c.payload = p) ∧ p.suits data = true := by
    rintro heap p heap' ⟨ht, hc⟩ hrun
    obtain ⟨⟨-, hp⟩, hsuits⟩ := HeapM.payload_suits _ _ _ ⟨ht.1, hc⟩ hrun
    obtain rfl := HeapM.Reads.payload _ _ _ hrun
    exact ⟨⟨ht, hp⟩, hsuits⟩
  refine .bind (.lift hpayload) fun p => .of_and fun hp => suits_traced fun kind hsuits => ?_
  have hfits : p.Fits kind [] := Payload.fits_of_data hp hdata hsuits
  refine Attempt.Triple.bind (allocate_sized hhost) fun copy =>
    .bind (.lift (HeapM.hasBoundedHistory_setPayload hsuits)) fun _ => .pure fun heap hfilled => ?_
  have hcovered : p.Covered [] := .of_append (p.children true) rfl fun k hk =>
    (hfits.children k hk).resolve_left List.not_mem_nil
  exact HeapM.hasBoundedHistory_countReferences hfits hcovered heap ⟨⟩ heap hfilled rfl

theorem copyAttributes_traced (hcopy : ∀ h, Attempt.Traced (copyOne h)) {copy : Handle} :
    Attempt.Traced (copyAttributes copyOne h copy) := by
  refine .bind (.reads .attrib) fun attached => .bind (.reads .flags) fun flags => ?_
  have hend : Attempt.Traced (ω := ω) (do
      HeapM.updateCell copy (Cell.mapFlags fun fs =>
        { fs with object := fs.object || flags.object, s4Object := fs.s4Object || flags.s4Object })
      return copy) :=
    .bind (.retouch
      (.updateCell fun _ _ _ _ => ⟨.header rfl rfl rfl rfl rfl rfl rfl rfl id, rfl⟩)
      (.updateCell fun _ _ => .mapFlags rfl rfl) (.mapFlags (fun _ => rfl) fun _ => rfl)) fun _ => .pure
  dsimp only
  split
  · refine .bind (.protecting ?_) fun _ => hend
    exact .bind .pushRoot fun _ => .bind (hcopy attached) fun value => .retouch .setAttrib .setAttrib .setAttrib
  · exact hend

theorem copyWithin_traced (hhost : host.Traced) (fuel : Nat) (h : Handle) :
    Attempt.Traced (copyWithin host fuel h) := by
  induction fuel generalizing h with
  | zero => exact .throwFault
  | succ fuel ih =>
    have hkind : HeapM.Triple Heap.SoundWithHistory (HeapM.kind h) fun k heap =>
        heap.SoundWithHistory ∧ ∃ c, heap.arena.get? h = some c ∧ c.kind = k := by
      intro heap k heap' ht hrun
      obtain ⟨c, hc, rfl, rfl⟩ := HeapM.run_kind.mp hrun
      exact ⟨ht, c, hc, rfl⟩
    refine Attempt.Traced.bind (.retouch .awaitOutput .awaitOutput .awaitOutput) fun _ =>
      Attempt.Triple.bind (.lift hkind) fun k => ?_
    have hdata : k ∈ [.charString, .logicalVector, .integerVector, .realVector, .rawVector] →
        Attempt.Triple (fun heap => heap.SoundWithHistory ∧ ∃ c, heap.arena.get? h = some c ∧ c.kind = k) (do
          copyAttributes (copyWithin host fuel) h (← copyData host h))
          (fun _ => Heap.SoundWithHistory) Heap.SoundWithHistory :=
      fun hk => .bind (copyData_traced hhost hk) fun copy => copyAttributes_traced ih
    have hplain : ∀ {act : Attempt ω Handle}, Attempt.Traced act →
        Attempt.Triple (fun heap => heap.SoundWithHistory ∧ ∃ c, heap.arena.get? h = some c ∧ c.kind = k) act
          (fun _ => Heap.SoundWithHistory) Heap.SoundWithHistory :=
      fun hact => .conseq hact (fun _ ht => ht.1) (fun _ _ => id) fun _ => id
    cases k
    case pair | language =>
      exact hplain (.bind (copyPairlist_traced hhost ih) fun copy => copyAttributes_traced ih)
    case list | expression =>
      exact hplain (.bind (copyVector_traced hhost ih) fun copy => copyAttributes_traced ih)
    case stringVector =>
      exact hplain (.bind (copyStrings_traced hhost) fun copy => copyAttributes_traced ih)
    case charString =>
      refine .bind (.lift (.of_reads .flags fun _ _ => id)) fun flags => ?_
      split
      · exact hplain .pure
      · exact hdata (by simp)
    case logicalVector | integerVector | realVector | rawVector => exact hdata (by simp)
    case closure =>
      refine hplain (.bind (.reads .closureParts) fun parts => ?_)
      obtain ⟨formals, body, env⟩ := parts
      refine .bind (construct_traced hhost ⟨rfl, nofun, ?_⟩ (.refl _) rfl) fun copy =>
        copyAttributes_traced ih
      simp [Payload.children]
    all_goals exact hplain .pure

theorem duplicate_traced (hhost : host.Traced) : Attempt.Traced (duplicate host h) :=
  .protecting (.bind .pushRoot fun _ => .bind (.liftHost .stepBound) fun bound =>
    copyWithin_traced hhost bound h)

theorem duplicateIfShared_traced (hhost : host.Traced) :
    Attempt.Traced (duplicateIfShared host h) := by
  refine .bind (.reads .mayMutate) fun free => ?_
  split
  · exact .pure
  · exact duplicate_traced hhost

end HostM

end ManagedHeap
