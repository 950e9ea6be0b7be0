import ManagedHeap.Proofs.HeapEffects

/-!
# Constructors and copies as effects

A constructor allocates an object and fills it; a copy is made with constructors and setters. So
both are composed of operations on the heap alone, and of what runs when an allocation fails.
-/

namespace ManagedHeap

variable {start : Heap}

namespace Attempt.Composed

variable {ω α β : Type} {x : Attempt ω α} {f : α → Attempt ω β}

theorem bind (hx : Composed start x) (hf : ∀ a, Composed start (f a)) : Composed start (x >>= f) :=
  Triple.bind hx hf

theorem pure {a : α} : Composed start (pure a : Attempt ω α) := Triple.pure fun _ => id

theorem throwFault {e : Fault} : Composed start (throwThe Fault e : Attempt ω α) := Triple.throwFault

theorem throw_bind {e : HeapError} : Composed start ((throwThe HeapError e : Attempt ω α) >>= f) :=
  Triple.throw fun _ => id

theorem lift {act : HeapM α} (h : act.Composed start) : Composed start (liftM act : Attempt ω α) :=
  Triple.lift h

theorem basic {act : HeapM α} {pays : Bool} (h : act.Basic pays) :
    Composed start (liftM act : Attempt ω α) :=
  lift (.basic h)

theorem reads {act : HeapM α} (h : act.Reads) : Composed start (liftM act : Attempt ω α) :=
  lift (.reads h)

theorem liftHost {act : HostM ω α} (h : act.Composed start) :
    Composed start (liftM act : Attempt ω α) := Triple.liftHost h

theorem run (hx : Composed start x) : HostM.Composed start x.run := by
  intro state heap r heap' hc hrun
  have hend := hx state heap r heap' hc hrun
  obtain ⟨e | a, state'⟩ := r
  · exact hend
  · exact hend

theorem mk {act : HostM ω (Except HeapError α)} (h : HostM.Composed start act) :
    Composed start (ExceptT.mk act : Attempt ω α) := by
  refine Triple.mk (HostM.Triple.conseq h (fun _ => id) ?_)
  rintro (e | a) heap h
  · exact h
  · exact h

theorem attempt {act : HeapM (Except HeapError α)} (h : act.Composed start) :
    Composed start (HostM.attempt act : Attempt ω α) := mk (.lift h)

theorem pushRoot {h : Handle} :
    Composed start (HostM.attempt (HeapM.pushRoot h) : Attempt ω Nat) :=
  attempt (.besides (.of_retouches .pushRoot .pushRoot .pushRoot) .pushRoot)

theorem protecting (hx : Composed start x) : Composed start (HostM.protecting x) :=
  mk (HostM.Composed.bind (.reads .protectDepth) fun _ => .bind hx.run fun _ =>
    .bind .closeScope fun _ => .pure)

end Attempt.Composed

namespace HostM

variable {ω α : Type} {host : Host ω} {kind : Kind} {payload : Payload} {slots : List Handle}
  {h : Handle}

theorem allocate_then (hhost : host.Composed start) {length : Nat} {roots : List Handle}
    {next : Handle → Attempt ω α} (hnext : ∀ h, Attempt.Composed start (next h)) :
    Attempt.Composed start (allocate host kind length roots >>= next) :=
  Attempt.Triple.bind (allocate_composed hhost) fun h =>
    (hnext h).conseq (fun _ hc => hc.1) (fun _ _ => id) fun _ => id

theorem composed_fill (hfits : payload.Fits kind slots) (hcovered : payload.Covered slots)
    {length : Nat} (hlength : payload.length = length) {next : Attempt ω α}
    (hnext : Attempt.Composed start next) :
    Attempt.Triple (fun heap => start.Comes heap ∧ heap.Sized kind length h) (do
      setPayload h payload
      countReferences slots
      next : Attempt ω α) (fun _ => start.Comes) start.Comes := by
  subst hlength
  refine .bind (Q := fun _ mid => ∃ heap u, (start.Comes heap ∧ heap.Sized kind payload.length h) ∧
    (setPayload h payload).run heap = .ok (u, mid)) (.lift ?_) fun _ => .bind (.lift ?_) fun _ => hnext
  · exact fun heap u mid hc hrun => ⟨heap, u, hc, hrun⟩
  · rintro mid v heap' ⟨heap, u, ⟨hc, hsized⟩, hfirst⟩ hlast
    have hfilled := HeapM.hasBoundedHistory_setPayload hfits.suits heap u mid ⟨hc.1, hsized⟩ hfirst
    exact hc.tail (HeapM.hasBoundedHistory_countReferences hfits hcovered mid v heap' hfilled hlast)
      (.fill hsized hfits hcovered hfirst hlast)

theorem composed_fillCounted (hfits : payload.Fits kind slots) (hcovered : payload.Covered slots)
    {next : Attempt ω α} (hnext : Attempt.Composed start next) :
    Attempt.Triple (fun heap => start.Comes heap ∧ heap.Sized kind payload.length h) (do
      countReferences slots
      setPayload h payload
      next : Attempt ω α) (fun _ => start.Comes) start.Comes := by
  refine .bind (Q := fun _ mid => ∃ heap u, (start.Comes heap ∧ heap.Sized kind payload.length h) ∧
    (countReferences slots).run heap = .ok (u, mid)) (.lift ?_) fun _ => .bind (.lift ?_) fun _ => hnext
  · exact fun heap u mid hc hrun => ⟨heap, u, hc, hrun⟩
  · rintro mid v heap' ⟨heap, u, ⟨hc, hsized⟩, hfirst⟩ hlast
    have hcounted := HeapM.traced_countFirst hfits.suits heap u mid ⟨hc.1, hsized⟩ hfirst
    exact hc.tail (HeapM.traced_fillCounted hfits hcovered mid v heap' hcounted hlast)
      (.fillCounted hsized hfits hcovered hfirst hlast)

theorem construct_composed (hhost : host.Composed start) (hfits : payload.Fits kind slots)
    (hcovered : payload.Covered slots) (hlength : payload.length = 0) :
    Attempt.Composed start (construct host kind payload slots) :=
  Attempt.Triple.bind (allocate_composed hhost) fun _ => composed_fill hfits hcovered hlength .pure

theorem bindAll_composed (hhost : host.Composed start) (bindings : List (Handle × Handle))
    (frame : Handle) : Attempt.Composed start (bindAll host frame bindings) := by
  induction bindings generalizing frame with
  | nil => exact .pure
  | cons b rest ih =>
    obtain ⟨name, value⟩ := b
    refine Attempt.Triple.bind (allocate_composed hhost) fun cell =>
      composed_fill ⟨rfl, ?_, ?_⟩ (.refl _) (by rfl) (ih cell)
    · simp
    · simp [Payload.children]

theorem makeEnvironment_composed (hhost : host.Composed start) {names values : List Handle}
    {parent : Handle} : Attempt.Composed start (makeEnvironment host names values parent) := by
  unfold makeEnvironment
  dsimp only
  split
  · exact .throw_bind
  · refine .mk (.withTransient (Attempt.Composed.run ?_))
    refine .bind (bindAll_composed hhost _ .nil) fun frame =>
      Attempt.Triple.bind (allocate_composed hhost) fun env =>
        composed_fill ⟨rfl, ?_, ?_⟩ (.refl _) (by rfl) .pure
    · simp
    · simp [Payload.children]

theorem makeWeakRef_composed (hhost : host.Composed start) {key value finalizer : Handle}
    {onExit : Bool} : Attempt.Composed start (makeWeakRef host key value finalizer onExit) := by
  have hmake : Attempt.Composed start (do
      let record ← allocate host .weakRef 0 [key, value, finalizer]
      HeapM.linkWeakRef record key value finalizer onExit
      return record) := by
    refine Attempt.Triple.bind (allocate_composed hhost) fun record =>
      .bind (Q := fun _ => start.Comes) (.lift ?_) fun _ => Attempt.Composed.pure
    rintro heap u heap' ⟨hc, hsized⟩ hrun
    refine hc.tail ⟨HeapM.linkWeakRef_safe _ _ _ ⟨hc.1.1, hsized.fresh⟩ hrun, ?_⟩ (.link hsized hrun)
    exact hc.1.2.retouched (HeapM.Retouches.linkWeakRef hsized hrun)
      (HeapM.Settles.linkWeakRef _ _ _ hrun)
  unfold makeWeakRef
  dsimp only
  split
  · refine .bind (.reads .kind) fun k => ?_
    split
    · exact .throw_bind
    · exact hmake
  · exact hmake

theorem makeNativeFunction_composed (hhost : host.Composed start) {routine : Nat} :
    Attempt.Composed start (makeNativeFunction host routine) :=
  construct_composed hhost ⟨rfl, by simp, by simp [Payload.children]⟩ (.refl _) rfl

theorem registerFinalizer_composed (hhost : host.Composed start) {key : Handle}
    {finalizer : Finalizer} {onExit : Bool} :
    Attempt.Composed start (registerFinalizer host key finalizer onExit) := by
  refine .protecting (.bind .pushRoot fun _ => ?_)
  cases finalizer with
  | native routine =>
    exact .bind (makeNativeFunction_composed hhost) fun function => .bind .pushRoot fun _ =>
      makeWeakRef_composed hhost
  | closure h =>
    exact .bind .pure fun function => .bind .pushRoot fun _ => makeWeakRef_composed hhost

theorem internString_composed (hhost : host.Composed start) {bytes : Bytes} {encoding : Encoding} :
    Attempt.Composed start (internString host bytes encoding) := by
  refine .bind (.liftHost .getHeap) fun heap => .bind (.reads .findCached) fun found => ?_
  cases found with
  | some h => exact .pure
  | none =>
    refine Attempt.Triple.bind (allocate_composed hhost) fun h =>
      .bind (Q := fun _ => start.Comes) (.lift ?_) fun _ => Attempt.Composed.pure
    rintro heap u heap' ⟨hc, hsized⟩ hrun
    refine hc.tail ⟨?_, ?_⟩ (.cache hsized hrun)
    · exact (HeapM.cacheString_cached _ _ _ ⟨hc.1.1, hsized.fresh⟩ hrun).1
    · exact hc.1.2.retouched (HeapM.Retouches.cacheString hc.1.1 hsized hrun)
        (HeapM.Settles.cacheString hc.1.1 hsized.fresh hrun)

theorem makeSymbol_composed (hhost : host.Composed start) {name : Bytes} :
    Attempt.Composed start (do
      let pname ← internString host name (nameEncoding name)
      let sym ← allocate host .symbol 0 [pname]
      HeapM.nameSymbol sym pname
      modifyThe Heap fun heap => { heap with symbols := heap.symbols.insert name sym }
      return sym) := by
  refine Attempt.Triple.bind (((internString_cached hhost.traced.safe).and
    (internString_composed hhost)).conseq (fun _ hc => ⟨hc.1.1, hc⟩) (fun _ _ => id) fun _ hc => hc.2)
    fun pname => ?_
  have hspared : Attempt.Triple (fun heap => heap.Sound ∧ heap.KeptStrings [pname] [pname])
      (allocate host .symbol 0 [pname])
      (fun h heap => heap.Sound ∧ heap.Allocated .symbol [pname] h) Heap.Sound :=
    allocate_spec hhost.traced.safe
  refine .bind ((hspared.and (allocate_composed hhost)).conseq (fun heap hc => ⟨⟨hc.1.1, ?_⟩, hc.2⟩)
    (fun _ _ => id) fun _ hc => hc.2) fun sym => ?_
  · intro p hp
    obtain rfl := List.mem_singleton.mp hp
    exact ⟨hp, hc.1.2⟩
  · -- the symbol goes into the table before anything else runs
    refine .bind (Q := fun _ mid => ∃ heap u, start.Comes heap ∧ heap.Sized .symbol 0 sym ∧
      mid.SoundWithHistory ∧ (HeapM.nameSymbol sym pname).run heap = .ok (u, mid)) (.lift ?_) fun _ =>
      .bind (Q := fun _ => start.Comes) (.modifyHeap ?_) fun _ => Attempt.Composed.pure
    · rintro heap u mid ⟨hs, hc, hsized⟩ hrun
      refine ⟨heap, u, hc, hsized, ⟨HeapM.nameSymbol_safe _ _ _ hs hrun, ?_⟩, hrun⟩
      exact hc.1.2.retouched (HeapM.Retouches.nameSymbol hsized hrun)
        (HeapM.Settles.nameSymbol _ _ _ hrun)
    · rintro mid ⟨heap, u, hc, hsized, ht, hrun⟩
      refine hc.tail ⟨ht.1.aside rfl rfl rfl rfl rfl, ?_⟩ (.enter hsized hrun)
      exact ht.2.retouched (.aside rfl rfl rfl) (.aside rfl)

theorem internSymbol_composed (hhost : host.Composed start) {name : Bytes} :
    Attempt.Composed start (internSymbol host name) := by
  refine .bind (.liftHost .getHeap) fun heap => ?_
  cases heap.symbols.find? name with
  | some sym => exact .pure
  | none =>
    dsimp only
    split
    · exact .throw_bind
    · exact makeSymbol_composed hhost

theorem defineVar_composed (hhost : host.Composed start) {env sym value : Handle} :
    Attempt.Composed start (defineVar host env sym value) := by
  refine .bind (.reads .frameBinding) fun found => ?_
  cases found with
  | some cell => exact .basic .setCar
  | none =>
    exact .bind (.reads .envFrame) fun frame => allocate_then hhost fun cell =>
      .bind (.basic .setCar) fun _ => .bind (.basic .setCdr) fun _ => .bind (.basic .setTag) fun _ =>
      .basic .setFrame

variable {copyOne : Handle → Attempt ω Handle}

theorem copyPairs_composed (hhost : host.Composed start)
    (hcopy : ∀ h, Attempt.Composed start (copyOne h)) {index : Nat} (fuel : Nat)
    (head tail cursor : Handle) :
    Attempt.Composed start (copyPairs host copyOne index head tail cursor fuel) := by
  induction fuel generalizing head tail cursor with
  | zero => exact .throwFault
  | succ fuel ih =>
    refine .bind (.reads .kind) fun k => ?_
    split
    · exact .pure
    · refine .bind (.reads .car) fun car => .bind (hcopy car) fun element =>
        .bind (.reads .kind) fun cellKind => .bind (.reads .tag) fun cellTag =>
        allocate_then hhost fun cell => .bind (.basic .setCar) fun _ =>
        .bind (.basic .setTag) fun _ => ?_
      have hend : ∀ head, Attempt.Composed (ω := ω) start (do
          let next ← HeapM.cdr cursor
          copyPairs host copyOne index head cell next fuel) :=
        fun head => .bind (.reads .cdr) fun next => ih head cell next
      split
      · exact .bind (.lift (.besides (.of_retouches .reprotect .onProtect .onProtect) .onProtect))
          fun _ => hend cell
      · exact .bind (.basic .setCdr) fun _ => hend head

theorem copyPairlist_composed (hhost : host.Composed start)
    (hcopy : ∀ h, Attempt.Composed start (copyOne h)) :
    Attempt.Composed start (copyPairlist host copyOne h) := by
  refine .protecting (.bind .pushRoot fun index => .bind (.liftHost .stepBound)
    fun bound => .bind (copyPairs_composed hhost hcopy bound .nil .nil h) fun result => ?_)
  obtain ⟨head, tail, rest⟩ := result
  dsimp only
  split
  · exact .bind (hcopy rest) fun last => .bind (.basic .setCdr) fun _ => .pure
  · exact .pure

theorem copyElements_composed (hcopy : ∀ h, Attempt.Composed start (copyOne h)) {copy : Handle}
    (places : List Nat) : Attempt.Composed start (copyElements copyOne h copy places) := by
  induction places with
  | nil => exact .pure
  | cons i rest ih =>
    exact .bind (.attempt (.reads .vectorElt)) fun old => .bind (hcopy old) fun element =>
      .bind (.attempt (.basic .setVectorElt)) fun _ => ih

theorem copyVector_composed (hhost : host.Composed start)
    (hcopy : ∀ h, Attempt.Composed start (copyOne h)) :
    Attempt.Composed start (copyVector host copyOne h) :=
  .bind (.reads .kind) fun _ => .bind (.reads .length) fun length => .protecting <|
    allocate_then hhost fun _ => .bind .pushRoot fun _ =>
    .bind (copyElements_composed hcopy (List.range length)) fun _ => .pure

theorem suits_composed {p : Payload} {next : Kind → Attempt ω α}
    (hnext : ∀ k, p.suits k = true → Attempt.Composed start (next k)) : Attempt.Triple
    (fun heap => start.Comes heap ∧ ∃ c, heap.arena.get? h = some c ∧ c.payload = p) (do
      let k ← HeapM.kind h
      next k : Attempt ω α) (fun _ => start.Comes) start.Comes := by
  have hkind : HeapM.Triple
      (fun heap => start.Comes heap ∧ ∃ c, heap.arena.get? h = some c ∧ c.payload = p)
      (HeapM.kind h) fun k heap => start.Comes heap ∧ p.suits k = true := by
    rintro heap k heap' ⟨hc, hp⟩ hrun
    have hsuits := (HeapM.kind_suits _ _ _ ⟨hc.1.1, hp⟩ hrun).2
    obtain rfl := HeapM.Reads.kind _ _ _ hrun
    exact ⟨hc, hsuits⟩
  exact .bind (.lift hkind) fun k => .of_and (hnext k)

theorem copyStrings_composed (hhost : host.Composed start) :
    Attempt.Composed start (copyStrings host h) := by
  have hpayload : HeapM.Triple start.Comes (HeapM.payload h) fun p heap =>
      start.Comes heap ∧ ∃ c, heap.arena.get? h = some c ∧ c.payload = p := by
    intro heap p heap' hc hrun
    obtain ⟨c, hcell, hp, rfl⟩ := HeapM.run_payload.mp hrun
    exact ⟨hc, c, hcell, hp⟩
  refine Attempt.Triple.bind (.lift hpayload) fun p => ?_
  cases p
  case handles elements =>
    refine suits_composed fun kind hsuits => Attempt.Triple.bind (allocate_composed hhost) fun copy =>
      composed_fillCounted ⟨hsuits, ?_, fun k hk => .inl hk⟩ (.refl _) .pure
    simp
  all_goals
    exact .conseq (P := start.Comes) (Attempt.Composed.reads .wrongKind) (fun _ hc => hc.1)
      (fun _ _ => id) fun _ => id

theorem copyData_composed (hhost : host.Composed start) {data : Kind}
    (hdata : data ∈ [.charString, .logicalVector, .integerVector, .realVector, .rawVector]) :
    Attempt.Triple (fun heap => start.Comes heap ∧ ∃ c, heap.arena.get? h = some c ∧ c.kind = data)
      (copyData host h) (fun _ => start.Comes) start.Comes := by
  have hpayload : HeapM.Triple
      (fun heap => start.Comes heap ∧ ∃ c, heap.arena.get? h = some c ∧ c.kind = data)
      (HeapM.payload h) fun p heap =>
        (start.Comes heap ∧ ∃ c, heap.arena.get? h = some c ∧ c.payload = p) ∧
          p.suits data = true := by
    rintro heap p heap' ⟨hc, hcell⟩ hrun
    obtain ⟨⟨-, hp⟩, hsuits⟩ := HeapM.payload_suits _ _ _ ⟨hc.1.1, hcell⟩ hrun
    obtain rfl := HeapM.Reads.payload _ _ _ hrun
    exact ⟨⟨hc, hp⟩, hsuits⟩
  refine .bind (.lift hpayload) fun p => .of_and fun hp => suits_composed fun kind hsuits => ?_
  have hfits : p.Fits kind [] := Payload.fits_of_data hp hdata hsuits
  have hcovered : p.Covered [] := .of_append (p.children true) rfl fun k hk =>
    (hfits.children k hk).resolve_left List.not_mem_nil
  exact Attempt.Triple.bind (allocate_composed hhost) fun copy =>
    composed_fill hfits hcovered rfl .pure

theorem copyAttributes_composed (hcopy : ∀ h, Attempt.Composed start (copyOne h)) {copy : Handle} :
    Attempt.Composed start (copyAttributes copyOne h copy) := by
  refine .bind (.reads .attrib) fun attached => .bind (.reads .flags) fun flags => ?_
  have hend : Attempt.Composed (ω := ω) start (do
      HeapM.updateCell copy (Cell.mapFlags fun fs =>
        { fs with object := fs.object || flags.object, s4Object := fs.s4Object || flags.s4Object })
      return copy) := .bind (.basic .addClassBits) fun _ => .pure
  dsimp only
  split
  · refine .bind (.protecting ?_) fun _ => hend
    exact .bind .pushRoot fun _ => .bind (hcopy attached) fun value => .basic .setAttrib
  · exact hend

theorem copyWithin_composed (hhost : host.Composed start) (fuel : Nat) (h : Handle) :
    Attempt.Composed start (copyWithin host fuel h) := by
  induction fuel generalizing h with
  | zero => exact .throwFault
  | succ fuel ih =>
    have hkind : HeapM.Triple start.Comes (HeapM.kind h) fun k heap =>
        start.Comes heap ∧ ∃ c, heap.arena.get? h = some c ∧ c.kind = k := by
      intro heap k heap' hc hrun
      obtain ⟨c, hcell, rfl, rfl⟩ := HeapM.run_kind.mp hrun
      exact ⟨hc, c, hcell, rfl⟩
    refine Attempt.Composed.bind (.lift (.besides (.of_retouches .awaitOutput .awaitOutput .awaitOutput)
      .awaitOutput)) fun _ => Attempt.Triple.bind (.lift hkind) fun k => ?_
    have hdata : k ∈ [.charString, .logicalVector, .integerVector, .realVector, .rawVector] →
        Attempt.Triple (fun heap => start.Comes heap ∧ ∃ c, heap.arena.get? h = some c ∧ c.kind = k)
          (do copyAttributes (copyWithin host fuel) h (← copyData host h))
          (fun _ => start.Comes) start.Comes :=
      fun hk => .bind (copyData_composed hhost hk) fun copy => copyAttributes_composed ih
    have hplain : ∀ {act : Attempt ω Handle}, Attempt.Composed start act →
        Attempt.Triple (fun heap => start.Comes heap ∧ ∃ c, heap.arena.get? h = some c ∧ c.kind = k)
          act (fun _ => start.Comes) start.Comes :=
      fun hact => .conseq hact (fun _ hc => hc.1) (fun _ _ => id) fun _ => id
    cases k
    case pair | language =>
      exact hplain (.bind (copyPairlist_composed hhost ih) fun copy => copyAttributes_composed ih)
    case list | expression =>
      exact hplain (.bind (copyVector_composed hhost ih) fun copy => copyAttributes_composed ih)
    case stringVector =>
      exact hplain (.bind (copyStrings_composed hhost) fun copy => copyAttributes_composed ih)
    case charString =>
      refine .bind (.lift (.of_reads .flags fun _ _ => id)) fun flags => ?_
      split
      · exact hplain .pure
      · exact hdata (by simp)
    case logicalVector | integerVector | realVector | rawVector => exact hdata (by simp)
    case closure =>
      refine hplain (.bind (.reads .closureParts) fun parts => ?_)
      obtain ⟨formals, body, env⟩ := parts
      refine .bind (construct_composed hhost ⟨rfl, ?_, ?_⟩ (.refl _) rfl) fun copy =>
        copyAttributes_composed ih
      · simp
      · simp [Payload.children]
    all_goals exact hplain .pure

theorem duplicate_composed (hhost : host.Composed start) :
    Attempt.Composed start (duplicate host h) :=
  .protecting (.bind .pushRoot fun _ => .bind (.liftHost .stepBound) fun bound =>
    copyWithin_composed hhost bound h)

theorem duplicateIfShared_composed (hhost : host.Composed start) :
    Attempt.Composed start (duplicateIfShared host h) := by
  refine .bind (.reads .mayMutate) fun free => ?_
  split
  · exact .pure
  · exact duplicate_composed hhost

end HostM

end ManagedHeap
