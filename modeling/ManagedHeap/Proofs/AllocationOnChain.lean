import ManagedHeap.Proofs.SessionWeakRuns
import ManagedHeap.Proofs.FinalizersOnChain

/-!
# Allocation, construction and copies keep the chain unbroken

An allocation may collect and finalize, so it goes along the chain. What it answers is on no chain;
it is filled, or linked in front of the chain as a weak record.
-/

namespace ManagedHeap

open HeapM

variable {ω α : Type} {I : ω → Prop} {host : Host ω} {kind : Kind} {length : Nat}
  {h : Handle} {payload : Payload} {slots : List Handle} {P : Heap → Prop}

namespace HeapM

theorem On.of_weakRunTriple {act : HeapM α} {Q : α → Heap → Prop} (hact : Tame act) (hQ : WeakRunTriple P act Q)
    (h : ∀ heap a heap', P heap → act.run heap = .ok (a, heap') → heap.PreservesFlags heap') :
    On (.unbroken I) P act Q := by
  refine .of_ends (fun heap e _ _ he => (hact heap e he).2) fun heap a heap' hread hP hrun => ?_
  obtain ⟨⟨records, hc⟩, hpreservesFlags⟩ := And.intro hread (h heap a heap' hP hrun)
  exact ⟨⟨records, hpreservesFlags.chain hc⟩, .of_preserves hpreservesFlags.toPreserves (congrArg Tally.running hpreservesFlags.tally),
    (hQ heap hread heap a heap' ⟨hP, .refl heap⟩ hrun).1⟩

theorem on_takeOrGrow {reserved : Bool} (hkind : kind ≠ .free) :
    On (.unbroken I) Heap.Sound (takeOrGrow kind length reserved) (Answers kind) :=
  .of_weakRunTriple .takeOrGrow (weakRunTriple_takeOrGrow hkind)
    fun _ _ _ hs hrun => preservesFlags_takeOrGrow hs hkind hrun

theorem on_allocateFast :
    On (.unbroken I) Heap.Sound (allocateFast kind length) fun h heap => heap.Sound ∧
      (h = .noObject ∨ heap.FreshOffChain kind h) :=
  .of_weakRunTriple .allocateFast weakRunTriple_allocateFast
    fun _ _ _ hs hrun => preservesFlags_allocateFast hs hrun

theorem on_escalate (hkind : kind ≠ .free) (levels : List ManagedHeap.Level) (reserved : Bool) :
    On (.unbroken I) Heap.Sound (escalate kind length reserved levels) (Answers kind) := by
  induction levels generalizing reserved with
  | nil => exact .pure fun heap hs => ⟨hs, nofun⟩
  | cons level deeper ih =>
    refine .bind .collects fun _ => .bind (on_takeOrGrow hkind) fun r => ?_
    cases r with
    | ok h => exact .pure fun heap hs => ⟨hs.1, fun g hg => hs.2 g (Except.ok.inj hg ▸ rfl)⟩
    | error reserved => exact (ih reserved).conseq (fun heap hs => hs.1) fun _ _ => id

end HeapM

namespace HostM

theorem on_finalizeAndRetry (hhost : host.Unbroken I) (hkind : kind ≠ .free) {reserved : Bool} :
    On (.unbroken I) Heap.Sound (finalizeAndRetry host kind length reserved) (Answers kind) := by
  refine .bind Unbroken.pendingFinalizerCount fun n => ?_
  split
  · exact .pure fun heap hs => ⟨hs, nofun⟩
  · exact .bind (Unbroken.runPendingFinalizers hhost) fun ran => .bind (.lift .collects) fun _ =>
      .lift (HeapM.on_takeOrGrow hkind)

theorem On.retry {P : Heap → Prop} {x : HostM ω (Except Bool Handle)}
    {next : Bool → HostM ω (Except HeapError Handle)} (hx : On (.unbroken I) P x (Answers kind))
    (hnext : ∀ reserved, On (.unbroken I) Heap.Sound (next reserved) (Answers kind)) :
    On (.unbroken I) P (do
      match ← x with
      | .ok h => return .ok h
      | .error reserved => next reserved) (Answers kind) := by
  refine .bind hx fun r => ?_
  cases r with
  | ok h => exact .pure fun heap hs => ⟨hs.1, fun g hg => hs.2 g (Except.ok.inj hg ▸ rfl)⟩
  | error reserved => exact (hnext reserved).conseq (fun _ h => h.1) fun _ _ => id

theorem on_allocateSlow (hhost : host.Unbroken I) (hkind : kind ≠ .free) :
    On (.unbroken I) Heap.Sound (allocateSlow host kind length) (Answers kind) := by
  refine .bind (Unbroken.reads .collectionDue .collectionDue) fun due => ?_
  dsimp only
  rcases due with _ | reason
  on_goal 2 =>
    refine .bind Unbroken.getHeap fun heap => .bind (.lift .collects) fun _ => ?_
  all_goals
    refine .retry (.lift (HeapM.on_takeOrGrow hkind)) fun reserved => ?_
    refine .bind Unbroken.getHeap fun heap =>
      .retry (.lift (HeapM.on_escalate hkind _ reserved)) fun reserved => ?_
    refine .retry (on_finalizeAndRetry hhost hkind) fun reserved => ?_
    exact .bind Unbroken.note fun _ => .pure fun heap hs => ⟨hs, nofun⟩

theorem on_allocate (hhost : host.Unbroken I) {roots : List Handle} :
    Attempt.On (.unbroken I) Heap.Sound (allocate host kind length roots)
      (fun h heap => heap.Sound ∧ heap.FreshOffChain kind h) Heap.Sound := by
  unfold allocate
  dsimp only
  split
  · exact .throw_bind fun _ => id
  · rename_i hallocatable
    replace hallocatable : kind.isAllocatable = true := by simpa using hallocatable
    split
    · exact .throw_bind fun _ => id
    · refine .bind (.lift HeapM.on_allocateFast) fun h => ?_
      split
      · rename_i hobject
        refine .pure fun heap hs => ⟨hs.1, hs.2.resolve_left ?_⟩
        rintro rfl
        exact nomatch hobject
      · refine .mk (On.withTransient (on_allocateSlow hhost (HeapM.kind_ne_free hallocatable))
          (fun heap transient hs => hs.1.keeping transient) fun r heap transient hr => ?_)
        cases r with
        | ok h => exact ⟨hr.1.keeping transient, (hr.2 h rfl).keeping transient⟩
        | error e => exact hr.1.keeping transient

theorem on_setPayload (hkind : kind ≠ .weakRef) (hsuits : payload.suits kind = true) :
    HeapM.On (.unbroken I) (fun heap => heap.Sound ∧ heap.FreshOffChain kind h) (setPayload h payload)
      fun _ heap => heap.Filled kind payload h := by
  refine .of_weakRunTriple .setPayload (weakRunTriple_setPayload hkind hsuits) ?_
  rintro heap u heap' ⟨hs, hfresh, -⟩ hrun
  obtain ⟨c, hc, -⟩ := id hfresh
  exact PreservesRecords.rewrite hc (hfresh.fields? hs hkind hc) (Payload.fields?_of_suits hsuits hkind) hrun

theorem on_countReferences (hfits : payload.Fits kind slots) :
    HeapM.On (.unbroken I) (fun heap => heap.Filled kind payload h) (countReferences slots)
      fun _ => Heap.Sound :=
  .preservesRecords (.countReferences slots) (HeapM.countReferences_filled hfits) (.countReferences slots)

theorem on_fill (hkind : kind ≠ .weakRef) (hfits : payload.Fits kind slots) {next : Attempt ω α}
    (hnext : Attempt.Unbroken I next) :
    Attempt.On (.unbroken I) (fun heap => heap.Sound ∧ heap.FreshOffChain kind h) (do
      setPayload h payload
      countReferences slots
      next) (fun _ => Heap.Sound) Heap.Sound :=
  .bind (.lift (on_setPayload hkind hfits.suits)) fun _ =>
    .bind (.lift (on_countReferences hfits)) fun _ => hnext

theorem construct_unbroken (hhost : host.Unbroken I) (hkind : kind ≠ .weakRef)
    (hfits : payload.Fits kind slots) : Attempt.Unbroken I (construct host kind payload slots) :=
  Attempt.On.bind (on_allocate hhost) fun _ => on_fill hkind hfits .pure

theorem bindAll_unbroken (hhost : host.Unbroken I) (bindings : List (Handle × Handle))
    (frame : Handle) : Attempt.Unbroken I (bindAll host frame bindings) := by
  induction bindings generalizing frame with
  | nil => exact .pure
  | cons b rest ih =>
    obtain ⟨name, value⟩ := b
    refine Attempt.On.bind (on_allocate hhost) fun cell => on_fill (by decide) ?_ (ih cell)
    exact ⟨rfl, nofun, by simp [Payload.children]⟩

theorem makeEnvironment_unbroken (hhost : host.Unbroken I) {names values : List Handle}
    {parent : Handle} : Attempt.Unbroken I (makeEnvironment host names values parent) := by
  unfold makeEnvironment
  dsimp only
  split
  · exact .throw_bind fun _ => id
  · refine .mk (Unbroken.withTransient (Attempt.Unbroken.run ?_))
    refine .bind (bindAll_unbroken hhost _ .nil) fun frame =>
      Attempt.On.bind (on_allocate hhost) fun env => on_fill (by decide) ?_ .pure
    exact ⟨rfl, nofun, by simp [Payload.children]⟩

theorem on_linkWeakRef {record key value finalizer : Handle} {onExit : Bool} :
    HeapM.On (.unbroken I) (fun heap => heap.Sound ∧ heap.FreshOffChain .weakRef record)
      (linkWeakRef record key value finalizer onExit) fun _ => Heap.Sound := by
  refine .of_ends (fun heap e _ _ he => (Tame.linkWeakRef heap e he).2) ?_
  rintro heap u heap' hread ⟨hs, hfresh, hout⟩ hrun
  obtain ⟨live, hlinks, htally, -⟩ := links_linkWeakRef (Heap.Fresh.ne_nil hfresh hs) hout hrun
  obtain ⟨records, hc⟩ := hread
  exact ⟨⟨record :: records, (hlinks.chain hc).2⟩, .of_links hlinks (congrArg Tally.running htally), linkWeakRef_safe _ _ _ ⟨hs, hfresh⟩ hrun⟩

theorem makeWeakRef_unbroken (hhost : host.Unbroken I) {key value finalizer : Handle}
    {onExit : Bool} : Attempt.Unbroken I (makeWeakRef host key value finalizer onExit) := by
  have hmake : Attempt.Unbroken I (do
      let record ← allocate host .weakRef 0 [key, value, finalizer]
      linkWeakRef record key value finalizer onExit
      return record) :=
    Attempt.On.bind (on_allocate hhost) fun record => .bind (.lift on_linkWeakRef) fun _ =>
      Attempt.Unbroken.pure
  unfold makeWeakRef
  dsimp only
  split
  · refine .bind (.reads .kind .kind) fun k => ?_
    split
    · exact .throw_bind fun _ => id
    · exact hmake
  · exact hmake

theorem makeNativeFunction_unbroken (hhost : host.Unbroken I) {routine : Nat} :
    Attempt.Unbroken I (makeNativeFunction host routine) :=
  construct_unbroken hhost (by decide) ⟨rfl, nofun, by simp [Payload.children]⟩

theorem pushRoot_unbroken {root : Handle} :
    Attempt.Unbroken I (attempt (pushRoot root) : Attempt ω Nat) :=
  .attempt .pushRoot .pushRoot .pushRoot

theorem registerFinalizer_unbroken (hhost : host.Unbroken I) {key : Handle} {finalizer : Finalizer}
    {onExit : Bool} : Attempt.Unbroken I (registerFinalizer host key finalizer onExit) := by
  have hlink : ∀ function, Attempt.Unbroken I (do
      let _ ← attempt (pushRoot function)
      makeWeakRef host key .nil function onExit) :=
    fun function => .bind pushRoot_unbroken fun _ => makeWeakRef_unbroken hhost
  refine .protecting (.bind pushRoot_unbroken fun _ => ?_)
  cases finalizer with
  | native routine => exact .bind (makeNativeFunction_unbroken hhost) hlink
  | closure h => exact .bind .pure hlink

theorem internString_unbroken (hhost : host.Unbroken I) {bytes : Bytes} {encoding : Encoding} :
    Attempt.Unbroken I (internString host bytes encoding) := by
  refine .bind (.liftHost .getHeap) fun heap => .bind (.reads .findCached .findCached) fun found => ?_
  cases found with
  | some h => exact .pure
  | none =>
    refine Attempt.On.bind (on_allocate hhost) fun h =>
      .bind (Q := fun _ => Heap.Sound) (.lift (.preservesFlags .cacheString ?_ ?_)) fun _ => Attempt.Unbroken.pure
    · rintro heap u heap' ⟨hs, hfresh, -⟩ hrun
      exact (cacheString_cached _ _ _ ⟨hs, hfresh⟩ hrun).1
    · rintro heap u heap' ⟨hs, hfresh, -⟩ hrun
      obtain ⟨c, hc, -⟩ := id hfresh
      exact PreservesRecords.cacheString hc (hfresh.fields? hs (by decide) hc) hrun

theorem internSymbol_unbroken (hsafe : host.Safe) (hhost : host.Unbroken I) {name : Bytes} :
    Attempt.Unbroken I (internSymbol host name) := by
  refine .of_triple (internSymbol_safe hsafe) ?_
  refine .bind (Q := fun _ => Heap.Sound) (.liftHost Unbroken.getHeap) fun heap => ?_
  cases heap.symbols.find? name with
  | some sym => exact .pure fun _ _ => trivial
  | none =>
    dsimp only
    split
    · exact .throw_bind fun _ => id
    · exact .bind (Q := fun _ => Heap.Sound) (internString_unbroken hhost) fun pname =>
        .bind (on_allocate hhost) fun sym =>
        .bind (Q := fun _ _ => True) (.lift (.preservesRecords .nameSymbol (fun _ _ _ _ _ => trivial) .nameSymbol))
          fun _ => .bind (Q := fun _ _ => True) (.lift (.modify (fun _ => rfl) (fun _ => rfl)
            (fun _ => rfl) fun _ _ => trivial)) fun _ => .pure fun _ _ => trivial

theorem defineVar_unbroken (hhost : host.Unbroken I) {env sym value : Handle} :
    Attempt.Unbroken I (defineVar host env sym value) := by
  refine .bind (.reads .frameBinding .frameBinding) fun found => ?_
  cases found with
  | some cell => exact .preservesRecords .setCar .setCar .setCar
  | none =>
    refine .bind (.reads .envFrame .envFrame) fun frame => Attempt.On.bind (on_allocate hhost)
      fun cell => .conseq (P := Heap.Sound) ?_ (fun _ hs => hs.1) (fun _ _ => id)
    exact Attempt.Unbroken.bind (.preservesRecords .setCar .setCar .setCar) fun _ =>
      .bind (.preservesRecords .setCdr .setCdr .setCdr) fun _ => .bind (.preservesRecords .setTag .setTag .setTag) fun _ =>
      .preservesRecords .setFrame .setFrame .setFrame

section

variable {copyOne : Handle → Attempt ω Handle}

theorem copyPairs_unbroken (hhost : host.Unbroken I) (hcopy : ∀ h, Attempt.Unbroken I (copyOne h)) {index : Nat}
    (fuel : Nat) (head tail cursor : Handle) :
    Attempt.Unbroken I (copyPairs host copyOne index head tail cursor fuel) := by
  induction fuel generalizing head tail cursor with
  | zero => exact .throwFault id
  | succ fuel ih =>
    refine .bind (.reads .kind .kind) fun k => ?_
    split
    · exact .pure
    · refine .bind (.reads .car .car) fun car => .bind (hcopy car) fun element =>
        .bind (.reads .kind .kind) fun cellKind => .bind (.reads .tag .tag) fun cellTag => ?_
      refine Attempt.On.bind (on_allocate hhost) fun cell =>
        .conseq (P := Heap.Sound) ?_ (fun _ hs => hs.1) fun _ _ => id
      refine Attempt.Unbroken.bind (.preservesRecords .setCar .setCar .setCar) fun _ => .bind (.preservesRecords .setTag .setTag .setTag) fun _ => ?_
      have hend : ∀ head, Attempt.Unbroken I (do
          let next ← HeapM.cdr cursor
          copyPairs host copyOne index head cell next fuel) :=
        fun head => .bind (.reads .cdr .cdr) fun next => ih head cell next
      split
      · exact .bind (.preservesRecords .reprotect .reprotect .reprotect) fun _ => hend cell
      · exact .bind (.preservesRecords .setCdr .setCdr .setCdr) fun _ => hend head

theorem copyPairlist_unbroken (hhost : host.Unbroken I) (hcopy : ∀ h, Attempt.Unbroken I (copyOne h))
    {h : Handle} : Attempt.Unbroken I (copyPairlist host copyOne h) := by
  refine .protecting (.bind pushRoot_unbroken fun index => .bind (.liftHost .stepBound)
    fun bound => .bind (copyPairs_unbroken hhost hcopy bound .nil .nil h) fun result => ?_)
  obtain ⟨head, tail, rest⟩ := result
  dsimp only
  split
  · exact .bind (hcopy rest) fun last => .bind (.preservesRecords .setCdr .setCdr .setCdr) fun _ => .pure
  · exact .pure

theorem copyElements_unbroken (hcopy : ∀ h, Attempt.Unbroken I (copyOne h)) {h copy : Handle}
    (places : List Nat) : Attempt.Unbroken I (copyElements copyOne h copy places) := by
  induction places with
  | nil => exact .pure
  | cons i rest ih =>
    exact .bind (.attempt .vectorElt (.of_reads .vectorElt) (.of_reads .vectorElt)) fun old => .bind (hcopy old) fun element =>
      .bind (.attempt .setVectorElt .setVectorElt .setVectorElt) fun _ => ih

theorem copyVector_unbroken (hhost : host.Unbroken I) (hcopy : ∀ h, Attempt.Unbroken I (copyOne h))
    {h : Handle} : Attempt.Unbroken I (copyVector host copyOne h) := by
  refine .bind (.reads .kind .kind) fun kind => .bind (.reads .length .length) fun length => .protecting ?_
  refine Attempt.On.bind (on_allocate hhost) fun copy =>
    .conseq (P := Heap.Sound) ?_ (fun _ hs => hs.1) fun _ _ => id
  exact Attempt.Unbroken.bind pushRoot_unbroken fun _ =>
    .bind (copyElements_unbroken hcopy (List.range length)) fun _ => .pure

theorem copyStrings_unbroken (hhost : host.Unbroken I) {h : Handle} :
    Attempt.Unbroken I (copyStrings host h) := by
  refine Attempt.On.bind (.lift (.preservesRecords .payload HeapM.payload_spec (.of_reads .payload))) fun p => ?_
  cases p
  case handles elements =>
    refine .bind (.lift (.preservesRecords .kind HeapM.kind_suits (.of_reads .kind))) fun kind =>
      .of_and fun hsuits => ?_
    have hkind : kind ≠ .weakRef := by
      rintro rfl
      exact nomatch hsuits
    refine .bind (on_allocate hhost) fun copy => .bind (.lift (.preservesRecords (.countReferences _)
      ((HeapM.countReferences_fresh elements.toList).conseq (fun _ hs => ⟨hs.1, hs.2.1⟩)
        fun _ _ => id) (.countReferences _))) fun _ => ?_
    refine .bind (Q := fun _ => Heap.Sound) (.lift (.preservesFlags .setPayload (HeapM.setPayload_counted
      ⟨hsuits, nofun, fun k hk => .inl hk⟩) ?_)) fun _ => Attempt.Unbroken.pure
    rintro heap u heap' ⟨⟨hs, hfresh⟩, -⟩ hrun
    obtain ⟨c, hc, -⟩ := id hfresh
    exact HeapM.PreservesRecords.rewrite hc (hfresh.fields? hs hkind hc) rfl hrun
  all_goals
    exact .conseq (P := Heap.Sound) (Attempt.Unbroken.reads .wrongKind .wrongKind) (fun _ hs => hs.1)
      fun _ _ => id

theorem on_copyData (hhost : host.Unbroken I) {h : Handle} {data : Kind}
    (hdata : data ∈ [.charString, .logicalVector, .integerVector, .realVector, .rawVector]) :
    Attempt.On (.unbroken I) (fun heap => heap.Sound ∧ ∃ c, heap.arena.get? h = some c ∧ c.kind = data)
      (copyData host h) (fun _ => Heap.Sound) Heap.Sound := by
  refine .bind (.lift (.preservesRecords .payload HeapM.payload_suits (.of_reads .payload))) fun p =>
    .of_and fun hp => ?_
  refine .bind (.lift (.preservesRecords .kind HeapM.kind_suits (.of_reads .kind))) fun kind =>
    .of_and fun hsuits => ?_
  have hkind : kind ≠ .weakRef := by
    rintro rfl
    cases p <;> cases data <;> simp_all [Payload.suits]
  have hfits : p.Fits kind [] := Payload.fits_of_data hp hdata hsuits
  exact .bind (on_allocate hhost) fun copy => .bind (.lift (on_setPayload hkind hsuits)) fun _ =>
    .pure fun heap hfilled => HeapM.countReferences_filled hfits heap ⟨⟩ heap hfilled rfl

theorem copyAttributes_unbroken (hcopy : ∀ h, Attempt.Unbroken I (copyOne h)) {h copy : Handle} :
    Attempt.Unbroken I (copyAttributes copyOne h copy) := by
  refine .bind (.reads .attrib .attrib) fun attached => .bind (.reads .flags .flags) fun flags => ?_
  have hend : Attempt.Unbroken I (do
      HeapM.updateCell copy (Cell.mapFlags fun fs =>
        { fs with object := fs.object || flags.object, s4Object := fs.s4Object || flags.s4Object })
      return copy) :=
    .bind (.preservesRecords .updateCell (.updateCell fun _ _ _ _ => ⟨.header rfl rfl rfl rfl rfl rfl rfl rfl id, rfl⟩)
      (.updateCell (fun _ => rfl) (fun _ => rfl) fun _ => ⟨id, id⟩)) fun _ => .pure
  dsimp only
  split
  · refine .bind (.protecting ?_) fun _ => hend
    exact .bind pushRoot_unbroken fun _ => .bind (hcopy attached) fun value =>
      .preservesRecords .setAttrib .setAttrib .setAttrib
  · exact hend

theorem copyWithin_unbroken (hhost : host.Unbroken I) (fuel : Nat) (h : Handle) :
    Attempt.Unbroken I (copyWithin host fuel h) := by
  induction fuel generalizing h with
  | zero => exact .throwFault id
  | succ fuel ih =>
    refine Attempt.Unbroken.bind (.preservesRecords .awaitOutput .awaitOutput .awaitOutput) fun _ =>
      Attempt.On.bind (.lift (.preservesRecords .kind HeapM.kind_spec (.of_reads .kind))) fun k => ?_
    have hdata : k ∈ [.charString, .logicalVector, .integerVector, .realVector, .rawVector] →
        Attempt.On (.unbroken I) (fun heap => heap.Sound ∧ ∃ c, heap.arena.get? h = some c ∧ c.kind = k) (do
          copyAttributes (copyWithin host fuel) h (← copyData host h))
          (fun _ => Heap.Sound) Heap.Sound :=
      fun hk => .bind (on_copyData hhost hk) fun copy => copyAttributes_unbroken ih
    have hplain : ∀ {act : Attempt ω Handle}, Attempt.Unbroken I act →
        Attempt.On (.unbroken I) (fun heap => heap.Sound ∧ ∃ c, heap.arena.get? h = some c ∧ c.kind = k) act
          (fun _ => Heap.Sound) Heap.Sound :=
      fun hact => .conseq hact (fun _ hs => hs.1) fun _ _ => id
    cases k
    case pair | language =>
      exact hplain (.bind (copyPairlist_unbroken hhost ih) fun copy => copyAttributes_unbroken ih)
    case list | expression =>
      exact hplain (.bind (copyVector_unbroken hhost ih) fun copy => copyAttributes_unbroken ih)
    case stringVector =>
      exact hplain (.bind (copyStrings_unbroken hhost) fun copy => copyAttributes_unbroken ih)
    case charString =>
      refine .bind (.lift (.preservesRecords .flags (.of_reads .flags fun _ _ => id) (.of_reads .flags))) fun flags => ?_
      split
      · exact hplain .pure
      · exact hdata (by simp)
    case logicalVector | integerVector | realVector | rawVector => exact hdata (by simp)
    case closure =>
      refine hplain (.bind (.reads .closureParts .closureParts) fun parts => ?_)
      obtain ⟨formals, body, env⟩ := parts
      refine .bind (construct_unbroken hhost (by decide) ⟨rfl, nofun, ?_⟩) fun copy => copyAttributes_unbroken ih
      simp [Payload.children]
    all_goals exact hplain .pure

theorem duplicate_unbroken (hhost : host.Unbroken I) {h : Handle} : Attempt.Unbroken I (duplicate host h) :=
  .protecting (.bind pushRoot_unbroken fun _ => .bind (.liftHost .stepBound) fun bound =>
    copyWithin_unbroken hhost bound h)

theorem duplicateIfShared_unbroken (hhost : host.Unbroken I) {h : Handle} :
    Attempt.Unbroken I (duplicateIfShared host h) := by
  refine .bind (.reads .mayMutate .mayMutate) fun free => ?_
  split
  · exact .pure
  · exact duplicate_unbroken hhost

end

end HostM

end ManagedHeap
