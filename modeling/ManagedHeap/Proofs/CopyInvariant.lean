import ManagedHeap.Proofs.ConstructorInvariant

/-!
# Copies keep the invariant

A copy is made with the setters, apart from data and vectors of strings: these are written
into an object that is still young.
-/

namespace ManagedHeap

theorem Payload.children_of_data {p : Payload} {kind : Kind} (hp : p.suits kind = true)
    (hkind : kind ∈ [.charString, .logicalVector, .integerVector, .realVector, .rawVector]) :
    p.children true = [] := by
  cases p <;> cases kind <;> simp_all [suits, children]

theorem Payload.fits_of_data {p : Payload} {kind data : Kind} (hp : p.suits data = true)
    (hdata : data ∈ [.charString, .logicalVector, .integerVector, .realVector, .rawVector])
    (hsuits : p.suits kind = true) : p.Fits kind [] := by
  refine ⟨hsuits, ?_, ?_⟩
  · rintro name value internal lastEnv rfl
    cases data <;> simp_all [Payload.suits]
  · rw [Payload.children_of_data hp hdata]
    exact fun _ hk => absurd hk List.not_mem_nil

namespace HeapM

variable {h : Handle}

theorem kind_spec : Triple Heap.Sound (kind h)
    fun k heap => heap.Sound ∧ ∃ c, heap.arena.get? h = some c ∧ c.kind = k := by
  intro heap k heap' hs hrun
  obtain ⟨c, hc, rfl, rfl⟩ := run_kind.mp hrun
  exact ⟨hs, c, hc, rfl⟩

theorem kind_suits {p : Payload} :
    Triple (fun heap => heap.Sound ∧ ∃ c, heap.arena.get? h = some c ∧ c.payload = p) (kind h)
      fun k heap => heap.Sound ∧ p.suits k = true := by
  rintro heap k heap' ⟨hs, c, hc, rfl⟩ hrun
  obtain ⟨d, hd, rfl, rfl⟩ := run_kind.mp hrun
  rw [hc, Option.some.injEq] at hd
  exact ⟨hs, hd ▸ (hs.proper hc).suits⟩

theorem payload_suits {k : Kind} :
    Triple (fun heap => heap.Sound ∧ ∃ c, heap.arena.get? h = some c ∧ c.kind = k) (payload h)
      fun p heap => (heap.Sound ∧ ∃ c, heap.arena.get? h = some c ∧ c.payload = p) ∧
        p.suits k = true := by
  rintro heap p heap' ⟨hs, c, hc, rfl⟩ hrun
  obtain ⟨d, hd, rfl, rfl⟩ := run_payload.mp hrun
  rw [hc, Option.some.injEq] at hd
  subst hd
  exact ⟨⟨hs, c, hc, rfl⟩, (hs.proper hc).suits⟩

end HeapM

namespace HostM

variable {ω : Type} {host : Host ω} {copyOne : Handle → Attempt ω Handle}

theorem copyPairs_safe (hhost : host.Safe) (hcopy : ∀ h, Attempt.Safe (copyOne h)) {index : Nat}
    (fuel : Nat) (head tail cursor : Handle) :
    Attempt.Safe (copyPairs host copyOne index head tail cursor fuel) := by
  induction fuel generalizing head tail cursor with
  | zero => exact .throwFault
  | succ fuel ih =>
    refine .bind (.reads .kind) fun k => ?_
    split
    · exact .pure
    · refine .bind (.reads .car) fun car => .bind (hcopy car) fun element =>
        .bind (.reads .kind) fun cellKind => .bind (.reads .tag) fun cellTag => ?_
      refine Attempt.Triple.bind (allocate_fresh hhost) fun cell =>
        .conseq (P := Heap.Sound) ?_ (fun _ hs => hs.1) (fun _ _ => id) fun _ => id
      refine Attempt.Safe.bind (.lift .setCar) fun _ => .bind (.lift .setTag) fun _ => ?_
      have hend : ∀ head, Attempt.Safe (ω := ω) (do
          let next ← HeapM.cdr cursor
          copyPairs host copyOne index head cell next fuel) :=
        fun head => .bind (.reads .cdr) fun next => ih head cell next
      split
      · exact .bind (.lift .reprotect) fun _ => hend cell
      · exact .bind (.lift .setCdr) fun _ => hend head

theorem copyPairlist_safe (hhost : host.Safe) (hcopy : ∀ h, Attempt.Safe (copyOne h))
    {h : Handle} : Attempt.Safe (copyPairlist host copyOne h) := by
  refine .protecting (.bind (.attempt .pushRoot) fun index => .bind (.liftHost .stepBound)
    fun bound => .bind (copyPairs_safe hhost hcopy bound .nil .nil h) fun result => ?_)
  obtain ⟨head, tail, rest⟩ := result
  dsimp only
  split
  · exact .bind (hcopy rest) fun last => .bind (.lift .setCdr) fun _ => .pure
  · exact .pure

theorem copyElements_safe (hcopy : ∀ h, Attempt.Safe (copyOne h)) {h copy : Handle}
    (places : List Nat) : Attempt.Safe (copyElements copyOne h copy places) := by
  induction places with
  | nil => exact .pure
  | cons i rest ih =>
    exact .bind (.attempt (.of_reads .vectorElt)) fun old => .bind (hcopy old) fun element =>
      .bind (.attempt .setVectorElt) fun _ => ih

theorem copyVector_safe (hhost : host.Safe) (hcopy : ∀ h, Attempt.Safe (copyOne h))
    {h : Handle} : Attempt.Safe (copyVector host copyOne h) := by
  refine .bind (.reads .kind) fun kind => .bind (.reads .length) fun length => .protecting ?_
  refine Attempt.Triple.bind (allocate_fresh hhost) fun copy =>
    .conseq (P := Heap.Sound) ?_ (fun _ hs => hs.1) (fun _ _ => id) fun _ => id
  exact Attempt.Safe.bind (.attempt .pushRoot) fun _ =>
    .bind (copyElements_safe hcopy (List.range length)) fun _ => .pure

theorem copyStrings_safe (hhost : host.Safe) {h : Handle} :
    Attempt.Safe (copyStrings host h) := by
  refine Attempt.Triple.bind (.lift HeapM.payload_spec) fun p => ?_
  cases p
  case handles elements =>
    refine .bind (.lift HeapM.kind_suits) fun kind => .of_and fun hsuits => ?_
    refine .bind (allocate_fresh hhost) fun copy =>
      .bind (.lift (HeapM.countReferences_fresh elements.toList)) fun _ => ?_
    refine .bind (.lift (HeapM.setPayload_counted ⟨hsuits, nofun, ?_⟩)) fun _ => .pure fun _ => id
    exact fun k hk => .inl hk
  all_goals
    exact .conseq (P := Heap.Sound) (Attempt.Safe.reads .wrongKind) (fun _ hs => hs.1)
      (fun _ _ => id) fun _ => id

theorem copyData_spec (hhost : host.Safe) {h : Handle} {data : Kind}
    (hdata : data ∈ [.charString, .logicalVector, .integerVector, .realVector, .rawVector]) :
    Attempt.Triple (fun heap => heap.Sound ∧ ∃ c, heap.arena.get? h = some c ∧ c.kind = data)
      (copyData host h) (fun _ => Heap.Sound) Heap.Sound := by
  refine .bind (.lift HeapM.payload_suits) fun p => .of_and fun hp => ?_
  refine .bind (.lift HeapM.kind_suits) fun kind => .of_and fun hsuits => ?_
  have hfits : p.Fits kind [] := Payload.fits_of_data hp hdata hsuits
  exact .bind (allocate_fresh hhost) fun copy => .bind (.lift (HeapM.setPayload_filled)) fun _ =>
    .pure fun heap hfilled => HeapM.countReferences_filled hfits heap ⟨⟩ heap hfilled rfl

theorem copyAttributes_safe (hcopy : ∀ h, Attempt.Safe (copyOne h)) {h copy : Handle} :
    Attempt.Safe (copyAttributes copyOne h copy) := by
  refine .bind (.reads .attrib) fun attached => .bind (.reads .flags) fun flags => ?_
  have hend : Attempt.Safe (ω := ω) (do
      HeapM.updateCell copy (Cell.mapFlags fun fs =>
        { fs with object := fs.object || flags.object, s4Object := fs.s4Object || flags.s4Object })
      return copy) :=
    .bind (.lift (.updateCell fun _ _ _ _ => ⟨.header rfl rfl rfl rfl rfl rfl rfl rfl id, rfl⟩))
      fun _ => .pure
  dsimp only
  split
  · refine .bind (.protecting ?_) fun _ => hend
    exact .bind (.attempt .pushRoot) fun _ => .bind (hcopy attached) fun value =>
      .lift .setAttrib
  · exact hend

theorem copyWithin_safe (hhost : host.Safe) (fuel : Nat) (h : Handle) :
    Attempt.Safe (copyWithin host fuel h) := by
  induction fuel generalizing h with
  | zero => exact .throwFault
  | succ fuel ih =>
    refine Attempt.Safe.bind (.lift .awaitOutput) fun _ =>
      Attempt.Triple.bind (.lift HeapM.kind_spec) fun k => ?_
    have hdata : k ∈ [.charString, .logicalVector, .integerVector, .realVector, .rawVector] →
        Attempt.Triple (fun heap => heap.Sound ∧ ∃ c, heap.arena.get? h = some c ∧ c.kind = k) (do
          copyAttributes (copyWithin host fuel) h (← copyData host h))
          (fun _ => Heap.Sound) Heap.Sound :=
      fun hk => .bind (copyData_spec hhost hk) fun copy => copyAttributes_safe ih
    have hplain : ∀ {act : Attempt ω Handle}, Attempt.Safe act →
        Attempt.Triple (fun heap => heap.Sound ∧ ∃ c, heap.arena.get? h = some c ∧ c.kind = k) act
          (fun _ => Heap.Sound) Heap.Sound :=
      fun hact => .conseq hact (fun _ hs => hs.1) (fun _ _ => id) fun _ => id
    cases k
    case pair | language =>
      exact hplain (.bind (copyPairlist_safe hhost ih) fun copy => copyAttributes_safe ih)
    case list | expression =>
      exact hplain (.bind (copyVector_safe hhost ih) fun copy => copyAttributes_safe ih)
    case stringVector =>
      exact hplain (.bind (copyStrings_safe hhost) fun copy => copyAttributes_safe ih)
    case charString =>
      refine .bind (.lift (.of_reads .flags fun _ _ => id)) fun flags => ?_
      split
      · exact hplain .pure
      · exact hdata (by simp)
    case logicalVector | integerVector | realVector | rawVector => exact hdata (by simp)
    case closure =>
      refine hplain (.bind (.reads .closureParts) fun parts => ?_)
      obtain ⟨formals, body, env⟩ := parts
      refine .bind (construct_safe hhost ⟨rfl, nofun, ?_⟩) fun copy => copyAttributes_safe ih
      simp [Payload.children]
    all_goals exact hplain .pure

theorem duplicate_safe (hhost : host.Safe) {h : Handle} : Attempt.Safe (duplicate host h) :=
  .protecting (.bind (.attempt .pushRoot) fun _ => .bind (.liftHost .stepBound) fun bound =>
    copyWithin_safe hhost bound h)

theorem duplicateIfShared_safe (hhost : host.Safe) {h : Handle} :
    Attempt.Safe (duplicateIfShared host h) := by
  refine .bind (.reads .mayMutate) fun free => ?_
  split
  · exact .pure
  · exact duplicate_safe hhost

end HostM

end ManagedHeap
