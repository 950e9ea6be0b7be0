import ManagedHeap.Proofs.CallEffects
import ManagedHeap.Proofs.PermanentObjects

/-!
# The fast path and the slow path

The fast path of allocation takes an object exactly if a free cell is on offer for it. The slow
path would then collect nothing, take the same cell and leave the same heap. Neither looks at the
length of an object without elements; only the entry to both does.
-/

namespace ManagedHeap

open HeapM

/-- A cell is free for the object, and nothing is due before it may be taken. -/
structure Heap.Offers (heap : Heap) (kind : Kind) (length : Nat) : Prop where
  preservesRecords : heap.config.torture = false
  allowed : kind.isAllocatable = true
  early : heap.strategy.countdownExpired = false
  small : (NodeClass.forRequest kind length).isLarge = false
  free : heap.arena.hasFree (NodeClass.forRequest kind length) = true

variable {heap : Heap} {kind : Kind} {length : Nat} {payload : Payload} {h : Handle}

namespace NodeClass

theorem forRequest_of_plain (hplain : kind.isVector = false) : forRequest kind length = fixed := by
  simp [forRequest, hplain]

theorem chunks_of_small (hsmall : (forRequest kind length).isLarge = false) :
    vectorChunks kind length ≤ 16 := by
  by_cases hvector : kind.isVector = true
  · by_contra hmany
    have hlarge : forRequest kind length = large := by
      simp only [forRequest, hvector, if_true, forChunks]
      repeat rw [if_neg (by omega)]
    simp [isLarge, hlarge] at hsmall
  · simp [vectorChunks_of_not_vector length (by simpa using hvector)]

end NodeClass

theorem Payload.forKind?_of_small
    (hsmall : (NodeClass.forRequest kind length).isLarge = false) :
    ∃ payload, forKind? kind length = some payload := by
  have hchunks := NodeClass.chunks_of_small hsmall
  have hbytes : length * kind.elementSize ≤ reserveLimit := by
    simp only [vectorChunks, chunkBytes, wordMax] at hchunks
    simp only [reserveLimit]
    omega
  simp only [forKind?, if_neg (Nat.not_lt.mpr hbytes)]
  exact ⟨_, rfl⟩

theorem Payload.forKind?_of_plain (hplain : kind.isVector = false) :
    forKind? kind length = forKind? kind 0 := by
  cases kind <;> simp_all [forKind?, Kind.isVector, Kind.elementSize]

namespace HeapM

theorem claims_free {n : NodeClass} {chunks : Nat} (ht : heap.arena.Tidy)
    (hfree : heap.arena.hasFree n = true) : ∃ h heap',
      (claimCell? n kind payload chunks).run heap = .ok (some h, heap') ∧ h ≠ .noObject ∧
        heap'.counters = heap.counters ∧ heap'.journal = heap.journal.record (.claimed h kind) := by
  obtain ⟨g, rest, hlist⟩ : ∃ g rest, heap.arena.freeList n = g :: rest :=
    List.exists_cons_of_ne_nil (by simpa [Arena.hasFree] using hfree)
  obtain ⟨h, arena, hclaim⟩ : ∃ h arena,
      heap.arena.claim? n { kind } payload = some (h, arena) := by
    simp only [Arena.claim?, hlist]
    exact ⟨_, _, rfl⟩
  obtain ⟨c, hcell, -⟩ := ht.claim_free hclaim
  refine ⟨h, { heap with
    arena
    generations := heap.generations.modify .young fun u =>
      { objects := u.objects + 1, bigChunks := u.bigChunks + chunks }
    strategy := heap.strategy.noteAllocation
    journal := heap.journal.record (.claimed h kind) }, ?_, ht.not_noObject hcell, rfl, rfl⟩
  simp only [claimCell?, run_bind, run_onArena, hclaim]
  exact ⟨some h, { heap with arena }, ⟨arena, rfl, rfl⟩, rfl⟩

end HeapM

namespace Heap.Offers

variable (ho : heap.Offers kind length)

include ho

theorem chunks : (if (NodeClass.forRequest kind length).isLarge then vectorChunks kind length
    else 0) = 0 := by
  simp [ho.small]

theorem collects_nothing : (collectionDue kind length).run heap = .ok (none, heap) := by
  have htrigger : heap.strategy.trigger 0 heap.bigChunksLive = none := by
    simp [Strategy.trigger, ho.early]
  simp only [collectionDue, run_bind, run_get]
  refine ⟨heap, heap, ⟨rfl, rfl⟩, ?_⟩
  simp only [ho.preservesRecords, Bool.false_eq_true, if_false, ho.chunks, htrigger]
  rfl

theorem allocatesFast {heap' : Heap} (hp : Payload.forKind? kind length = some payload)
    (hclaim : (claimCell? (NodeClass.forRequest kind length) kind payload 0).run heap =
      .ok (some h, heap')) : (allocateFast kind length).run heap = .ok (h, heap') := by
  have hready : (heap.config.torture || !kind.isAllocatable || heap.strategy.countdownExpired ||
      (NodeClass.forRequest kind length).isLarge ||
      !heap.arena.hasFree (NodeClass.forRequest kind length)) = false := by
    simp [ho.preservesRecords, ho.allowed, ho.early, ho.small, ho.free]
  simp only [allocateFast, run_bind, run_get]
  refine ⟨heap, heap, ⟨rfl, rfl⟩, ?_⟩
  simp only [hready, Bool.false_eq_true, if_false, hp, run_bind]
  exact ⟨some h, heap', hclaim, rfl⟩

theorem takes {heap' : Heap} {reserved : Bool} (hp : Payload.forKind? kind length = some payload)
    (hclaim : (claimCell? (NodeClass.forRequest kind length) kind payload 0).run heap =
      .ok (some h, heap')) :
    (takeOrGrow kind length reserved).run heap = .ok (.ok h, heap') := by
  simp only [takeOrGrow, run_bind, run_get]
  refine ⟨heap, heap, ⟨rfl, rfl⟩, ?_⟩
  simp only [ho.chunks, hp]
  change StateT.run (ite _ _ _) _ = _
  refine run_ite.mpr (.inr ⟨?_, ?_⟩)
  · cases heap.config.maxVectorChunks <;> simp
  · refine run_ite.mpr (.inl ⟨ho.free, run_bind.mpr ⟨true, heap, rfl, ?_⟩⟩)
    exact run_bind.mpr ⟨some h, heap', hclaim, rfl⟩

theorem allocatesSlow {ω : Type} {host : Host ω} {state : ω} {heap' : Heap}
    (hp : Payload.forKind? kind length = some payload)
    (hclaim : (claimCell? (NodeClass.forRequest kind length) kind payload 0).run heap =
      .ok (some h, heap')) :
    ((HostM.allocateSlow host kind length).run state).run heap = .ok ((.ok h, state), heap') := by
  unfold HostM.allocateSlow
  refine HostM.run_bindM.mpr ⟨none, state, heap,
    HostM.run_liftM.mpr ⟨rfl, ho.collects_nothing⟩, ?_⟩
  exact HostM.run_bindM.mpr ⟨.ok h, state, heap', HostM.run_liftM.mpr ⟨rfl, ho.takes hp hclaim⟩, rfl⟩

end Heap.Offers

theorem HeapM.ends_allocateFast (ht : heap.arena.Tidy) :
    (¬ heap.Offers kind length ∧ (allocateFast kind length).run heap = .ok (.noObject, heap)) ∨
      (heap.Offers kind length ∧ ∃ payload h heap', Payload.forKind? kind length = some payload ∧
        (claimCell? (NodeClass.forRequest kind length) kind payload 0).run heap =
          .ok (some h, heap') ∧ (allocateFast kind length).run heap = .ok (h, heap') ∧
        h ≠ .noObject ∧ heap'.counters = heap.counters ∧
        heap'.journal = heap.journal.record (.claimed h kind)) := by
  by_cases ho : heap.Offers kind length
  · obtain ⟨payload, hp⟩ := Payload.forKind?_of_small ho.small
    obtain ⟨h, heap', hclaim, hobject, hcounters, hjournal⟩ := claims_free ht ho.free
    exact .inr ⟨ho, payload, h, heap', hp, hclaim, ho.allocatesFast hp hclaim, hobject, hcounters,
      hjournal⟩
  · refine .inl ⟨ho, ?_⟩
    simp only [allocateFast, run_bind, run_get]
    refine ⟨heap, heap, ⟨rfl, rfl⟩, run_ite.mpr (.inl ⟨?_, rfl⟩)⟩
    by_contra hready
    simp only [Bool.or_eq_true, not_or, Bool.not_eq_true', Bool.not_eq_false,
      Bool.not_eq_true] at hready
    exact ho ⟨hready.1.1.1.1, hready.1.1.1.2, hready.1.1.2, hready.1.2, hready.2⟩

theorem HeapM.allocateFast_of_plain (hplain : kind.isVector = false) :
    allocateFast kind length = allocateFast kind 0 := by
  unfold allocateFast
  rw [NodeClass.forRequest_of_plain hplain, NodeClass.forRequest_of_plain hplain,
    Payload.forKind?_of_plain hplain]

namespace HostM

variable {ω : Type} {host : Host ω} {roots : List Handle} {state : ω} {heap' : Heap}

theorem allocates_fast (hkind : kind.isAllocatable = true)
    (hlength : kind.isVector = true ∨ length = 0)
    (hfast : (allocateFast kind length).run heap = .ok (h, heap')) (hobject : h ≠ .noObject) :
    ((allocate host kind length roots).run.run state).run heap = .ok ((.ok h, state), heap') := by
  have hadmitted : (!kind.isVector && length != 0) = false := by
    rcases hlength with hvector | hzero
    · simp [hvector]
    · simp [hzero]
  have hanswer : (!h.isNoObject) = true := by simpa [Handle.isNoObject] using hobject
  have hfirst : ((liftM (allocateFast kind length) : Attempt ω Handle).run.run state).run heap =
      .ok ((.ok h, state), heap') := Attempt.run_lift.mpr ⟨h, rfl, rfl, hfast⟩
  simp only [allocate, hkind, hadmitted, Bool.not_true, Bool.false_eq_true, if_false]
  rw [ExceptT.run_bind]
  refine run_bindM.mpr ⟨.ok h, state, heap', hfirst, ?_⟩
  simp only [hanswer, if_true]
  rfl

theorem refuses_length (hkind : kind.isAllocatable = true) (hplain : kind.isVector = false)
    (hlength : length ≠ 0) : ((allocate host kind length roots).run.run state).run heap =
      .ok ((.error (.invalidLength kind length), state), heap) := by
  have hrefused : (!kind.isVector && length != 0) = true := by simp [hplain, hlength]
  simp only [allocate, hkind, hrefused, Bool.not_true, Bool.false_eq_true, if_false, if_true]
  rfl

end HostM

namespace Session

open HostM

/-- The fast path declines and leaves the heap as it is, or it takes an object that is on offer;
then the slow path collects nothing, takes the same object and leaves the same heap, and a request
that may be made is answered with it. Kinds that cannot be allocated are declined. A length is
nothing to either path for objects without elements. -/
theorem fast_path_agrees {state : State} {heap : Heap} (hr : Reachable state heap) (kind : Kind)
    (length : Nat) : ∃ h heap', (HeapM.allocateFast kind length).run heap = .ok (h, heap') ∧
      (h ≠ .noObject ↔ heap.Offers kind length) ∧
      (h = .noObject → heap' = heap) ∧
      (kind.isAllocatable = false → h = .noObject) ∧
      (kind.isVector = false → (HeapM.allocateFast kind 0).run heap = .ok (h, heap')) ∧
      (h ≠ .noObject → heap'.counters = heap.counters ∧
        heap'.journal = heap.journal.record (.claimed h kind) ∧
        ∀ {ω : Type} (host : Host ω) (s : ω),
          ((allocateSlow host kind length).run s).run heap = .ok ((.ok h, s), heap') ∧
          ∀ roots, (kind.isVector = true ∨ length = 0 →
            ((allocate host kind length roots).run.run s).run heap = .ok ((.ok h, s), heap')) ∧
            (kind.isVector = false → length ≠ 0 →
              ((allocate host kind length roots).run.run s).run heap =
                .ok ((.error (.invalidLength kind length), s), heap))) := by
  have htidy := hr.sound.tidy
  have hkept : kind.isVector = false → ∀ {r}, (HeapM.allocateFast kind length).run heap = r →
      (HeapM.allocateFast kind 0).run heap = r :=
    fun hplain _ hrun => HeapM.allocateFast_of_plain hplain ▸ hrun
  rcases HeapM.ends_allocateFast htidy with
    ⟨hno, hrun⟩ | ⟨ho, payload, h, heap', hp, hclaim, hrun, hobject, hcounters, hjournal⟩
  · exact ⟨.noObject, heap, hrun, by simpa using hno, fun _ => rfl, fun _ => rfl,
      fun hplain => hkept hplain hrun, fun hobject => absurd rfl hobject⟩
  · refine ⟨h, heap', hrun, iff_of_true hobject ho, fun hnone => absurd hnone hobject,
      fun hkind => ?_, fun hplain => hkept hplain hrun, fun _ => ⟨hcounters, hjournal,
        fun host s => ⟨ho.allocatesSlow hp hclaim, fun roots =>
          ⟨fun hlength => allocates_fast ho.allowed hlength hrun hobject, ?_⟩⟩⟩⟩
    · rw [ho.allowed] at hkind
      exact nomatch hkind
    · intro hplain hlength
      exact refuses_length ho.allowed hplain hlength

/-- A pair with a length is taken by both paths, and refused to a request. -/
theorem fast_path_agrees_pairOfThree : ∃ start h heap,
    Heap.build { segmentCells := 4 } Heap.mixHash = .ok start ∧
    (HeapM.allocateFast .pair 3).run start = .ok (h, heap) ∧ h ≠ .noObject ∧
    ((allocateSlow Session.host .pair 3).run {}).run start = .ok ((.ok h, {}), heap) ∧
    ((allocate Session.host .pair 3 []).run.run {}).run start =
      .ok ((.error (.invalidLength .pair 3), {}), start) := by
  obtain ⟨⟨_, h, heap⟩, hall, htest⟩ := except_of_test
    (x := do
      let start ← Heap.build { segmentCells := 4 } Heap.mixHash
      return (start, ← (HeapM.allocateFast .pair 3).run start))
    (p := fun p : Heap × Handle × Heap => p.2.1 != .noObject) (by decide +kernel)
  simp only [except_bind, pure, Except.pure, Except.ok.injEq, Prod.mk.injEq] at hall
  obtain ⟨start, hbuild, _, hfast, rfl, rfl, rfl⟩ := hall
  have hobject : h ≠ .noObject := bne_iff_ne.mp htest
  obtain ⟨_, _, hrun, -, -, -, -, hagrees⟩ := fast_path_agrees (.new rfl hbuild) .pair 3
  rw [hfast, Except.ok.injEq, Prod.mk.injEq] at hrun
  obtain ⟨rfl, rfl⟩ := hrun
  obtain ⟨-, -, hpaths⟩ := hagrees hobject
  obtain ⟨hslow, hrequest⟩ := hpaths Session.host {}
  exact ⟨start, h, heap, hbuild, hfast, hobject, hslow, (hrequest []).2 rfl (by decide)⟩

end Session

end ManagedHeap
