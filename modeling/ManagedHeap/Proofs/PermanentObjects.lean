import ManagedHeap.Proofs.SessionCacheSteps

/-!
# Permanent objects

Every valid configuration with room for two cells in a segment makes a heap, and its two
permanent objects stay where they are and as they are in whatever is done with it.
-/

namespace ManagedHeap

namespace Heap

variable {heap heap' : Heap} {r : CacheRules} {pins : List Handle} {kind : Kind} {h : Handle}

theorem Blank.not_permanent (hb : heap.Blank kind h) (hg : heap.Grounded) :
    h ≠ .nil ∧ h ≠ .unbound := by
  obtain ⟨length, payload, -, hc⟩ := hb
  have hfixed : h ∉ [Handle.nil, .unbound] := by
    intro hmem
    obtain ⟨d, hd, hfixed⟩ := hg h hmem
    rw [hc, Option.some.injEq] at hd
    subst hd
    exact nomatch hfixed.permanent
  simpa using hfixed

end Heap

namespace Session

open HostM

/-- The permanent objects are in their places in every heap that a session reaches. -/
theorem Reachable.grounded {state : State} {heap : Heap} (hr : Reachable state heap) :
    heap.Grounded := by
  obtain ⟨config, hash, start, hvalid, hbuild, hmoves⟩ := hr.moves
  exact hmoves.grounded (Heap.build_cacheExact hvalid hbuild) (Heap.build_grounded hvalid hbuild)

/-- Steps of a session come down to moves, whatever they are. -/
theorem Reachable.moves_runSteps {state state' : State} {heap heap' : Heap} {levels : Nat}
    {steps : List Step} {replies : List Reply} (hr : Reachable state heap)
    (hrun : ((Session.runSteps (hostWithin levels) steps).run state).run heap =
      .ok ((replies, state'), heap')) : heap.CacheSteps .free [] heap' :=
  (runSteps_byCacheSteps (hostWithin_byCacheSteps levels) (.refl .free) (fun _ => rfl)
    (obey_of_all Command.permitted_free Command.permitted_free steps) state heap replies state' heap'
    (fun _ _ => obey_of_all Command.permitted_free Command.permitted_free _)
    hr.cacheExact.guards hr.sound hrun).2.1

/-- An allocation answers no permanent object. -/
theorem Reachable.allocates {state state' : State} {heap heap' : Heap} {levels : Nat} {kind : Kind}
    {length : Nat} {roots : List Handle} {h : Handle} (hr : Reachable state heap)
    (hrun : ((allocate (hostWithin levels) kind length roots).run.run state).run heap =
      .ok ((.ok h, state'), heap')) : h ≠ .nil ∧ h ≠ .unbound := by
  have hobeys : State.Obeys (Command.Permitted .free .free) state := fun _ _ =>
    obey_of_all Command.permitted_free Command.permitted_free _
  obtain ⟨-, hmoves, -, hblank⟩ := goes_allocate (hostWithin_byCacheSteps levels)
    (fun _ => rfl) state heap (.ok h) state' heap' hobeys hr.cacheExact.guards hr.sound hrun
  exact hblank.not_permanent (hmoves.grounded hr.cacheExact hr.grounded)

/-- Nor does an allocation that only takes what is free. -/
theorem Reachable.allocatesFast {state : State} {heap heap' : Heap} {kind : Kind} {length : Nat}
    {h : Handle} (hr : Reachable state heap)
    (hrun : (HeapM.allocateFast kind length).run heap = .ok (h, heap')) :
    h ≠ .nil ∧ h ≠ .unbound := by
  obtain ⟨hmoves, -, rfl | hblank⟩ := HeapM.CacheTriple.allocateFast (r := .free) heap h heap'
    hr.cacheExact.guards hr.sound hrun
  · exact ⟨by decide, by decide⟩
  · exact hblank.not_permanent (hmoves.grounded hr.cacheExact hr.grounded)

/-- A valid configuration makes no heap if its string cache is too large for an array, or if its
segments have one cell: the second permanent object is misplaced then. Every other one makes a
heap within its limit, with the two permanent objects in their places; they stay there, permanent,
old and shared, whatever moves follow. What a session does comes down to such moves, and no
allocation answers a permanent object. -/
theorem permanents_stay {config : Config} (hv : config.validate = .ok ()) :
    (Heap.bucketLimit ≤ config.cacheInitial →
      Heap.withConfig config = .error .capacityOverflow) ∧
    (config.cacheInitial < Heap.bucketLimit → config.segmentCells = 1 →
      Heap.withConfig config = .error .permanentMisplaced) ∧
    (config.cacheInitial < Heap.bucketLimit → config.segmentCells ≠ 1 → ∃ heap, Heap.withConfig config = .ok (.ok heap) ∧
      heap.arena.capacity = config.segmentCells ∧
      (∀ limit, config.maxCells = some limit → heap.arena.capacity ≤ limit) ∧
      (∀ later, heap.CacheSteps .free [] later → later.Grounded) ∧
      ∀ levels steps replies state later,
        ((runSteps (hostWithin levels) steps).run {}).run heap = .ok ((replies, state), later) →
        heap.CacheSteps .free [] later ∧
        (∀ levels kind length roots h state' heap',
          ((allocate (hostWithin levels) kind length roots).run.run state).run later =
            .ok ((.ok h, state'), heap') → h ≠ .nil ∧ h ≠ .unbound) ∧
        ∀ kind length h heap', (HeapM.allocateFast kind length).run later = .ok (h, heap') →
          h ≠ .nil ∧ h ≠ .unbound) := by
  have hvalid := Config.valid_of_ok hv
  refine ⟨fun hbuckets => ?_, fun hbuckets hone => ?_, fun hbuckets hroom => ?_⟩
  · rw [Heap.withConfig, hv]
    dsimp only
    rw [Heap.build_overflows hbuckets]
    rfl
  · rw [Heap.withConfig, hv]
    dsimp only
    rw [Heap.build_misplaced hbuckets hone]
    rfl
  · obtain ⟨heap, hbuild⟩ : ∃ heap, Heap.build config Heap.mixHash = .ok heap :=
      Heap.build_ends hbuckets hvalid.cells hroom
    have hcapacity : heap.arena.capacity = config.segmentCells := by
      obtain ⟨arena, hcells, rfl⟩ := Heap.build_eq_ok hbuild
      exact hcells
    have hnew : Reachable {} heap := .new hv hbuild
    refine ⟨heap, ?_, hcapacity, fun limit hlimit => hcapacity ▸ hvalid.room hlimit,
      fun later hmoves => hmoves.grounded hnew.cacheExact hnew.grounded,
      fun levels steps replies state later hrun => ⟨hnew.moves_runSteps hrun, ?_, ?_⟩⟩
    · rw [Heap.withConfig, hv]
      dsimp only
      rw [hbuild]
      rfl
    · exact fun _ _ _ _ _ _ _ hallocate => (hnew.runSteps hrun).allocates hallocate
    · exact fun _ _ _ _ hallocate => (hnew.runSteps hrun).allocatesFast hallocate

/-- The smallest segment with room for both permanent objects, which fills all memory. -/
def smallest : Config := { segmentCells := 2, maxCells := some 2 }

/-- They stay when memory is short and a full collection finds nothing else. -/
def smallestSteps : List Step :=
  [.command (.request (.cons (.handle .nil) (.handle .unbound))) none,
    .command (.collect .full) none]

theorem permanents_stay_smallest : smallest.validate = .ok () ∧ ∃ heap replies state later,
    Heap.withConfig smallest = .ok (.ok heap) ∧
    ((runSteps Session.host smallestSteps).run {}).run heap = .ok ((replies, state), later) ∧
    replies.length = 2 ∧ later.Grounded := by
  obtain ⟨heap, hmade, -, -, hgrounded, hruns⟩ :=
    (permanents_stay (show smallest.validate = .ok () from rfl)).2.2 (by decide) (by decide)
  obtain ⟨⟨_, ⟨replies, state⟩, later⟩, hrun, htest⟩ := except_of_test
    (x := do
      let start ← Heap.build smallest Heap.mixHash
      return (start, ← ((runSteps Session.host smallestSteps).run {}).run start))
    (p := fun p : Heap × (List Reply × State) × Heap => decide (p.2.1.1.length = 2))
    (by decide +kernel)
  simp only [except_bind, pure, Except.pure, Except.ok.injEq, Prod.mk.injEq] at hrun
  obtain ⟨start, hbuild, _, hsteps, rfl, rfl⟩ := hrun
  obtain rfl : start = heap := by
    rw [Heap.withConfig, show smallest.validate = .ok () from rfl] at hmade
    dsimp only at hmade
    rw [hbuild] at hmade
    exact Except.ok.inj (Except.ok.inj hmade)
  exact ⟨rfl, start, replies, state, later, hmade, hsteps, of_decide_eq_true htest,
    hgrounded later (hruns _ _ _ _ _ hsteps).1⟩

end Session

end ManagedHeap
