import ManagedHeap.Proofs.SessionCacheSteps

/-!
# What is pending when memory is short

A command that fails for want of memory has collected fully, with all finalizers run that were
pending before. Records that this last collection finds ready are still pending when the
command fails.
-/

namespace ManagedHeap

namespace Session

open HostM

/-- Between the steps of a session no finalizer is running. -/
theorem Reachable.rests {state : State} {heap : Heap} (hr : Reachable state heap) :
    heap.finalizers.running = false := by
  obtain ⟨config, hash, start, hbuild, t, ht⟩ := hr.evolves
  exact ht.rests (congrArg Tally.running (Heap.build_chain hbuild).2)

theorem runStep_replied {c : Command} {store : Option String} {reply : Reply} {levels : Nat}
    {state state' : State} {heap heap' : Heap} (hr : Reachable state heap)
    (hrun : ((runStep (hostWithin levels) (.command c store)).run state).run heap =
      .ok ((reply, state'), heap')) : Replied reply heap' := by
  obtain ⟨between, hperform⟩ := runStep_command hrun
  exact (perform_goes (hostWithin_byCacheSteps levels) (.refl .free) (fun _ => rfl)
    c.permitted_free state heap reply between heap'
    (fun _ _ => obey_of_all Command.permitted_free Command.permitted_free _)
    hr.cacheExact.guards hr.sound hperform).2.2

/-- When memory is short, the last collection was a full one for want of memory, and it came
after all finalizers that were pending. The records that are ready are as many as this
collection found newly ready, and if it found none, none is ready. -/
theorem shortage_leaves_newly_ready {c : Command} {store : Option String} {levels : Nat}
    {state state' : State} {heap heap' : Heap} {kind : Kind} {length : Nat}
    (hr : Reachable state heap)
    (hrun : ((runStep (hostWithin levels) (.command c store)).run state).run heap =
      .ok ((.error (.outOfMemory kind length), state'), heap')) :
    heap'.finalizers.running = false ∧ ∃ o records, heap'.counters.last = some o ∧
      o.level = .full ∧ o.reason = .exhausted ∧
      heap'.arena.weakRecords heap'.weak = .ok records ∧
      records.countP heap'.arena.readyAt = o.newlyReady ∧
      HeapM.pendingFinalizerCount.run heap' = .ok (o.newlyReady, heap') ∧
      (o.newlyReady = 0 → ∀ r ∈ records, heap'.arena.readyAt r = false) := by
  have hrests := (Reachable.step hr hrun).rests
  obtain ⟨newly, o, records, hlast, hlevel, hreason, rfl, hrecords, hpending⟩ :=
    (runStep_replied hr hrun).2 _ rfl kind length rfl hrests
  refine ⟨hrests, o, records, hlast, hlevel, hreason, hrecords, hpending, ?_, fun hnone r hmem => ?_⟩
  · rw [HeapM.ends_pendingFinalizerCount hrecords, hpending]
  · have hcount := List.countP_eq_zero.mp (hpending.trans hnone) r hmem
    simpa using hcount

/-- A pair that only the attribute of another pair's record refers to. -/
def keyInAttribute : List Step :=
  [.command (.request (.nativeFunction 0)) (some "f"),
    .command (.preserve (.register "f")) none,
    .command (.request (.cons (.handle .nil) (.handle .nil))) (some "b"),
    .command (.request (.weakRef (.register "b") (.handle .nil) (.register "f") false)) none,
    .command (.request (.cons (.handle .nil) (.handle .nil))) (some "a"),
    .command (.request (.weakRef (.register "a") (.handle .nil) (.register "f") false)) (some "w"),
    .command (.set .attrib (.register "w") (.register "b")) none]

/-- A command that no memory is left for. -/
def greedy : Command := .request (.allocate .realVector 1 [])

/-- The other record is finalized when memory is short, and its end makes the pair's record
ready: one is pending when the allocation fails. -/
theorem shortage_leaves_keyInAttribute : ∃ start replies state mid state' heap o,
    Heap.build { segmentCells := 8, maxCells := some 8 } Heap.mixHash = .ok start ∧
    ((runSteps Session.host keyInAttribute).run {}).run start = .ok ((replies, state), mid) ∧
    ((runStep Session.host (.command greedy none)).run state).run mid =
      .ok ((.error (.outOfMemory .realVector 1), state'), heap) ∧
    heap.counters.last = some o ∧ o.newlyReady = 1 ∧
    HeapM.pendingFinalizerCount.run heap = .ok (1, heap) := by
  obtain ⟨⟨start, ⟨replies, state⟩, mid, ⟨reply, state'⟩, heap⟩, hall, htest⟩ := except_of_test
    (x := do
      let start ← Heap.build { segmentCells := 8, maxCells := some 8 } Heap.mixHash
      let first ← ((runSteps Session.host keyInAttribute).run {}).run start
      let last ← ((runStep Session.host (.command greedy none)).run first.1.2).run first.2
      return (start, first.1, first.2, last))
    (p := fun p : Heap × (List Reply × State) × Heap × (Reply × State) × Heap =>
      p.2.2.2.1.1.isShortOf .realVector 1 &&
        p.2.2.2.2.counters.last.any (·.newlyReady == 1)) (by decide +kernel)
  simp only [except_bind, pure, Except.pure, Except.ok.injEq, Prod.mk.injEq] at hall
  obtain ⟨start, hbuild, ⟨⟨replies, state⟩, mid⟩, hsteps, _, hlast, rfl, hfirst, rfl, rfl⟩ := hall
  obtain ⟨rfl, rfl⟩ := Prod.mk.inj hfirst
  rw [Bool.and_eq_true, Option.any_eq_true] at htest
  obtain ⟨hshort, o, ho, hnewly⟩ := htest
  obtain rfl : reply = .error (.outOfMemory .realVector 1) := Reply.eq_of_isShortOf hshort
  replace ho : heap.counters.last = some o := ho
  replace hnewly : o.newlyReady = 1 := eq_of_beq hnewly
  obtain ⟨-, o', records, ho', -, -, -, -, hcount, -⟩ :=
    shortage_leaves_newly_ready (.runSteps (.new rfl hbuild) hsteps) hlast
  obtain rfl := Option.some.inj (ho.symm.trans ho')
  exact ⟨start, replies, state, mid, state', heap, o, hbuild, hsteps, hlast, ho, hnewly,
    hnewly ▸ hcount⟩

end Session

end ManagedHeap
