import ManagedHeap.Proofs.NeededObjects

/-!
# Tasks and collections

What tasks hold when the marking starts is marked like a root, so it survives with all that it
refers to, and the queries about it go on to answer what the scheduler says. A full collection
waits for the tasks that hold large objects. What tasks have let go of gets no favour: it is
reclaimed if nothing else needs it.
-/

namespace ManagedHeap

namespace PendingObjects

variable {p : PendingObjects} {h k : Handle}

theorem use_modify {f : TaskUse → TaskUse} (hidle : f {} = {}) :
    (p.modify h f).use k = if k = h then f (p.use k) else p.use k := by
  simp only [use, get?_modify]
  split
  · cases p.get? k with
    | none => exact hidle.symm
    | some u => rfl
  · rfl

theorem use_settled (p : PendingObjects) (h k : Handle) :
    ((p.settleOutputs h).settleInputs h).use k = if k = h then {} else p.use k := by
  rw [settleInputs, use_modify rfl, settleOutputs, use_modify rfl]
  split <;> rfl

theorem mem_held (hbusy : (p.use h).isIdle = false) : h ∈ p.held := by
  cases hfind : p.entries.find? (·.1 == h) with
  | none =>
    rw [use, get?, hfind] at hbusy
    cases hbusy
  | some e =>
    rw [use, get?, hfind] at hbusy
    have hname : e.1 = h := by simpa using List.find?_some hfind
    rw [held, ← hname]
    refine List.mem_map_of_mem (List.mem_filter.mpr ⟨List.mem_of_find?_eq_some hfind, ?_⟩)
    simpa using hbusy

end PendingObjects

namespace Tasks

variable {t : Tasks} {h k : Handle}

theorem mem_held (hheld : t.isHeld h = true) : h ∈ t.held := by
  obtain ⟨scheduler, registry⟩ := t
  have hbusy : scheduler ≠ .none ∧ (registry.use h).isIdle = false := by
    cases scheduler <;>
      simp_all [isHeld, isPending, isInUse, PendingObjects.isPending, PendingObjects.isInUse,
        TaskUse.isIdle] <;> omega
  cases scheduler with
  | none => exact absurd rfl hbusy.1
  | registry => exact PendingObjects.mem_held hbusy.2
  | minimal => exact PendingObjects.mem_held hbusy.2

theorem isHeld_await (t : Tasks) (h k : Handle) :
    ((t.awaitOutput h).awaitInput h).isHeld k = (decide (k ≠ h) && t.isHeld k) := by
  obtain ⟨scheduler, registry⟩ := t
  cases scheduler with
  | none => simp [isHeld, isPending, isInUse, awaitOutput, awaitInput]
  | _ =>
    simp only [isHeld, isPending, isInUse, awaitOutput, awaitInput, PendingObjects.isPending,
      PendingObjects.isInUse, PendingObjects.use_settled]
    by_cases hk : k = h <;> simp [hk]

theorem isHeld_awaitAll (t : Tasks) (hs : List Handle) (k : Handle) :
    (t.awaitAll hs).isHeld k = (decide (k ∉ hs) && t.isHeld k) := by
  induction hs generalizing t with
  | nil => simp [awaitAll]
  | cons h hs ih =>
    have hone : t.awaitAll (h :: hs) = ((t.awaitOutput h).awaitInput h).awaitAll hs := rfl
    rw [hone, ih, isHeld_await]
    by_cases hk : k = h <;> by_cases hmem : k ∈ hs <;> simp [hk, hmem]

end Tasks

namespace Heap

variable {heap : Heap} {tasks : Tasks} {h : Handle}

theorem quietTasks_large (hlarge : heap.arena.holdsLarge h = true) :
    (heap.quietTasks .full).isHeld h = false := by
  rw [quietTasks, if_pos rfl, Tasks.isHeld_awaitAll]
  cases hheld : heap.tasks.releaseCached.isHeld h with
  | false => exact Bool.and_false _
  | true => simp [Tasks.mem_held hheld, hlarge]

theorem ReachedFrom.of_held {k : Handle} (hheld : tasks.isHeld h = true)
    (hr : heap.ReachedFrom (· = h) k) : heap.ReachedFrom (heap.Root tasks) k := by
  refine hr.mono ?_
  rintro _ rfl
  exact .inr (.inr (.inr (.inl (Tasks.mem_held hheld))))

theorem Needed.reached (hn : heap.Needed tasks [] h) : heap.ReachedFrom (heap.Root tasks) h := by
  induction hn with
  | root hroot hc => exact .start hroot hc
  | edge _ hc hperm hk hd ih => exact .edge ih hc hperm hk hd
  | value hmem => exact absurd hmem List.not_mem_nil
  | permanent hmem => exact absurd hmem List.not_mem_nil

def ClosedRoots (heap : Heap) (tasks : Tasks) (hs : List Handle) : Prop :=
  (∀ k ∈ heap.rootList ++ tasks.held, k ∈ hs) ∧
    ∀ h ∈ hs, ∀ c ∈ heap.arena.get? h, c.flags.permanent = false → ∀ k ∈ c.edges true, k ∈ hs

instance (heap : Heap) (tasks : Tasks) (hs : List Handle) : Decidable (heap.ClosedRoots tasks hs) :=
  inferInstanceAs (Decidable (_ ∧ _))

theorem ReachedFrom.mem_of_closedRoots {hs : List Handle}
    (hr : heap.ReachedFrom (heap.Root tasks) h) (hclosedRoots : heap.ClosedRoots tasks hs)
    (hchain : heap.arena.weakRecords heap.weak = .ok []) : h ∈ hs := by
  obtain ⟨hroots, hedges⟩ := hclosedRoots
  induction hr with
  | start hroot _ =>
    rcases hroot with hroot | hroot | hroot | hroot | ⟨records, hrecords, hmem⟩
    · exact hroots _ (by simp [rootList, hroot])
    · exact hroots _ (by simp [rootList, Array.mem_toList_iff.mp hroot])
    · exact hroots _ (by simp [rootList, hroot])
    · exact hroots _ (by simp [hroot])
    · rw [hchain, Except.ok.injEq] at hrecords
      rw [← hrecords] at hmem
      exact absurd hmem List.not_mem_nil
  | edge _ hc hperm hk _ ih => exact hedges _ ih _ hc hperm _ hk

end Heap

namespace HeapM

variable {heap : Heap} {h : Handle} {c : Cell}

theorem run_sharing (hc : heap.arena.get? h = some c) :
    (sharing h).run heap = .ok ({ count := c.header.refcount
                                  beingComputed := heap.tasks.isPending h
                                  inUseByTask := heap.tasks.isInUse h }, heap) := by
  simp only [sharing, refCount, run_bind, run_pure, run_cell, run_get]
  exact ⟨_, _, ⟨c, heap, ⟨hc, rfl⟩, rfl, rfl⟩, _, _, ⟨rfl, rfl⟩, rfl, rfl⟩

theorem run_mayMutate_held (hc : heap.arena.get? h = some c)
    (hheld : heap.tasks.isHeld h = true) : (mayMutate h).run heap = .ok (false, heap) := by
  simp only [mayMutate, run_bind, run_pure]
  refine ⟨_, heap, run_sharing hc, ?_, rfl⟩
  rw [Tasks.isHeld, Bool.or_eq_true] at hheld
  rcases hheld with hpending | huse
  · simp [hpending]
  · simp [huse]

end HeapM

namespace Collected

open Arena

variable {level : Level} {records : List Handle} {heap heap' : Heap} {o : Outcome}
  {h k : Handle} {c : Cell}

theorem tasks (hcol : Collected level records heap heap' o) :
    heap'.tasks = heap.quietTasks level := by
  obtain ⟨_, _, _, _, _, _, _, hrest⟩ := hcol.rest
  rw [hrest]

theorem endures_held (hcol : Collected level records heap heap' o) (hs : heap.Sound)
    (hheld : (heap.quietTasks level).isHeld h = true) (hr : heap.ReachedFrom (· = h) k) :
    ∃ c d, heap.arena.get? k = some c ∧ heap'.arena.get? k = some d ∧ c.Endures d := by
  obtain ⟨c, hc, hsaves⟩ :=
    (heap.closedUnderMarking_lingers level records).saves_reached hs hcol.chain (.of_held hheld hr)
  obtain ⟨d, hd⟩ := hcol.stayed hc (keeps_of_saves hsaves)
  exact ⟨c, d, hc, hd, (hcol.same hc hd).endures⟩

theorem queries_held (hcol : Collected level records heap heap' o) (hs : heap.Sound)
    (hc : heap.arena.get? h = some c) (hheld : (heap.quietTasks level).isHeld h = true) :
    (HeapM.sharing h).run heap' =
        .ok ({ count := c.header.refcount
               beingComputed := (heap.quietTasks level).isPending h
               inUseByTask := (heap.quietTasks level).isInUse h }, heap') ∧
      (HeapM.mayMutate h).run heap' = .ok (false, heap') := by
  obtain ⟨c', d, hc', hd, hendures⟩ := hcol.endures_held hs hheld (.start rfl hc)
  rw [hc, Option.some.injEq] at hc'
  subst hc'
  rw [← hcol.tasks] at hheld ⊢
  refine ⟨?_, HeapM.run_mayMutate_held hd hheld⟩
  rw [HeapM.run_sharing hd, hendures.refcount]

theorem reclaims (hcol : Collected .full records heap heap' o) (hs : heap.Sound)
    (hc : heap.arena.get? h = some c) (hperm : c.flags.permanent = false) (hname : ¬ c.IsName)
    (hneeded : ¬ heap.Needed (heap.quietTasks .full) records h)
    (hready : ¬ heap.ReachedFrom (heap.ReadyField heap' records) h) :
    heap'.arena.contains h = false := by
  rw [Bool.eq_false_iff, ne_eq, hcol.survives_iff hs]
  rintro ⟨d, hd, halive⟩
  rw [hc, Option.some.injEq] at hd
  subst hd
  rcases halive with halive | halive | halive | halive
  · rw [hperm] at halive
    exact nomatch halive
  · exact hneeded halive
  · exact hready halive
  · exact hname halive

end Collected

namespace Session

/-- What tasks hold once they are settled survives a collection with all that can be reached from
it, unchanged, and the queries about it answer what the scheduler says. A full collection finds no
large object held, and reclaims what neither the roots, a task among them, nor the records need,
the permanent objects and the names of symbols apart. -/
theorem tasks_interlock {state : State} {heap heap' : Heap} {level : Level} {reason : Reason}
    {o : Outcome} (hr : Reachable state heap)
    (hrun : (HeapM.collect level reason).run heap = .ok (o, heap')) :
    ∃ quiet, (HeapM.quiesce level).run heap = .ok ((), quiet) ∧ heap'.tasks = quiet.tasks ∧
      (∀ h c, heap.arena.get? h = some c → quiet.tasks.isHeld h = true →
        (∀ k, heap.ReachedFrom (· = h) k →
          ∃ c d, heap.arena.get? k = some c ∧ heap'.arena.get? k = some d ∧ c.Endures d) ∧
        (HeapM.sharing h).run heap' =
          .ok ({ count := c.header.refcount
                 beingComputed := quiet.tasks.isPending h
                 inUseByTask := quiet.tasks.isInUse h }, heap') ∧
        (HeapM.mayMutate h).run heap' = .ok (false, heap')) ∧
      (level = .full →
        (∀ h, heap.arena.holdsLarge h = true → quiet.tasks.isHeld h = false) ∧
        ∃ records, heap.arena.weakRecords heap.weak = .ok records ∧
          ∀ h c, heap.arena.get? h = some c → c.flags.permanent = false → ¬ c.IsName →
            ¬ heap.Needed quiet.tasks records h →
            ¬ heap.ReachedFrom (heap.ReadyField heap' records) h →
            heap'.arena.contains h = false) := by
  have hs := hr.sound
  obtain ⟨records, hcol⟩ := HeapM.collect_collected hs hrun
  obtain ⟨waits, hquiet⟩ := HeapM.run_quiesce level heap
  refine ⟨_, hquiet, hcol.tasks, ?_, ?_⟩
  · intro h c hc hheld
    exact ⟨fun k => hcol.endures_held hs hheld, hcol.queries_held hs hc hheld⟩
  · rintro rfl
    refine ⟨fun h => Heap.quietTasks_large, records, hcol.chain, ?_⟩
    intro h c hc hperm hname hneeded hready
    exact hcol.reclaims hs hc hperm hname hneeded hready

/-- One task writes a pair that has another pair in it, one reads a large vector, and one has let
go of a pair. -/
def tasksAtWork : List Step :=
  [.command (.setScheduler .registry) none,
    .command (.request (.cons (.handle .nil) (.handle .nil))) (some "e"),
    .command (.request (.cons (.register "e") (.handle .nil))) (some "q"),
    .command (.task .beginOutput (.register "q")) none,
    .command (.request (.allocate .realVector 40 [])) (some "v"),
    .command (.task .beginInput (.register "v")) none,
    .command (.request (.cons (.handle .nil) (.handle .nil))) (some "g"),
    .command (.task .beginOutput (.register "g")) none,
    .command (.task .finishOutput (.register "g")) none]

/-- A full collection keeps the pair that is written and the one in it, waits for the task that
reads the vector, and reclaims the pair that was let go of. -/
theorem tasks_interlock_tasksAtWork : ∃ heap o heap' c d,
    collected { segmentCells := 4 } tasksAtWork .full = .ok (heap, o, heap') ∧
    heap'.tasks.isPending ⟨3⟩ = true ∧ heap.arena.get? ⟨2⟩ = some c ∧
    heap'.arena.get? ⟨2⟩ = some d ∧ c.Endures d ∧
    (HeapM.mayMutate ⟨3⟩).run heap' = .ok (false, heap') ∧
    heap.tasks.isHeld ⟨4096⟩ = true ∧ heap'.tasks.isHeld ⟨4096⟩ = false ∧
    heap.arena.contains ⟨8192⟩ = true ∧ heap'.arena.contains ⟨8192⟩ = false := by
  obtain ⟨⟨heap, o, heap'⟩, hcollected, htest⟩ := except_of_test
    (x := collected { segmentCells := 4 } tasksAtWork .full)
    (p := fun p : Heap × Outcome × Heap =>
      p.2.2.tasks.isPending ⟨3⟩ && p.1.tasks.isHeld ⟨4096⟩ && p.1.arena.holdsLarge ⟨4096⟩ &&
        decide ((p.1.arena.weakRecords p.1.weak).toOption = some []) &&
        decide (p.1.ClosedRoots p.2.2.tasks [⟨0⟩, ⟨2⟩, ⟨3⟩]) && p.1.arena.contains ⟨2⟩ &&
        (p.1.arena.get? ⟨3⟩).any (fun c : Cell =>
          !c.flags.permanent && decide (⟨2⟩ ∈ c.edges true)) &&
        (p.1.arena.get? ⟨8192⟩).any fun c : Cell => !c.flags.permanent && !c.flags.cached)
    (by decide +kernel)
  obtain ⟨ho, hrun⟩ := collected_eq_ok hcollected
  obtain ⟨state, hr⟩ := reachable_of_opened rfl ho
  simp only [Bool.and_eq_true, decide_eq_true_eq, Option.any_eq_true, Bool.not_eq_true'] at htest
  obtain ⟨⟨⟨⟨⟨⟨⟨hpending, hreads⟩, hlarge⟩, hnone⟩, hclosedRoots⟩, hlive⟩, q, hq, hpermq, hedge⟩,
    g, hg, hpermg, hcached⟩ := htest
  have hchain := eq_ok_of_toOption hnone
  obtain ⟨e, he⟩ := Arena.contains_iff.mp hlive
  obtain ⟨quiet, -, htasks, hholds, hfull⟩ := tasks_interlock hr hrun
  rw [← htasks] at hholds hfull
  have hheld : heap'.tasks.isHeld ⟨3⟩ = true := by rw [Tasks.isHeld, hpending, Bool.true_or]
  obtain ⟨hreached, -, hmutate⟩ := hholds ⟨3⟩ q hq hheld
  obtain ⟨c, d, hc, hd, hendures⟩ := hreached ⟨2⟩ (.edge (.start rfl hq) hq hpermq hedge he)
  obtain ⟨hsettled, records, hrecords, hreclaims⟩ := hfull rfl
  obtain rfl : records = [] := by
    rw [hchain, Except.ok.injEq] at hrecords
    exact hrecords.symm
  refine ⟨heap, o, heap', c, d, hcollected, hpending, hc, hd, hendures, hmutate, hreads,
    hsettled _ hlarge, Arena.contains_of_get? hg, hreclaims _ g hg hpermg ?_ ?_ ?_⟩
  · rintro ⟨-, hyes, -⟩
    rw [hcached] at hyes
    exact nomatch hyes
  · intro hneeded
    exact absurd (hneeded.reached.mem_of_closedRoots hclosedRoots hchain) (by decide)
  · intro hready
    obtain ⟨_, r, hmem, -⟩ := hready.started
    exact absurd hmem List.not_mem_nil

/-- A task has written a permanent object and let go of it. -/
def unboundReleased : List Step :=
  [.command (.setScheduler .registry) none, .command (.task .beginOutput (.handle .unbound)) none,
    .command (.task .finishOutput (.handle .unbound)) none]

/-- A task writes a pair that refers to `NIL`, and the attribute of `NIL` is another pair. -/
def nilAttribHeld : List Step :=
  [.command (.setScheduler .registry) none,
    .command (.request (.cons (.handle .nil) (.handle .nil))) (some "p"),
    .command (.set .attrib (.handle .nil) (.register "p")) none,
    .command (.request (.cons (.handle .nil) (.handle .nil))) (some "q"),
    .command (.task .beginOutput (.register "q")) none]

/-- A finalizer interns a symbol in the middle of an interning of the same symbol, and a task has
written the name of the one that is lost and let go of it. -/
def orphanName : List Step :=
  [.command (.setScheduler .registry) none,
    .setScript 0 [.command (.release (.register "p")) none, .command (.release (.register "q")) none,
      .command (.request (.symbol #[120])) (some "s"),
      .command (.ask .symbolName (.register "s")) (some "n")] .ok,
    .command (.request (.cons (.handle .nil) (.handle .nil))) (some "k"),
    .command (.request (.nativeFinalizer (.register "k") 0 false)) none,
    .command (.request (.string #[97] .utf8)) (some "p"), .command (.preserve (.register "p")) none,
    .command (.request (.string #[98] .utf8)) (some "q"), .command (.preserve (.register "q")) none,
    .command (.request (.string #[99] .utf8)) (some "a"), .command (.preserve (.register "a")) none,
    .command (.request (.string #[100] .utf8)) (some "b"), .command (.preserve (.register "b")) none,
    .command (.request (.string #[101] .utf8)) (some "c"), .command (.preserve (.register "c")) none,
    .command (.request (.symbol #[120])) none,
    .command (.task .beginOutput (.register "n")) none,
    .command (.task .finishOutput (.register "n")) none]

/-- A full collection keeps permanent objects and names of symbols that no task holds any more and
nothing refers to, and it does not follow what `NIL` refers to, even if a task holds an object
with `NIL` in it. -/
theorem permanents_and_names_apart :
    (∃ heap o heap', collected { segmentCells := 4 } unboundReleased .full = .ok (heap, o, heap') ∧
      heap.arena.weakRecords heap.weak = .ok [] ∧
      ¬ heap.ReachedFrom (heap.Root (heap.quietTasks .full)) .unbound ∧
      heap'.arena.contains .unbound = true) ∧
    (∃ heap o heap' c d, collected { segmentCells := 4 } nilAttribHeld .full = .ok (heap, o, heap') ∧
      (heap.quietTasks .full).isPending ⟨3⟩ = true ∧ heap.arena.get? ⟨3⟩ = some c ∧
      .nil ∈ c.edges true ∧ heap.arena.get? .nil = some d ∧ ⟨2⟩ ∈ d.edges true ∧
      heap.arena.contains ⟨2⟩ = true ∧ heap'.arena.contains ⟨2⟩ = false) ∧
    ∃ heap o heap' c,
      collected { segmentCells := 5, maxCells := some 10 } orphanName .full = .ok (heap, o, heap') ∧
      heap.arena.weakRecords heap.weak = .ok [] ∧ heap.arena.get? ⟨4097⟩ = some c ∧
      c.flags.permanent = false ∧ ¬ heap.ReachedFrom (heap.Root (heap.quietTasks .full)) ⟨4097⟩ ∧
      heap'.arena.contains ⟨4097⟩ = true ∧ heap.arena.contains ⟨4⟩ = true ∧
      heap'.arena.contains ⟨4⟩ = false := by
  refine ⟨?_, ?_, ?_⟩
  · obtain ⟨⟨heap, o, heap'⟩, hcollected, htest⟩ := except_of_test
      (x := collected { segmentCells := 4 } unboundReleased .full)
      (p := fun p : Heap × Outcome × Heap =>
        decide ((p.1.arena.weakRecords p.1.weak).toOption = some []) &&
          decide (p.1.ClosedRoots (p.1.quietTasks .full) [.nil]) && p.2.2.arena.contains .unbound)
      (by decide +kernel)
    simp only [Bool.and_eq_true, decide_eq_true_eq] at htest
    obtain ⟨⟨hnone, hclosedRoots⟩, hkept⟩ := htest
    have hchain := eq_ok_of_toOption hnone
    refine ⟨heap, o, heap', hcollected, hchain, ?_, hkept⟩
    intro hr
    exact absurd (hr.mem_of_closedRoots hclosedRoots hchain) (by decide)
  · obtain ⟨⟨heap, o, heap'⟩, hcollected, htest⟩ := except_of_test
      (x := collected { segmentCells := 4 } nilAttribHeld .full)
      (p := fun p : Heap × Outcome × Heap =>
        (p.1.quietTasks .full).isPending ⟨3⟩ &&
          (p.1.arena.get? ⟨3⟩).any (fun c : Cell => decide (.nil ∈ c.edges true)) &&
          (p.1.arena.get? .nil).any (fun d : Cell => decide (⟨2⟩ ∈ d.edges true)) &&
          p.1.arena.contains ⟨2⟩ && !p.2.2.arena.contains ⟨2⟩)
      (by decide +kernel)
    simp only [Bool.and_eq_true, decide_eq_true_eq, Option.any_eq_true, Bool.not_eq_true'] at htest
    obtain ⟨⟨⟨⟨hpending, c, hc, hnil⟩, d, hd, hattrib⟩, hlive⟩, hdead⟩ := htest
    exact ⟨heap, o, heap', c, d, hcollected, hpending, hc, hnil, hd, hattrib, hlive, hdead⟩
  · obtain ⟨⟨heap, o, heap'⟩, hcollected, htest⟩ := except_of_test
      (x := collected { segmentCells := 5, maxCells := some 10 } orphanName .full)
      (p := fun p : Heap × Outcome × Heap =>
        decide ((p.1.arena.weakRecords p.1.weak).toOption = some []) &&
          (p.1.arena.get? ⟨4097⟩).any (fun c : Cell => !c.flags.permanent) &&
          p.1.arena.contains ⟨4⟩ && !p.2.2.arena.contains ⟨4⟩ &&
          decide (p.1.ClosedRoots (p.1.quietTasks .full)
            [.nil, .unbound, ⟨3⟩, ⟨4096⟩, ⟨4098⟩, ⟨4099⟩, ⟨4100⟩]) &&
          p.2.2.arena.contains ⟨4097⟩)
      (by decide +kernel)
    simp only [Bool.and_eq_true, decide_eq_true_eq, Option.any_eq_true, Bool.not_eq_true'] at htest
    obtain ⟨⟨⟨⟨⟨hnone, c, hc, hperm⟩, hlive⟩, hdead⟩, hclosedRoots⟩, hkept⟩ := htest
    have hchain := eq_ok_of_toOption hnone
    refine ⟨heap, o, heap', c, hcollected, hchain, hc, hperm, ?_, hkept, hlive, hdead⟩
    intro hr
    exact absurd (hr.mem_of_closedRoots hclosedRoots hchain) (by decide)

end Session

end ManagedHeap
