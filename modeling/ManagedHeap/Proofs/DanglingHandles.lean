import ManagedHeap.Proofs.SessionHistories

/-!
# Dangling handles

What an object holds is alive, whether the object itself is reachable or floating garbage: the
marker follows the slots of what it keeps, and the remembered list has the old objects with
younger slots. The permanent objects are outside of that. They are neither traced nor
remembered, so a collection may free what one of them holds.
-/

namespace ManagedHeap

namespace Session

/-- The slots and the attribute of an object that is not permanent name live objects. Those of a
permanent object do too, but for what a collection freed while it held that. -/
theorem slots_live {state : State} {heap : Heap} (hr : Reachable state heap) :
    (∀ {h c}, heap.arena.get? h = some c → c.flags.permanent = false → ∀ k ∈ c.edges true,
      heap.arena.contains k = true) ∧
    ∃ start : Heap, start.Born ∧ start.Lives (Entry.sinceOpened heap.journal.ofCells) heap ∧
      ∀ {h c}, heap.arena.get? h = some c → c.flags.permanent = true → ∀ k ∈ c.edges true,
        heap.arena.contains k = true ∨ start.FreedWhileHeld heap h k := by
  obtain ⟨hs, es, start, hborn, hlives⟩ := hr.traced
  have hes := Heap.Lived.eq_sinceOpened ⟨start, hborn, hlives⟩
  refine ⟨fun hc hperm k hk => ?_, start, hborn, hes ▸ hlives,
    hlives.holdsOrFreed hborn.holdsOrFreed⟩
  obtain ⟨d, hd⟩ := hs.closed hc hperm hk
  exact Arena.contains_of_get? hd

/-- The attribute of `NIL` is a pair, which a full collection frees. -/
def nilAttribDropped : List Step :=
  [.command (.request (.cons (.handle .nil) (.handle .nil))) (some "p"),
    .command (.set .attrib (.handle .nil) (.register "p")) none,
    .command (.collect .full) none]

/-- `NIL` is left with a dangling attribute, and it was that collection that freed the pair. -/
theorem slots_nilAttribDropped : ∃ heap c, opened { segmentCells := 4 } nilAttribDropped = .ok heap ∧
    heap.arena.get? .nil = some c ∧ c.attrib = ⟨2⟩ ∧ heap.arena.contains ⟨2⟩ = false ∧
    ∃ start : Heap, start.Born ∧ start.FreedWhileHeld heap .nil ⟨2⟩ := by
  obtain ⟨heap, ho, htest⟩ := except_of_test
    (x := opened { segmentCells := 4 } nilAttribDropped)
    (p := fun heap => (heap.arena.get? .nil).any (fun c : Cell =>
      c.flags.permanent && !c.flags.cached && decide (c.attrib = ⟨2⟩)) &&
        !heap.arena.contains ⟨2⟩) (by decide +kernel)
  obtain ⟨state, hr⟩ := reachable_of_opened rfl ho
  simp only [Bool.and_eq_true, decide_eq_true_eq, Option.any_eq_true, Bool.not_eq_true'] at htest
  obtain ⟨⟨c, hc, ⟨hperm, hcached⟩, hattrib⟩, hdead⟩ := htest
  obtain ⟨-, start, hborn, -, hholds⟩ := slots_live hr
  have hk : (⟨2⟩ : Handle) ∈ c.edges true := by
    rw [Cell.edges, hcached, hattrib]
    exact List.mem_cons_self
  refine ⟨heap, c, ho, hc, hattrib, hdead, start, hborn, ?_⟩
  refine (hholds hc hperm _ hk).resolve_left ?_
  rw [hdead]
  exact Bool.false_ne_true

end Session

end ManagedHeap
