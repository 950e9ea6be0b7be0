import ManagedHeap.Proofs.SessionEffects

/-!
# Lifetimes

An allocation claims a free cell, and the free observer is called with an object when a collection
gives its cell back. So over the history of a heap claims of a cell and calls of the observer take
turns, however the cell is handed out again, and a collection calls the observer as often as it
says that it freed an object.
-/

namespace ManagedHeap

namespace Heap

variable {start heap heap' : Heap} {es : List Entry}

/-- The history of the cells goes on with these entries, which say what happened to them unless a
new heap was opened. -/
structure Extends (heap heap' : Heap) (es : List Entry) : Prop where
  history : heap'.journal.ofCells = heap.journal.ofCells ++ es
  lives : (∀ e ∈ es, ∀ config, e ≠ .opened config) → heap.Lives es heap'

theorem Extends.refl (heap : Heap) : heap.Extends heap [] :=
  ⟨(List.append_nil _).symm, fun _ => .refl⟩

theorem Extends.act {fs : List Entry} (he : start.Extends heap es) (ha : Act fs heap heap') :
    start.Extends heap' (es ++ fs) where
  history := by rw [ha.ofCells, he.history, List.append_assoc]
  lives hes := (he.lives fun e he => hes e (List.mem_append_left _ he)).tail ha

theorem Extends.step (hs : heap.Sound) (hstep : heap.CellStep heap')
    (he : ∃ es, start.Extends heap es) : ∃ es, start.Extends heap' es := by
  obtain ⟨es, he⟩ := he
  cases hstep with
  | amend ha => exact ⟨_, he.act ha.act⟩
  | grow hrun => exact ⟨_, he.act (.grow hrun)⟩
  | @claim _ _ _ r _ _ hkind hp _ hrun =>
    cases r with
    | some h => exact ⟨_, he.act (.claim hs hkind hp hrun)⟩
    | none =>
      rcases HeapM.run_claim hrun with ⟨-, rfl⟩ | ⟨h, arena, hnone, -⟩
      · exact ⟨es, he⟩
      · cases hnone
  | collect hrun => exact ⟨_, he.act (.collect hs hrun)⟩
  | @renew _ fresh hbuild =>
    refine ⟨es ++ [.opened {}], ?_, fun hes => absurd rfl (hes (.opened {}) (by simp) {})⟩
    rw [← List.append_assoc, ← he.history, ← build_ofCells hbuild]
    exact Journal.ofCells_append rfl

namespace Lived

variable {h : Handle}

theorem lifeline (hl : heap.Lived es) (hh : h ∉ [Handle.nil, .unbound]) :
    Lifeline h (Entry.about h es) ((heap.arena.get? h).map Cell.kind) := by
  obtain ⟨start, hborn, hlives⟩ := hl
  exact hlives.lifeline (hborn.lifeline hh)

theorem contains_iff (hl : heap.Lived es) (hh : h ∉ [Handle.nil, .unbound]) :
    heap.arena.contains h = true ↔ Odd (Entry.about h es).length := by
  rw [← (hl.lifeline hh).odd, Option.isSome_map]
  rfl

end Lived

end Heap

namespace Session

theorem runStep_extends {levels : Nat} {step : Step} {state state' : State} {heap heap' : Heap}
    {reply : Reply} (hv : heap.SoundWithHistory)
    (hrun : ((runStep (hostWithin levels) step).run state).run heap = .ok ((reply, state'), heap')) :
    ∃ es, heap.Extends heap' es :=
  (runStep_comes hv hrun).2.keep (I := fun mid => ∃ es, heap.Extends mid es)
    (fun hv he => he.keep hv.1 Heap.Extends.step) ⟨[], .refl heap⟩

/-- In the history of a reachable heap since it was opened, claims of a cell and calls of the
observer take turns, a claim first, and a call tells the kind that was claimed; the object is alive
just after an odd number of them. Every step goes on with the history, and each entry is a claim of
a cell that was dead or the end of an object in a collection. Every collection calls the observer
with the objects that it reclaims, each with its kind, as many as it says. -/
theorem lifetimes_alternate {state : State} {heap : Heap} (hr : Reachable state heap) :
    (∀ h ∉ [Handle.nil, .unbound],
      Lifeline h (Entry.about h (Entry.sinceOpened heap.journal.ofCells))
        ((heap.arena.get? h).map Cell.kind) ∧
      (heap.arena.contains h = true ↔
        Odd (Entry.about h (Entry.sinceOpened heap.journal.ofCells)).length)) ∧
    (∀ {levels step state' heap' reply},
      ((runStep (hostWithin levels) step).run state).run heap = .ok ((reply, state'), heap') →
        ∃ es, heap.Extends heap' es) ∧
    ∀ {before after level reason o}, Heap.Sound before →
      (HeapM.collect level reason).run before = .ok (o, after) →
        before.journal.Reports after.journal (before.losses after)
          ((before.losses after).map .loss ++ [.collected level]) ∧
        (before.losses after).length = o.totalFreed := by
  obtain ⟨-, es, hlived⟩ := hr.traced
  refine ⟨fun h hh => ?_, fun hrun => runStep_extends hr.soundWithHistory hrun, fun hs hrun => ?_⟩
  · rw [← hlived.eq_sinceOpened]
    exact ⟨hlived.lifeline hh, hlived.contains_iff hh⟩
  · obtain ⟨records, hcol⟩ := HeapM.collect_collected hs hrun
    exact ⟨HeapM.collect_reports hs hrun, hcol.totalFreed.symm⟩

/-- A pair that nothing refers to, while an observer is installed. -/
def pairDropped : List Step :=
  [.command .observe none, .command (.request (.cons (.handle .nil) (.handle .nil))) none]

/-- The pair was claimed and is alive, and then the observer is called with it. -/
theorem lifetimes_pairDropped : ∃ heap o heap',
    collected { segmentCells := 4 } pairDropped .full = .ok (heap, o, heap') ∧
    Lifeline ⟨2⟩ (Entry.about ⟨2⟩ (Entry.sinceOpened heap.journal.ofCells)) (some .pair) ∧
    Odd (Entry.about ⟨2⟩ (Entry.sinceOpened heap.journal.ofCells)).length ∧
    heap'.journal.freed.toList = [(⟨2⟩, .pair)] ∧
    heap'.history = heap.history ++ [.freed ⟨2⟩ .pair, .collected .full] ∧ o.totalFreed = 1 := by
  obtain ⟨⟨heap, o, heap'⟩, hcollected, htest⟩ := except_of_test
    (x := collected { segmentCells := 4 } pairDropped .full)
    (p := fun p : Heap × Outcome × Heap =>
      decide ((p.1.arena.get? ⟨2⟩).map Cell.kind = some .pair) && p.1.journal.observing &&
        decide (p.1.journal.freed.toList = []) && decide (p.1.losses p.2.2 = [(⟨2⟩, .pair)]))
    (by decide +kernel)
  obtain ⟨ho, hrun⟩ := collected_eq_ok hcollected
  obtain ⟨state, hr⟩ := reachable_of_opened rfl ho
  simp only [Bool.and_eq_true, decide_eq_true_eq] at htest
  obtain ⟨⟨⟨hkind, hwatch⟩, hlog⟩, hlost⟩ := htest
  obtain ⟨hturns, -, hhasWeakRun⟩ := lifetimes_alternate hr
  obtain ⟨⟨-, hheard, hhistory⟩, htotal⟩ := hhasWeakRun hr.sound hrun
  obtain ⟨hlife, halive⟩ := hturns ⟨2⟩ (by decide)
  have hsome := congrArg Option.isSome hkind
  rw [Option.isSome_map] at hsome
  rw [hkind] at hlife
  rw [hlost] at hheard hhistory htotal
  refine ⟨heap, o, heap', hcollected, hlife, halive.mp hsome, ?_, hhistory, htotal.symm⟩
  rw [hheard, hlog, if_pos hwatch, List.nil_append]

end Session

end ManagedHeap
