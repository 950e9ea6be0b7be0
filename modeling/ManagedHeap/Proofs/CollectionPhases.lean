import ManagedHeap.Proofs.Sweeping
import ManagedHeap.Proofs.HistoryEntries
import ManagedHeap.Proofs.Ephemerons

/-!
# The phases of a collection

What settling the tasks, forgetting the look-up caches, pruning the remembered list and
reporting do to a heap, and how a collection is made of its phases.
-/

namespace ManagedHeap

/-- The object lies in a segment for large objects. -/
def Arena.holdsLarge (a : Arena) (h : Handle) : Bool :=
  a.contains h && (a.classAt? h).any NodeClass.isLarge

/-- The tasks after those that hold any of the objects were waited for. -/
def Tasks.awaitAll (t : Tasks) (hs : List Handle) : Tasks :=
  hs.foldl (fun t h => (t.awaitOutput h).awaitInput h) t

def Heap.awaitedTasks (heap : Heap) (level : Level) : List Handle :=
  if level = .full then heap.tasks.releaseCached.held.filter heap.arena.holdsLarge else []

/-- The tasks that a collection finds once they are settled. -/
def Heap.quietTasks (heap : Heap) (level : Level) : Tasks :=
  let tasks := heap.tasks.releaseCached
  if level = .full then tasks.awaitAll (tasks.held.filter heap.arena.holdsLarge) else tasks

/-- A payload without the look-up cache of a symbol. -/
def Payload.forgetting : Payload → Payload
  | symbol name value internal _ => symbol name value internal .nil
  | other => other

def Cell.cleared (c : Cell) : Cell := { c with payload := c.payload.forgetting }

def Cell.forgotten (c : Cell) : Cell := c.mapFlags fun fs => { fs with remembered := false }

namespace HeapM

open Arena

variable {heap heap' : Heap} {h : Handle} {u : PUnit} {level : Level}

theorem ends_awaitLarge (hs : List Handle) (heap : Heap) :
    (awaitLarge hs).run heap = .ok (⟨⟩, { heap with
      tasks := heap.tasks.awaitAll (hs.filter heap.arena.holdsLarge)
      counters := { heap.counters with
        taskWaits := heap.counters.taskWaits + (hs.filter heap.arena.holdsLarge).length } }) := by
  induction hs generalizing heap with
  | nil => rfl
  | cons h hs ih =>
    cases hl : heap.arena.holdsLarge h with
    | false =>
      have hrun := ih heap
      rw [List.filter_cons_of_neg (by simp [hl])]
      simp only [awaitLarge, run_bind, run_get]
      refine ⟨heap, heap, ⟨rfl, rfl⟩, ?_⟩
      split
      · rename_i hlive
        obtain ⟨c, hc⟩ := contains_iff.mp hlive
        have hsegment : ∃ s, heap.arena.segments[h.segment]? = some s :=
          ⟨_, Array.getElem?_eq_getElem (segment_lt (get?_eq_some.mp hc).1)⟩
        obtain ⟨s, hs'⟩ := hsegment
        have hclass : heap.arena.classOf h = .ok s.nodeClass := by
          simp only [classOf, except_bind, get_eq_ok]
          exact ⟨c, hc, by rw [hs']; rfl⟩
        have hsmall : s.nodeClass.isLarge = false := by
          simpa [holdsLarge, hlive, classAt?, hs'] using hl
        simp only [run_bind, run_lift]
        refine ⟨_, _, ⟨hclass, rfl⟩, ?_⟩
        rw [if_neg (by simp [hsmall])]
        exact hrun
      · exact hrun
    | true =>
      have hrun := ih { heap with
        tasks := (heap.tasks.awaitOutput h).awaitInput h
        counters := { heap.counters with taskWaits := heap.counters.taskWaits + 1 } }
      rw [List.filter_cons_of_pos hl, List.length_cons, Nat.add_comm _ 1, ← Nat.add_assoc]
      simp only [awaitLarge, run_bind, run_get]
      refine ⟨heap, heap, ⟨rfl, rfl⟩, ?_⟩
      rw [holdsLarge, Bool.and_eq_true] at hl
      obtain ⟨hlive, hlarge⟩ := hl
      rw [if_pos hlive]
      obtain ⟨c, hc⟩ := contains_iff.mp hlive
      obtain ⟨n, hn, hlarge⟩ := Option.any_eq_true .. |>.mp hlarge
      obtain ⟨s, hs', rfl⟩ := Option.map_eq_some_iff.mp hn
      have hclass : heap.arena.classOf h = .ok s.nodeClass := by
        simp only [classOf, except_bind, get_eq_ok]
        exact ⟨c, hc, by rw [hs']; rfl⟩
      simp only [run_bind, run_lift]
      refine ⟨_, _, ⟨hclass, rfl⟩, ?_⟩
      rw [if_pos hlarge]
      simp only [awaitTasks, run_bind, run_modify]
      exact ⟨⟨⟩, _, rfl, hrun⟩

theorem ends_quiesce (level : Level) (heap : Heap) :
    (quiesce level).run heap = .ok (⟨⟩, { heap with
      tasks := heap.quietTasks level
      counters := { heap.counters with
        taskWaits := heap.counters.taskWaits + (heap.awaitedTasks level).length } }) := by
  simp only [quiesce, run_bind, run_modify, Heap.quietTasks, Heap.awaitedTasks]
  by_cases hfull : level = .full
  · have hrun :=
      ends_awaitLarge heap.tasks.releaseCached.held { heap with tasks := heap.tasks.releaseCached }
    refine ⟨⟨⟩, _, rfl, ?_⟩
    rw [if_pos hfull]
    simp only [run_bind, run_get]
    refine ⟨_, _, ⟨rfl, rfl⟩, ?_⟩
    rw [if_pos hfull, if_pos hfull]
    exact hrun
  · refine ⟨⟨⟩, _, rfl, ?_⟩
    rw [if_neg hfull, if_neg hfull, if_neg hfull]
    rfl

theorem run_quiesce (level : Level) (heap : Heap) : ∃ waits,
    (quiesce level).run heap = .ok (⟨⟩, { heap with
      tasks := heap.quietTasks level
      counters := { heap.counters with taskWaits := waits } }) := ⟨_, ends_quiesce level heap⟩

theorem clearLookupCaches_cons (h : Handle) (hs : List Handle) : clearLookupCaches (h :: hs) = (do
    updateCell h Cell.cleared
    clearLookupCaches hs) := by
  rw [clearLookupCaches]
  congr 2
  funext c
  obtain ⟨header, attrib, payload⟩ := c
  cases payload <;> rfl

theorem run_clearLookupCaches {hs : List Handle}
    (hrun : (clearLookupCaches hs).run heap = .ok (u, heap')) :
    ∃ arena, heap' = { heap with arena } ∧ arena.books = heap.arena.books ∧
      ∀ k, arena.cellAt? k =
        (heap.arena.cellAt? k).map fun c => if k ∈ hs then c.cleared else c := by
  induction hs generalizing heap with
  | nil =>
    obtain ⟨-, rfl⟩ := run_pure.mp hrun
    exact ⟨_, rfl, rfl, fun k => by simp⟩
  | cons h hs ih =>
    simp only [clearLookupCaches_cons, run_bind, run_updateCell] at hrun
    obtain ⟨_, _, ⟨-, rfl⟩, hrun⟩ := hrun
    obtain ⟨arena, rfl, hbooks, hcells⟩ := ih hrun
    refine ⟨arena, rfl, hbooks.trans books_setCell, ?_⟩
    intro k
    rw [hcells k, cellAt?_setCell]
    have htwice : ∀ c : Cell, c.cleared.cleared = c.cleared := by
      rintro ⟨header, attrib, payload⟩
      cases payload <;> rfl
    by_cases hk : k = h <;> by_cases hmem : k ∈ hs <;>
      cases heap.arena.cellAt? k <;> simp [hk, hmem, htwice]

theorem run_pruneRemembered {hs kept : List Handle}
    (hrun : (pruneRemembered hs).run heap = .ok (kept, heap')) :
    ∃ arena, heap' = { heap with arena } ∧ arena.books = heap.arena.books ∧
      kept = hs.filter (fun h => (heap.arena.get? h).any (pointsYounger heap.arena)) ∧
      ∀ k, arena.cellAt? k = (heap.arena.cellAt? k).map fun c =>
        if k ∈ hs ∧ c.isFree = false ∧ pointsYounger heap.arena c = false then c.forgotten
        else c := by
  induction hs generalizing heap kept with
  | nil =>
    obtain ⟨rfl, rfl⟩ := run_pure.mp hrun
    exact ⟨_, rfl, rfl, rfl, fun k => by simp⟩
  | cons h hs ih =>
    simp only [pruneRemembered, run_bind, run_get] at hrun
    obtain ⟨_, _, ⟨rfl, rfl⟩, hrun⟩ := hrun
    cases hc : heap.arena.get? h with
    | none =>
      rw [hc] at hrun
      obtain ⟨arena, rfl, hbooks, hkept, hcells⟩ := ih hrun
      refine ⟨arena, rfl, hbooks, ?_, ?_⟩
      · rw [hkept, List.filter_cons_of_neg (by simp [hc])]
      · intro k
        rw [hcells k]
        refine Option.map_congr ?_
        intro c hk
        by_cases hkh : k = h
        · subst hkh
          have hfree : c.isFree = true := by
            by_contra hlive
            rw [get?_eq_some.mpr ⟨hk, by simpa using hlive⟩] at hc
            exact nomatch hc
          simp [hfree]
        · simp [hkh]
    | some c =>
      simp only [hc] at hrun
      split at hrun
      · rename_i hyoung
        simp only [run_bind, run_pure] at hrun
        obtain ⟨rest, _, hrest, rfl, rfl⟩ := hrun
        obtain ⟨arena, rfl, hbooks, hkept, hcells⟩ := ih hrest
        refine ⟨arena, rfl, hbooks, ?_, ?_⟩
        · rw [hkept, List.filter_cons_of_pos (by simp [hc, hyoung])]
        · intro k
          rw [hcells k]
          refine Option.map_congr ?_
          intro d hk
          by_cases hkh : k = h
          · subst hkh
            rw [(get?_eq_some.mp hc).1, Option.some.injEq] at hk
            subst hk
            simp [hyoung]
          · simp [hkh]
      · rename_i hyoung
        simp only [run_bind, run_updateCell] at hrun
        obtain ⟨_, mid, ⟨-, hmid⟩, hrun⟩ := hrun
        change mid = { heap with arena := heap.arena.setCell h Cell.forgotten } at hmid
        subst hmid
        obtain ⟨arena, rfl, hbooks, hkept, hcells⟩ := ih hrun
        have hpoints : ∀ d : Cell, pointsYounger (heap.arena.setCell h Cell.forgotten) d =
            pointsYounger heap.arena d := by
          intro d
          refine congrArg (fun p => (d.edges true).any p) ?_
          funext k
          simp only [generationBelow, get?_setCell (f := Cell.forgotten) fun _ => rfl]
          by_cases hk : k = h
          · rw [if_pos hk]
            cases heap.arena.get? k <;> rfl
          · rw [if_neg hk]
        have hforgotten : ∀ d : Cell, pointsYounger heap.arena d.forgotten =
            pointsYounger heap.arena d := fun _ => rfl
        refine ⟨arena, rfl, hbooks.trans books_setCell, ?_, ?_⟩
        · rw [hkept, List.filter_cons_of_neg (by simp [hc, hyoung])]
          refine List.filter_congr ?_
          intro k _
          simp only [get?_setCell (f := Cell.forgotten) fun _ => rfl]
          split
          · cases heap.arena.get? k with
            | none => rfl
            | some d => simp [hpoints, hforgotten]
          · simp [funext hpoints]
        · intro k
          rw [hcells k, cellAt?_setCell]
          by_cases hkh : k = h
          · subst hkh
            obtain ⟨hat, hlive⟩ := get?_eq_some.mp hc
            have hno : pointsYounger heap.arena c = false := by simpa using hyoung
            rw [if_pos rfl, hat]
            simp [hpoints, hlive, hno]
            intros
            rfl
          · rw [if_neg hkh]
            simp only [List.mem_cons, hkh, false_or, hpoints]

theorem run_weakRecords {rs : List Handle} :
    weakRecords.run heap = .ok (rs, heap') ↔
      heap.arena.weakRecords heap.weak = .ok rs ∧ heap = heap' := by
  simp only [weakRecords, run_bind, run_get, run_lift]
  constructor
  · rintro ⟨_, _, ⟨rfl, rfl⟩, h⟩
    exact h
  · intro h
    exact ⟨heap, heap, ⟨rfl, rfl⟩, h⟩

theorem run_pendingFinalizerCount {n : Nat}
    (hrun : pendingFinalizerCount.run heap = .ok (n, heap')) : heap = heap' := by
  have hfilter : ∀ (rs acc out : List Handle) (heap : Heap),
      (List.filterAuxM (fun r => return (← flags r).readyToFinalize) rs acc : HeapM _).run heap =
        .ok (out, heap') → heap = heap' := by
    intro rs
    induction rs with
    | nil =>
      intro acc out heap hrun
      exact (run_pure.mp hrun).2
    | cons r rs ih =>
      intro acc out heap hrun
      simp only [List.filterAuxM, run_bind, run_flags, run_pure] at hrun
      obtain ⟨_, _, ⟨_, _, ⟨_, -, -, rfl⟩, -, rfl⟩, hrun⟩ := hrun
      exact ih _ _ _ hrun
  simp only [pendingFinalizerCount, List.filterM, run_bind, run_weakRecords, run_pure] at hrun
  obtain ⟨_, _, ⟨-, rfl⟩, _, _, ⟨_, _, hrun, -, rfl⟩, -, rfl⟩ := hrun
  exact hfilter _ _ _ _ hrun

theorem run_stats {s : Stats} (hrun : stats.run heap = .ok (s, heap')) : heap = heap' := by
  simp only [stats, run_bind, run_get, run_pure] at hrun
  obtain ⟨_, _, hcount, _, _, ⟨rfl, rfl⟩, -, rfl⟩ := hrun
  exact run_pendingFinalizerCount hcount

theorem run_marking {α : Type} {act : MarkM α} {a : α} {n : Nat}
    (hrun : (marking act).run heap = .ok ((a, n), heap')) :
    ∃ m : Marking, act.run { arena := heap.arena } = .ok (a, m) ∧ n = m.marked ∧
      heap' = { heap with arena := m.arena } := by
  simp only [marking, run_onArena] at hrun
  obtain ⟨arena, hact, rfl⟩ := hrun
  split at hact
  · rename_i b m hok
    simp only [Except.ok.injEq, Prod.mk.injEq] at hact
    obtain ⟨⟨rfl, rfl⟩, rfl⟩ := hact
    exact ⟨m, hok, rfl, rfl⟩
  · exact nomatch hact

end HeapM

/-- What a collection covers, and whether it follows the names of symbols. -/
def Heap.scan (heap : Heap) (level : Level) : Scan :=
  { level, withNames := heap.config.nameMarkLevel ≤ level.index }

/-- The roots of a heap apart from what tasks hold and the records of the chain. -/
def Heap.rootList (heap : Heap) : List Handle :=
  heap.roots.handles ++ heap.protect.slots.toList ++ heap.symbols.handles

namespace HeapM

open Arena

variable {heap heap' : Heap} {level : Level} {reason : Reason} {o : Outcome}

theorem run_markAll {n k : Nat} (hrun : (markAll level).run heap = .ok ((n, k), heap')) :
    ∃ arena, ∃ m : Marking, arena.books = heap.arena.books ∧
      (∀ h, arena.cellAt? h =
        (heap.arena.cellAt? h).map fun c => if h ∈ heap.symbols.handles then c.cleared else c) ∧
      (do MarkM.markRoots (heap.scan level) heap.rootList heap.remembered.toList
          MarkM.markTasks (heap.scan level) heap.tasks
          MarkM.resolveWeak (heap.scan level) heap.weak : MarkM Nat).run { arena } =
        .ok (n, m) ∧ k = m.marked ∧ heap' = { heap with arena := m.arena } := by
  simp only [markAll, rootHandles, run_bind, run_get, run_pure] at hrun
  obtain ⟨_, _, ⟨rfl, rfl⟩, _, _, hclear, _, _, ⟨_, _, ⟨rfl, rfl⟩, rfl, rfl⟩, hrun⟩ := hrun
  obtain ⟨arena, rfl, hbooks, hcells⟩ := run_clearLookupCaches hclear
  obtain ⟨m, hmark, hk, rfl⟩ := run_marking hrun
  exact ⟨arena, m, hbooks, hcells, hmark, hk, rfl⟩

theorem run_collect (hrun : (collect level reason).run heap = .ok (o, heap')) :
    heap.collecting = false ∧ ∃ cleared, ∃ m : Marking, ∃ freed swept, ∃ waits phase,
      cleared.books = heap.arena.books ∧
      (∀ h, cleared.cellAt? h =
        (heap.arena.cellAt? h).map fun c => if h ∈ heap.symbols.handles then c.cleared else c) ∧
      (do MarkM.markRoots (heap.scan level) heap.rootList heap.remembered.toList
          MarkM.markTasks (heap.scan level) (heap.quietTasks level)
          MarkM.resolveWeak (heap.scan level) heap.weak : MarkM Nat).run { arena := cleared } =
        .ok (o.newlyReady, m) ∧
      (sweep level).run { heap with
        arena := m.arena
        tasks := heap.quietTasks level
        collecting := true
        counters := { heap.counters with taskWaits := waits, phase } } = .ok (freed, swept) ∧
      ∃ kept pruned strategy counters journal,
        (pruneRemembered swept.remembered.toList).run swept = .ok (kept, pruned) ∧
        heap' = { pruned with
          remembered := kept.toArray, strategy, counters, journal, collecting := false } ∧
        counters.last = some o ∧
        o = { level, reason, marked := m.marked, freed, newlyReady := o.newlyReady } ∧
        pruned.journal.Reports journal [] [.collected level] ∧
        strategy = pruned.strategy.record level heap.objectCounts freed := by
  simp only [collect, run_bind, run_get] at hrun
  obtain ⟨_, _, ⟨rfl, rfl⟩, hrun⟩ := hrun
  split at hrun
  · simp only [run_bind, run_throw, false_and, exists_false] at hrun
  · rename_i hidle
    refine ⟨by simpa using hidle, ?_⟩
    simp only [setPhase, note, run_bind, run_get, run_modify] at hrun
    obtain ⟨_, h₁, e₁, before, h₂, ⟨hbefore, e₂⟩, _, h₃, e₃, _, h₄, hquiesce, _, h₅, e₅, ⟨n, k⟩, h₆,
      hmark, _, h₇, e₇, freed, h₈, hsweep, _, h₉, ⟨hsame, e₉⟩, kept, pruned, hprune, _, h₁₀, e₁₀,
      _, h₁₁, e₁₁, _, h₁₂, e₁₂, _, h₁₃, e₁₃, _, h₁₄, ⟨hsame', e₁₄⟩, hrun⟩ := hrun
    subst e₁ e₂ hbefore e₃
    obtain ⟨waits, hquiet⟩ := run_quiesce level { heap with
      collecting := true, counters := { heap.counters with phase := .quiescing } }
    rw [hquiet, Except.ok.injEq, Prod.mk.injEq] at hquiesce
    obtain ⟨-, rfl⟩ := hquiesce
    subst e₅
    obtain ⟨cleared, m, hbooks, hcells, hmarking, rfl, rfl⟩ := run_markAll hmark
    subst e₇ hsame e₉ e₁₀ e₁₁ e₁₂ e₁₃ hsame' e₁₄
    have hend : ∃ counters journal, o = { level, reason, marked := m.marked, freed, newlyReady := n } ∧
        heap' = { pruned with
          remembered := kept.toArray
          strategy := pruned.strategy.record level heap.objectCounts freed
          counters, journal, collecting := false } ∧ counters.last = some o ∧
        pruned.journal.Reports journal [] [.collected level] := by
      have hreports := Journal.Reports.record pruned.journal (.collected level)
      split at hrun
      · simp only [run_bind, run_get, run_modify, run_pure] at hrun
        obtain ⟨_, _, hstats, _, _, ⟨rfl, rfl⟩, _, _, rfl, _, _, rfl, rfl, rfl⟩ := hrun
        obtain rfl := run_stats hstats
        exact ⟨_, _, rfl, rfl, rfl, hreports.observing, hreports.freed, hreports.history⟩
      · simp only [run_bind, run_modify, run_pure] at hrun
        obtain ⟨_, _, rfl, rfl, rfl⟩ := hrun
        exact ⟨_, _, rfl, rfl, rfl, hreports.observing, hreports.freed, hreports.history⟩
    obtain ⟨counters, journal, rfl, rfl, hlast, hreports⟩ := hend
    exact ⟨cleared, m, freed, h₈, waits, _, hbooks, hcells, hmarking, hsweep, kept, pruned, _,
      counters, journal, hprune, rfl, hlast, rfl, hreports, rfl⟩

end HeapM

end ManagedHeap
