import ManagedHeap.Proofs.FaultAnalysis
import ManagedHeap.Proofs.StringCacheInvariant

/-!
# Collections miss no string

Only taking a string out of the cache can miss it there. The other phases of a collection have
nothing to do with the cache, and the sweep of a heap with filed strings comes to its end.
-/

namespace ManagedHeap

variable {σ α β : Type} {P : σ → Prop} {Q : α → σ → Prop} {R : β → σ → Prop}

abbrev Finds (P : σ → Prop) (act : StateT σ (Except Fault) α) (Q : α → σ → Prop) : Prop :=
  FailsIn Fault.Finds P act Q

abbrev Apart (act : StateT σ (Except Fault) α) : Prop := StopsAt Fault.Finds act

namespace Arena

variable {a : Arena} {h : Handle} {e : Fault}

theorem finds_weakFields (he : a.weakFields h = .error e) : e.Finds := by
  rcases except_bind_error he with he | ⟨c, -, he⟩
  · exact (ordinary_get he).1
  · split at he
    · exact nomatch he
    · obtain rfl := Except.error.inj he
      exact fun _ => nofun

theorem finds_recordsFrom {n : Nat} (he : a.recordsFrom h n = .error e) : e.Finds := by
  induction n generalizing h e with
  | zero =>
    unfold recordsFrom at he
    split at he
    · cases he
    · obtain rfl := Except.error.inj he
      exact fun _ hno => by cases hno
  | succ n ih =>
    unfold recordsFrom at he
    split at he
    · cases he
    · rcases except_bind_error he with he | ⟨fields, -, he⟩
      · exact finds_weakFields he
      · rcases except_bind_error he with he | ⟨rest, -, he⟩
        · exact ih he
        · cases he

theorem finds_weakRecords {chain : WeakChain} (he : a.weakRecords chain = .error e) : e.Finds := by
  rcases except_bind_error he with he | ⟨records, -, he⟩
  · exact finds_recordsFrom he
  · split at he
    · obtain rfl := Except.error.inj he
      exact fun _ => nofun
    · exact nomatch he

end Arena

namespace MarkM

variable {s : Scan} {h : Handle}

theorem apart_weakFields : Apart (weakFields h) :=
  .bind .get fun _ => .lift fun _ => Arena.finds_weakFields

theorem apart_keepValues (rs : List Handle) : Apart (keepValues s rs) := by
  induction rs with
  | nil => exact .pure
  | cons r rs ih =>
    rw [keepValues]
    have hrest : ∀ changed : Bool, Apart (do
        let later ← keepValues s rs
        return changed || later : MarkM Bool) := fun _ => .bind ih fun _ => .pure
    refine .bind (.finds tame_cell) fun c => ?_
    split
    · exact .bind .pure fun _ => hrest _
    · refine .bind apart_weakFields fun fields => .bind (.finds tame_isMarked) fun marked => ?_
      split
      · exact .bind (.finds tame_mark) fun _ => .bind (.finds tame_mark) fun _ => .bind .pure fun _ => hrest _
      · exact .bind .pure fun _ => hrest _

theorem apart_settleValues {records : List Handle} (passes : Nat) :
    Apart (settleValues s records passes) := by
  induction passes with
  | zero => exact .throw fun _ => nofun
  | succ passes ih =>
    refine .bind (apart_keepValues records) fun changed => .bind (.finds tame_drain) fun _ => ?_
    split
    · exact ih
    · exact .pure

theorem apart_flagReady (rs : List Handle) : Apart (flagReady s rs) := by
  induction rs with
  | nil => exact .pure
  | cons r rs ih =>
    rw [flagReady]
    refine .bind apart_weakFields fun fields => .bind (.finds tame_cell) fun c => ?_
    dsimp only
    have hrest : ∀ flagged : Nat, Apart (do
        return flagged + (← flagReady s rs) : MarkM Nat) := fun _ => .bind ih fun _ => .pure
    split
    · exact .bind .pure fun _ => hrest _
    · refine .bind (.finds tame_isMarked) fun marked => ?_
      split
      · exact .bind .pure fun _ => hrest _
      · exact .bind (.finds tame_updateCell) fun _ => .bind .pure fun _ => hrest _

theorem apart_keepReady (rs : List Handle) : Apart (keepReady s rs) := by
  induction rs with
  | nil => exact .pure
  | cons r rs ih =>
    rw [keepReady]
    refine .bind (.finds tame_cell) fun c => ?_
    split
    · exact .bind apart_weakFields fun _ => .bind (.finds (tame_markAll _)) fun _ => ih
    · exact ih

theorem apart_resolveWeak {chain : WeakChain} : Apart (resolveWeak s chain) :=
  .bind .get fun _ => .bind (.lift fun _ => Arena.finds_weakRecords) fun records =>
    .bind (.finds (tame_markAll records)) fun _ => .bind (.finds tame_drain) fun _ =>
    .bind (apart_settleValues _) fun _ => .bind (apart_flagReady records) fun _ =>
    .bind (apart_keepReady records) fun _ => .bind (.finds tame_drain) fun _ => .pure

end MarkM

namespace HeapM

variable {h : Handle} {heap : Heap} {level : ManagedHeap.Level} {reason : Reason}

theorem apart_markAll : Apart (markAll level) :=
  .bind .get fun _ => .bind (.finds (.clearLookupCaches _)) fun _ => .bind (.bind .get fun _ => .pure)
    fun _ => failsIn_marking (StopsAt.bind (.finds MarkM.tame_markRoots) fun _ =>
      .bind (.finds MarkM.tame_markTasks) fun _ => MarkM.apart_resolveWeak)

theorem apart_stats : Apart stats := by
  have hready : ∀ rs acc : List Handle, Apart
      (List.filterAuxM (fun r => return (← flags r).readyToFinalize) rs acc : HeapM (List Handle)) := by
    intro rs
    induction rs with
    | nil => exact fun _ => .pure
    | cons r rs ih =>
      exact fun acc => .bind (.bind (.finds .flags) fun _ => .pure) fun b => ih _
  refine .bind (.bind (.bind .get fun _ => .lift fun _ => Arena.finds_weakRecords)
    fun records => .bind (.bind (hready records []) fun _ => .pure) fun _ => .pure) fun _ =>
    .bind .get fun _ => .pure

theorem finds_collect (hs : heap.Sound) (hf : heap.CacheExact) :
    Finds (· = heap) (collect level reason) fun _ _ => True := by
  let opened : Heap := { heap with
    collecting := true, counters := { heap.counters with phase := .quiescing } }
  obtain ⟨waits, hquiesce⟩ := run_quiesce level opened
  let quiet : Heap := { opened with
    tasks := opened.quietTasks level
    counters := { opened.counters with taskWaits := waits, phase := .marking } }
  unfold collect
  refine .bind (Q := fun now s => now = heap ∧ s = heap) (.get fun s hs => ⟨hs, hs⟩) fun now => ?_
  dsimp only
  split
  · exact .bind (Q := fun _ _ => False) (.throw fun _ => nofun) fun _ _ => nofun
  refine .bind (Q := fun _ s => s = { heap with collecting := true })
    (.modify fun s hs => by rw [hs.2]) fun _ => ?_
  refine .bind (Q := fun _ s => s = { heap with collecting := true }) (.get fun _ => id)
    fun before => ?_
  refine .bind (Q := fun _ s => s = opened) (.modify fun s hs => by rw [hs]) fun _ => ?_
  refine .bind (Q := fun _ s => s = { opened with
      tasks := opened.quietTasks level
      counters := { opened.counters with taskWaits := waits } }) (.of_ends ?_) fun _ => ?_
  · rintro _ rfl
    exact ⟨_, _, hquiesce, rfl⟩
  refine .bind (Q := fun _ s => s = quiet) (.modify fun s hs => by rw [hs]) fun _ => ?_
  refine .bind (Q := fun _ s => ∀ counters, Heap.Sweeps heap.strings.hash { s with counters })
    (apart_markAll.and_ends ?_) fun result => ?_
  · rintro _ ⟨n, k⟩ s rfl hmark
    obtain ⟨cleared, m, hbooks, hcells, hrun, -, rfl⟩ := run_markAll hmark
    exact fun counters => sweeps_marked hs hf hbooks hcells hrun
  refine .bind (Q := fun _ => Heap.Sweeps heap.strings.hash) (.modify fun s hs => hs _) fun _ => ?_
  refine .bind (Q := fun _ _ => True) (.of_ends fun s hsweeps => ?_) fun freed => ?_
  · obtain ⟨freed, s', hrun, -⟩ := ends_sweep level s hsweeps
    exact ⟨freed, s', hrun, trivial⟩
  refine StopsAt.bind .get fun swept => .bind (.finds (.pruneRemembered _)) fun kept =>
    .bind .modify fun _ => .bind .modify fun _ => .bind .modify fun _ => .bind .modify fun _ =>
    .bind .get fun now => ?_
  split
  · exact .bind apart_stats fun _ => .bind .get fun _ => .bind .modify fun _ =>
      .bind .modify fun _ => .pure
  · exact .bind .modify fun _ => .pure

end HeapM

end ManagedHeap
