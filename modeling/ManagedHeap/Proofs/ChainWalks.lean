import ManagedHeap.Proofs.StringSearches
import ManagedHeap.Proofs.HostWeakRuns

/-!
# Walks along the chain

Where the chain of weak records can be read, every walk along it comes to its end: the records are
listed, a record is found from any hint that is on the chain, and a collection goes through them
without a fault that a broken chain would show in.
-/

namespace ManagedHeap

namespace Heap.Chain

variable {heap : Heap} {records : List Handle} {r : Handle}

theorem record (hc : heap.Chain records) (hr : r ∈ records) :
    r ≠ .nil ∧ ∃ f, heap.fieldsOf r = some f := hc.strung.fields_of_mem hr

theorem length_le (hc : heap.Chain records) (hs : heap.Sound) :
    records.length ≤ heap.arena.capacity := by
  refine Arena.length_le_capacity hs.tidy hc.once fun h hh => ?_
  obtain ⟨-, f, hf⟩ := hc.record hh
  obtain ⟨c, hcell, -⟩ := Option.bind_eq_some_iff.mp hf
  exact ⟨c, hcell⟩

end Heap.Chain

theorem Heap.Readable.aside {heap heap' : Heap} (hr : heap.Readable)
    (harena : heap'.arena = heap.arena) (hweak : heap'.weak = heap.weak) : heap'.Readable := by
  obtain ⟨records, hc⟩ := hr
  have hkeeps : heap.Preserves heap' := .aside harena hweak
  exact ⟨records, hkeeps.chain hc⟩

namespace HeapM

variable {heap heap' : Heap} {record hint previous cursor r : Handle} {records rs : List Handle}
  {f : WeakFields}

theorem run_chainFields :
    (chainFields r).run heap = .ok (f, heap') ↔ heap.fieldsOf r = some f ∧ heap' = heap := by
  simp only [chainFields, run_bind, run_get, run_lift, Arena.weakFields_eq_ok,
    Heap.fieldsOf_eq_some]
  constructor
  · rintro ⟨_, _, ⟨rfl, rfl⟩, hf, rfl⟩
    exact ⟨hf, rfl⟩
  · rintro ⟨hf, rfl⟩
    exact ⟨_, _, ⟨rfl, rfl⟩, hf, rfl⟩

theorem ends_searchPredecessor {fuel : Nat} (hs : Strung heap.fieldsOf cursor rs)
    (hr : record ∈ rs) (hfuel : rs.length ≤ fuel) :
    ∃ p, (searchPredecessor record previous cursor fuel).run heap = .ok (p, heap) := by
  induction fuel generalizing previous cursor rs with
  | zero =>
    rw [List.length_eq_zero_iff.mp (Nat.le_zero.mp hfuel)] at hr
    cases hr
  | succ fuel ih =>
    unfold searchPredecessor
    by_cases hfound : cursor = record
    · rw [if_pos hfound]
      exact ⟨previous, rfl⟩
    · have hnil : cursor ≠ .nil := by
        rintro rfl
        rw [hs.of_nil] at hr
        cases hr
      obtain ⟨f, tail, rfl, hf, htail⟩ := hs.of_ne_nil hnil
      rw [if_neg hfound, if_neg (by simpa [Handle.isNil] using hnil)]
      obtain ⟨p, hp⟩ : ∃ p, (searchPredecessor record cursor f.next fuel).run heap =
          .ok (p, heap) :=
        ih htail ((List.mem_cons.mp hr).resolve_left (Ne.symm hfound)) (by simpa using hfuel)
      exact ⟨p, run_bind.mpr ⟨f, heap, run_chainFields.mpr ⟨hf, rfl⟩, hp⟩⟩

theorem ends_predecessor (hs : heap.Sound) (hc : heap.Chain records) (hr : record ∈ records)
    (hhint : hint = .nil ∨ hint ∈ records) :
    ∃ p, (predecessor record hint).run heap = .ok (p, heap) := by
  obtain ⟨next, hnext⟩ : ∃ next, (chainAfter hint).run heap = .ok (next, heap) := by
    unfold chainAfter
    rcases hhint with rfl | hhint
    · exact ⟨heap.weak.head, rfl⟩
    · obtain ⟨hnil, f, hf⟩ := hc.record hhint
      rw [if_neg (by simpa [Handle.isNil] using hnil)]
      exact ⟨f.next, run_bind.mpr ⟨f, heap, run_chainFields.mpr ⟨hf, rfl⟩, rfl⟩⟩
  have hlength := hc.length_le hs
  obtain ⟨p, hp⟩ : ∃ p, (searchPredecessor record .nil heap.weak.head
      (heap.arena.capacity + 1)).run heap = .ok (p, heap) :=
    ends_searchPredecessor hc.strung hr (by omega)
  unfold predecessor
  by_cases hfound : next = record
  · refine ⟨hint, run_bind.mpr ⟨next, heap, hnext, ?_⟩⟩
    rw [if_pos hfound]
    rfl
  · refine ⟨p, run_bind.mpr ⟨next, heap, hnext, ?_⟩⟩
    rw [if_neg hfound]
    exact run_bind.mpr ⟨heap, heap, rfl, run_bind.mpr ⟨_, heap, run_walkBound.mpr ⟨rfl, rfl⟩, hp⟩⟩

theorem ends_updateCell {h : Handle} {c : Cell} {g : Cell → Cell}
    (hc : heap.arena.get? h = some c) : (updateCell h g).run heap =
      .ok (⟨⟩, { heap with arena := heap.arena.setCell h g }) := run_updateCell.mpr ⟨⟨c, hc⟩, rfl⟩

theorem ends_unlinkWeakRef (hs : heap.Sound) (hc : heap.Chain records) (hr : record ∈ records)
    (hhint : hint = .nil ∨ hint ∈ records) :
    ∃ heap', (unlinkWeakRef record hint).run heap = .ok (⟨⟩, heap') ∧
      heap'.Chain (records.erase record) ∧ heap'.fieldsOf record = some .empty := by
  obtain ⟨hne, f, hf⟩ := hc.record hr
  obtain ⟨c, hcell, -⟩ := Option.bind_eq_some_iff.mp hf
  obtain ⟨p, hp⟩ := ends_predecessor hs hc hr hhint
  -- once the record in front leads past it, the record is emptied
  have hlast : ∀ (mid : Heap) {d : Cell}, mid.arena.get? record = some d → ∃ heap',
      (clearRecord record c.flags.readyToFinalize).run mid = .ok (⟨⟩, heap') := fun _ _ hd =>
    ⟨_, run_bind.mpr ⟨⟨⟩, _, ends_updateCell hd, rfl⟩⟩
  obtain ⟨heap', hrun⟩ : ∃ heap', (unlinkWeakRef record hint).run heap = .ok (⟨⟩, heap') := by
    have hstart : ∀ {heap'}, (do
        if p.isNil then
          modify fun heap => { heap with weak := { heap.weak with head := f.next } }
        else
          updateCell p (Cell.relinked f.next)
        clearRecord record c.flags.readyToFinalize : HeapM PUnit).run heap = .ok (⟨⟩, heap') →
        (unlinkWeakRef record hint).run heap = .ok (⟨⟩, heap') := fun hrest =>
      run_bind.mpr ⟨f, heap, run_chainFields.mpr ⟨hf, rfl⟩, run_bind.mpr ⟨p, heap, hp,
        run_bind.mpr ⟨c.flags, heap, run_flags.mpr ⟨c, hcell, rfl, rfl⟩, hrest⟩⟩⟩
    rcases run_predecessor hp with ⟨rfl, -⟩ | ⟨hnil, g, hg, -⟩
    · obtain ⟨heap', hend⟩ := hlast { heap with weak := { heap.weak with head := f.next } } hcell
      exact ⟨heap', hstart (run_bind.mpr ⟨⟨⟩, _, rfl, hend⟩)⟩
    · obtain ⟨d, hd, -⟩ := Option.bind_eq_some_iff.mp hg
      have hrecord : ∃ e, (heap.arena.setCell p (Cell.relinked f.next)).get? record = some e := by
        rw [Arena.get?_setCell fun c => by rw [Cell.relinked_eq]; rfl]
        split
        · exact ⟨_, by rw [hcell]; rfl⟩
        · exact ⟨c, hcell⟩
      obtain ⟨e, he⟩ := hrecord
      obtain ⟨heap', hend⟩ := hlast
        { heap with arena := heap.arena.setCell p (Cell.relinked f.next) } he
      refine ⟨heap', hstart ?_⟩
      rw [if_neg (by simpa [Handle.isNil] using hnil)]
      exact run_bind.mpr ⟨⟨⟩, _, ends_updateCell hd, hend⟩
  obtain ⟨-, hself, -, -, hchain, -⟩ := unlinked_unlinkWeakRef hne hf hrun
  exact ⟨heap', hrun, (hchain hc).2, hself⟩

end HeapM

namespace Arena

variable {a : Arena} {r : Handle} {rs : List Handle}

theorem record_of_recordsFrom {cursor : Handle} {n : Nat} (hrs : a.recordsFrom cursor n = .ok rs)
    (hr : r ∈ rs) : ∃ f, a.Record r f := by
  induction n generalizing cursor rs with
  | zero =>
    unfold recordsFrom at hrs
    split at hrs
    · rw [← Except.ok.inj hrs] at hr
      cases hr
    · cases hrs
  | succ n ih =>
    unfold recordsFrom at hrs
    split at hrs
    · rw [← Except.ok.inj hrs] at hr
      cases hr
    · simp only [except_bind, weakFields_eq_ok, pure, Except.pure, Except.ok.injEq] at hrs
      obtain ⟨f, hf, tail, htail, rfl⟩ := hrs
      rcases List.mem_cons.mp hr with rfl | hr
      · exact ⟨f, hf⟩
      · exact ih htail hr

theorem record_of_weakRecords {chain : WeakChain} (hrs : a.weakRecords chain = .ok rs)
    (hr : r ∈ rs) : ∃ f, a.Record r f := by
  simp only [weakRecords, except_bind] at hrs
  obtain ⟨records, hrecords, hrs⟩ := hrs
  split at hrs
  · cases hrs
  · obtain rfl := Except.ok.inj hrs
    exact record_of_recordsFrom hrecords hr

theorem record_setCell {h : Handle} {g : Cell → Cell} {f : WeakFields}
    (hpayload : ∀ c, (g c).payload = c.payload) (hfree : ∀ c, (g c).isFree = c.isFree)
    (hr : a.Record r f) : (a.setCell h g).Record r f := by
  obtain ⟨c, hc, hp⟩ := hr
  rw [Record, get?_setCell hfree]
  split
  · exact ⟨g c, by rw [hc]; rfl, (hpayload c).trans hp⟩
  · exact ⟨c, hc, hp⟩

end Arena

namespace MarkM

variable {s : Scan} {chain : WeakChain} {rs : List Handle} {h r : Handle}

def Lists (chain : WeakChain) (rs : List Handle) (m : Marking) : Prop :=
  m.arena.weakRecords chain = .ok rs

def Walks (chain : WeakChain) (rs : List Handle) {α : Type} (act : MarkM α) : Prop :=
  FailsIn Fault.OffChain (Lists chain rs) act fun _ => Lists chain rs

namespace Walks

variable {α β : Type} {x : MarkM α} {f : α → MarkM β}

theorem bind (hx : Walks chain rs x) (hf : ∀ a, Walks chain rs (f a)) : Walks chain rs (x >>= f) :=
  FailsIn.bind hx hf

theorem pure {a : α} : Walks chain rs (pure a) := FailsIn.pure fun _ => id

theorem get : Walks chain rs get := FailsIn.get fun _ => id

theorem throw {e : Fault} (he : e.OffChain) : Walks chain rs (throw e : MarkM α) := FailsIn.throw he

theorem modify {g : Marking → Marking} (hg : ∀ m, (g m).arena = m.arena) :
    Walks chain rs (modify g) := FailsIn.modify fun m hm => by rwa [Lists, hg]

theorem cell : Walks chain rs (cell h) := tame_cell.failsIn (fun _ he => he.2) fun m c m' hm hrun => by
  obtain ⟨-, rfl⟩ := run_cell.mp hrun
  exact hm

theorem updateCell {g : Cell → Cell} (hpayload : ∀ c, (g c).payload = c.payload)
    (hfree : ∀ c, (g c).isFree = c.isFree) : Walks chain rs (updateCell h g) :=
  tame_updateCell.failsIn (fun _ he => he.2) fun m u m' hm hrun => by
    obtain ⟨-, rfl⟩ := run_updateCell.mp hrun
    exact Arena.weakRecords_congr (Arena.record_setCell hpayload hfree) hm

theorem isMarked : Walks chain rs (isMarked s h) := bind cell fun _ => pure

theorem mark : Walks chain rs (mark s h) := by
  unfold MarkM.mark
  split
  · exact pure
  · refine bind (updateCell (fun _ => rfl) fun _ => rfl) fun _ => bind cell fun c => ?_
    dsimp only
    split
    · exact pure
    · exact bind (updateCell (fun _ => rfl) fun _ => rfl) fun _ => bind (modify fun _ => rfl)
        fun _ => pure

theorem markAll (hs : List Handle) : Walks chain rs (markAll s hs) := by
  induction hs with
  | nil => exact pure
  | cons h hs ih => exact bind mark fun _ => ih

theorem markEdges : Walks chain rs (markEdges s h) := bind cell fun _ => markAll _

theorem drain : Walks chain rs (drain s) := by
  have hwithin : ∀ fuel, Walks chain rs (drainWithin s fuel) := by
    intro fuel
    induction fuel with
    | zero =>
      refine bind get fun m => ?_
      split
      · exact throw id
      · exact pure
    | succ fuel ih =>
      refine bind get fun m => ?_
      split
      · exact pure
      · exact bind (modify fun _ => rfl) fun _ => bind markEdges fun _ => ih
  exact bind get fun m => hwithin _

theorem markRoots {roots remembered : List Handle} : Walks chain rs (markRoots s roots remembered) := by
  have hremembered : ∀ hs, Walks chain rs (markRemembered s hs) := by
    intro hs
    induction hs with
    | nil => exact pure
    | cons h hs ih =>
      rw [markRemembered]
      refine bind get fun m => ?_
      dsimp only
      split
      · split
        · exact bind markEdges fun _ => ih
        · exact ih
      · exact ih
  exact bind (markAll _) fun _ => bind drain fun _ => bind (hremembered _) fun _ => drain

theorem markTasks {tasks : Tasks} : Walks chain rs (markTasks s tasks) := by
  have hheld : ∀ hs, Walks chain rs (markHeld s tasks hs) := by
    intro hs
    induction hs with
    | nil => exact pure
    | cons h hs ih =>
      refine bind get fun m => ?_
      dsimp only
      split
      · exact bind (updateCell (fun _ => rfl) fun _ => rfl) fun _ => bind mark fun _ => ih
      · exact ih
  exact bind (hheld _) fun _ => drain

theorem weakFields (hr : r ∈ rs) : Walks chain rs (weakFields r) := by
  refine .of_ends fun m hm => ?_
  obtain ⟨f, hf⟩ := Arena.record_of_weakRecords hm hr
  exact ⟨f, m, run_weakFields.mpr ⟨hf, rfl⟩, hm⟩

theorem keepValues {some : List Handle} (hsub : some ⊆ rs) : Walks chain rs (keepValues s some) := by
  induction some with
  | nil => exact pure
  | cons r some ih =>
    obtain ⟨hr, hrest⟩ := List.cons_subset.mp hsub
    rw [MarkM.keepValues]
    have hlater : ∀ changed : Bool, Walks chain rs (do
        let later ← MarkM.keepValues s some
        return changed || later : MarkM Bool) := fun _ => bind (ih hrest) fun _ => pure
    refine bind cell fun c => ?_
    split
    · exact bind pure fun _ => hlater _
    · refine bind (weakFields hr) fun fields => bind isMarked fun marked => ?_
      split
      · exact bind mark fun _ => bind mark fun _ => bind pure fun _ => hlater _
      · exact bind pure fun _ => hlater _

theorem settleValues (passes : Nat) : Walks chain rs (settleValues s rs passes) := by
  induction passes with
  | zero => exact throw id
  | succ passes ih =>
    refine bind (keepValues fun _ => id) fun changed => bind drain fun _ => ?_
    split
    · exact ih
    · exact pure

theorem flagReady {some : List Handle} (hsub : some ⊆ rs) : Walks chain rs (flagReady s some) := by
  induction some with
  | nil => exact pure
  | cons r some ih =>
    obtain ⟨hr, hrest⟩ := List.cons_subset.mp hsub
    rw [MarkM.flagReady]
    refine bind (weakFields hr) fun fields => bind cell fun c => ?_
    dsimp only
    have hlater : ∀ flagged : Nat, Walks chain rs (do
        return flagged + (← MarkM.flagReady s some) : MarkM Nat) := fun _ => bind (ih hrest) fun _ => pure
    split
    · exact bind pure fun _ => hlater _
    · refine bind isMarked fun marked => ?_
      split
      · exact bind pure fun _ => hlater _
      · exact bind (updateCell (fun _ => rfl) fun _ => rfl) fun _ => bind pure fun _ => hlater _

theorem keepReady {some : List Handle} (hsub : some ⊆ rs) : Walks chain rs (keepReady s some) := by
  induction some with
  | nil => exact pure
  | cons r some ih =>
    obtain ⟨hr, hrest⟩ := List.cons_subset.mp hsub
    rw [MarkM.keepReady]
    refine bind cell fun c => ?_
    split
    · exact bind (weakFields hr) fun _ => bind (markAll _) fun _ => ih hrest
    · exact ih hrest

theorem resolveWeak : Walks chain rs (resolveWeak s chain) := by
  refine FailsIn.bind (Q := fun now m => Lists chain rs m ∧ now = m) (.get fun m hm => ⟨hm, rfl⟩)
    fun now => FailsIn.bind (Q := fun records m => Lists chain rs m ∧ records = rs)
      (.of_ends ?_) fun records => ?_
  · rintro m ⟨hm, rfl⟩
    exact ⟨rs, now, run_lift.mpr ⟨hm, rfl⟩, hm, rfl⟩
  · intro m ⟨hm, hrecords⟩
    subst hrecords
    have hrest : Walks chain records (do
        MarkM.markAll s records
        MarkM.drain s
        MarkM.settleValues s records (records.length + 1)
        let ready ← MarkM.flagReady s records
        MarkM.keepReady s records
        MarkM.drain s
        return ready : MarkM Nat) :=
      bind (markAll records) fun _ => bind drain fun _ => bind (settleValues _) fun _ =>
        bind (flagReady fun _ => id) fun _ => bind (keepReady fun _ => id) fun _ =>
        bind drain fun _ => pure
    exact hrest m hm

end Walks

end MarkM

namespace HeapM

variable {heap heap' : Heap} {h : Handle} {level : ManagedHeap.Level} {reason : Reason}

section

variable {large : Bool}

theorem offChain_mayRelease {c : Cell} : StopsAt Fault.OffChain (mayRelease h c) := by
  have hunlink : ∀ fuel next cursor, StopsAt Fault.OffChain (unlinkString h next cursor fuel) := by
    intro fuel
    induction fuel with
    | zero => exact fun _ _ => .throw id
    | succ fuel ih =>
      intro next cursor
      unfold unlinkString
      split
      · exact .throw_bind id
      · refine .bind (.offChain .cell) fun c => ?_
        dsimp only
        split
        · exact .offChain .updateCell
        · exact ih next c.attrib
  unfold mayRelease
  split
  · unfold evictString
    split
    · exact .pure
    · refine .bind (.offChain .cachedHash) fun hash => .bind .get fun heap =>
        .bind (.offChain .cell) fun c => ?_
      dsimp only
      split
      · exact .bind .modify fun _ => .bind .modify fun _ => .pure
      · exact .bind (.offChain .walkBound) fun fuel => .bind (hunlink fuel _ _) fun _ =>
          .bind .modify fun _ => .pure
  · exact .pure

theorem tame_reclaim {kind : Kind} {generation : Generation} {chunks : Nat} :
    Tame (reclaim h kind generation chunks) := by
  refine .bind .modify fun _ => .bind (.onArena fun a e he => ?_) fun _ => .modify
  have hrelease : a.release h = .error e := by
    cases hr : a.release h with
    | ok b =>
      rw [hr] at he
      cases he
    | error e' =>
      rw [hr] at he
      exact congrArg Except.error (Except.error.inj he)
  unfold Arena.release at hrelease
  split at hrelease
  · obtain rfl := Except.error.inj hrelease
    exact ⟨fun _ => nofun, id⟩
  · dsimp only at hrelease
    split at hrelease
    · obtain rfl := Except.error.inj hrelease
      exact ⟨fun _ => nofun, id⟩
    · split at hrelease
      · obtain rfl := Except.error.inj hrelease
        exact ⟨fun _ => nofun, id⟩
      · cases hrelease

theorem tame_promote {source target : Generation} {chunks : Nat} :
    Tame (promote h source target chunks) := .bind .get fun _ => .bind .updateCell fun _ => .modify

theorem offChain_sweepCell : StopsAt Fault.OffChain (sweepCell level large h) := by
  refine .bind .get fun heap => ?_
  split
  · exact .pure
  · rename_i c _
    dsimp only
    split
    · exact .pure
    · have hend : ∀ released : Bool, StopsAt Fault.OffChain (if released then do
          reclaim h c.header.kind c.header.generation (bigChunksOf large c)
          return some c.header.generation
        else do
          promote h c.header.generation level.promotionTarget (bigChunksOf large c)
          return none : HeapM (Option Generation)) := by
        intro released
        split
        · exact .bind (.offChain tame_reclaim) fun _ => .pure
        · exact .bind (.offChain tame_promote) fun _ => .pure
      split
      · exact .bind .pure hend
      · exact .bind offChain_mayRelease hend

theorem offChain_sweep : StopsAt Fault.OffChain (sweep level) := by
  have hoffsets : ∀ large i offsets freed,
      StopsAt Fault.OffChain (sweepOffsets level large i offsets freed) := by
    intro large i offsets
    induction offsets with
    | nil => exact fun _ => .pure
    | cons offset offsets ih =>
      intro freed
      refine .bind offChain_sweepCell fun lost => ?_
      cases lost with
      | none => exact ih freed
      | some g => exact ih _
  have hsegments : ∀ indices freed, StopsAt Fault.OffChain (sweepSegments level indices freed) := by
    intro indices
    induction indices with
    | nil => exact fun _ => .pure
    | cons i indices ih =>
      intro freed
      refine .bind .get fun heap => ?_
      split
      · exact ih freed
      · exact .bind (hoffsets _ i _ freed) fun freed => ih freed
  exact .bind .get fun heap => hsegments _ _

end

theorem offChain_markAll {records : List Handle} (hc : heap.Chain records) :
    FailsIn Fault.OffChain (· = heap) (markAll level) fun _ _ => True := by
  refine .bind (Q := fun now s => now = heap ∧ s = heap) (.get fun s hs => ⟨hs, hs⟩) fun now => ?_
  refine .bind (Q := fun _ s => now = heap ∧ ∃ arena, s = { heap with arena } ∧
      arena.weakRecords heap.weak = .ok records) ?_ fun _ => ?_
  · rintro s ⟨rfl, rfl⟩
    refine ⟨fun e he => (Tame.clearLookupCaches _ _ e he).2, fun u s' hrun => ⟨rfl, ?_⟩⟩
    obtain ⟨arena, rfl, hbooks, hcells⟩ := run_clearLookupCaches hrun
    exact ⟨arena, rfl, Arena.weakRecords_congr
      (fun hr => (cleared_sameBut hbooks hcells).record_cleared hr) hc.listed⟩
  refine .bind (Q := fun _ s => now = heap ∧ ∃ arena, s = { heap with arena } ∧
      arena.weakRecords heap.weak = .ok records) ?_ fun roots => ?_
  · exact .bind (.get fun s hs => hs) fun _ => .pure fun s hs => hs
  · have hwalks : MarkM.Walks now.weak records (do
        MarkM.markRoots (now.scan level) roots now.remembered.toList
        MarkM.markTasks (now.scan level) now.tasks
        MarkM.resolveWeak (now.scan level) now.weak : MarkM Nat) :=
      .bind .markRoots fun _ => .bind .markTasks fun _ => .resolveWeak
    refine (failsIn_marking hwalks).conseq ?_ fun _ _ => id
    rintro _ ⟨rfl, arena, rfl, hlists⟩
    exact hlists

theorem offChain_pendingFinalizerCount :
    FailsIn Fault.OffChain Heap.Readable pendingFinalizerCount fun _ _ => True := by
  have hready : ∀ rs acc : List Handle, Tame
      (List.filterAuxM (fun r => return (← flags r).readyToFinalize) rs acc : HeapM (List Handle)) := by
    intro rs
    induction rs with
    | nil => exact fun _ => .pure
    | cons r rs ih =>
      exact fun acc => .bind (.bind .flags fun _ => .pure) fun b => ih _
  refine .bind (Q := fun _ _ => True) (.of_ends ?_) fun records =>
    StopsAt.bind (.bind (.offChain (hready records [])) fun _ => .pure) fun _ => .pure
  rintro heap ⟨records, hc⟩
  exact ⟨records, heap, run_weakRecords.mpr ⟨hc.listed, rfl⟩, trivial⟩

theorem offChain_stats : FailsIn Fault.OffChain Heap.Readable stats fun _ _ => True :=
  .bind offChain_pendingFinalizerCount fun _ => StopsAt.bind .get fun _ => .pure

theorem offChain_collect (hs : heap.Sound) (hc : heap.Readable) :
    FailsIn Fault.OffChain (· = heap) (collect level reason) fun _ _ => True := by
  obtain ⟨records, hc⟩ := hc
  let opened : Heap := { heap with
    collecting := true, counters := { heap.counters with phase := .quiescing } }
  obtain ⟨waits, hquiesce⟩ := run_quiesce level opened
  let quiet : Heap := { opened with
    tasks := opened.quietTasks level
    counters := { opened.counters with taskWaits := waits, phase := .marking } }
  have hquiet : heap.Preserves quiet := .aside rfl rfl
  unfold collect
  refine .bind (Q := fun now s => now = heap ∧ s = heap) (.get fun s hs => ⟨hs, hs⟩) fun now => ?_
  dsimp only
  split
  · exact .throw_bind id
  refine .bind (Q := fun _ s => s = { heap with collecting := true })
    (.modify fun s hs => by rw [hs.2]) fun _ => ?_
  refine .bind (Q := fun _ s => s = { heap with collecting := true }) (.get fun _ => id)
    fun before => ?_
  refine .bind (Q := fun _ s => s = opened) (.modify fun s hs => by rw [hs]) fun _ => ?_
  refine .bind (Q := fun _ s => s = { opened with
      tasks := opened.quietTasks level
      counters := { opened.counters with taskWaits := waits } }) (.of_ends ?_) fun _ => ?_
  · rintro _ rfl
    exact ⟨_, _, hquiesce, rfl⟩
  refine .bind (Q := fun _ s => s = quiet) (.modify fun s hs => by rw [hs]) fun _ => ?_
  refine .bind (Q := fun r s => (markAll level).run quiet = .ok (r, s)) ?_ fun result => ?_
  · rintro _ rfl
    have hmarks : FailsIn Fault.OffChain (· = quiet) (markAll level) fun _ _ => True :=
      offChain_markAll (hquiet.chain hc)
    exact ⟨(hmarks _ rfl).1, fun r s hrun => hrun⟩
  refine .bind (Q := fun _ s => ∃ t, (markAll level).run quiet = .ok (result, t) ∧
      s = { t with counters := { t.counters with phase := .sweeping } })
    (.modify fun s hs => ⟨s, hs, rfl⟩) fun _ => ?_
  refine .bind (Q := fun freed s => ∃ t, (markAll level).run quiet = .ok (result, t) ∧
      (sweep level).run { t with counters := { t.counters with phase := .sweeping } } =
        .ok (freed, s)) ?_ fun freed => ?_
  · rintro _ ⟨t, ht, rfl⟩
    exact ⟨(offChain_sweep _ trivial).1, fun freed s hsweep => ⟨t, ht, hsweep⟩⟩
  refine .bind (Q := fun swept s => (∃ t, (markAll level).run quiet = .ok (result, t) ∧
      (sweep level).run { t with counters := { t.counters with phase := .sweeping } } =
        .ok (freed, s)) ∧ swept = s) (.get fun s hs => ⟨hs, rfl⟩) fun swept => ?_
  refine .bind (Q := fun _ => Heap.Readable) ?_ fun kept => ?_
  · rintro _ ⟨⟨t, ht, hsweep⟩, rfl⟩
    refine ⟨fun e he => (Tame.pruneRemembered _ _ e he).2, fun kept pruned hprune => ?_⟩
    obtain ⟨cleared, m, hbooks, hcells, hmark, hcount, rfl⟩ := run_markAll ht
    let outcome : Outcome := { level, reason, marked := result.2, freed, newlyReady := result.1 }
    have hcollected : ∃ rs, Collected level rs heap { pruned with
        remembered := kept.toArray, collecting := false } outcome :=
      collected_of_phases hs hbooks hcells hmark hsweep hprune (by rw [← hcount])
    obtain ⟨rs, hcol⟩ := hcollected
    exact Heap.Readable.aside ⟨records, hcol.collects.chain hc⟩ rfl rfl
  have haside : ∀ {g : Heap → Heap}, (∀ heap, (g heap).arena = heap.arena) →
      (∀ heap, (g heap).weak = heap.weak) →
      FailsIn Fault.OffChain Heap.Readable (modify g) fun _ => Heap.Readable :=
    fun harena hweak => .modify fun s hs => hs.aside (harena s) (hweak s)
  refine .bind (haside (fun _ => rfl) fun _ => rfl) fun _ =>
    .bind (haside (fun _ => rfl) fun _ => rfl) fun _ =>
    .bind (haside (fun _ => rfl) fun _ => rfl) fun _ =>
    .bind (haside (fun _ => rfl) fun _ => rfl) fun _ =>
    .bind (Q := fun _ => Heap.Readable) (.get fun _ => id) fun now => ?_
  split
  · exact .bind offChain_stats fun _ => StopsAt.bind .get fun _ => .bind .modify fun _ =>
      .bind .modify fun _ => .pure
  · exact .bind (haside (fun _ => rfl) fun _ => rfl) fun _ => .pure fun _ _ => trivial

end HeapM

end ManagedHeap
