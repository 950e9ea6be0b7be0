import ManagedHeap.Proofs.GenerationCounts

/-!
# What a collection takes off and reports

The sweep reaches one position after the other. At every one the counters have what the sweep
takes off them, so the accounts are right again in the end; and while an observer is installed,
it hears of the objects that go in the order of their handles, each with its kind.
-/

namespace ManagedHeap

/-- The sweep goes over the positions one by one, and `p` holds at every one that it reaches. -/
inductive Heap.Passes (level : Level) (p : Heap → Handle → Prop) :
    List Handle → Heap → Heap → Prop
  | nil {heap : Heap} : Passes level p [] heap heap
  | cons {heap mid heap' : Heap} {h : Handle} {hs : List Handle} {lost : Option Generation} :
      p heap h → (HeapM.sweepCell level (heap.arena.largeAt h) h).run heap = .ok (lost, mid) →
      Passes level p hs mid heap' → Passes level p (h :: hs) heap heap'

def Arena.reaped (a : Arena) (level : Level) (hs : List Handle) : List (Handle × Kind) :=
  hs.filterMap fun h => ((a.cellAt? h).filter level.frees).map fun c => (h, c.kind)

/-- The objects that are there before and not after, in the order of their handles. -/
def Heap.losses (heap heap' : Heap) : List (Handle × Kind) :=
  heap.arena.positions.filterMap fun h =>
    ((heap.arena.get? h).filter fun _ => !heap'.arena.contains h).map fun c => (h, c.kind)

namespace Heap.Passes

open Arena

variable {level : Level} {p q : Heap → Handle → Prop} {I : Heap → Prop} {heap mid heap' : Heap}
  {h : Handle} {hs hs' : List Handle}

theorem append (hfirst : heap.Passes level p hs mid) (hlast : mid.Passes level p hs' heap') :
    heap.Passes level p (hs ++ hs') heap' := by
  induction hfirst with
  | nil => exact hlast
  | cons hp hrun _ ih => exact .cons hp hrun (ih hlast)

theorem along (hstep : ∀ {heap mid h lost}, I heap → p heap h →
      (HeapM.sweepCell level (heap.arena.largeAt h) h).run heap = .ok (lost, mid) →
      I mid ∧ q heap h) (hI : I heap) (hpasses : heap.Passes level p hs heap') :
    I heap' ∧ heap.Passes level q hs heap' := by
  induction hpasses with
  | nil => exact ⟨hI, .nil⟩
  | cons hp hrun _ ih =>
    obtain ⟨hmid, hq⟩ := hstep hI hp hrun
    obtain ⟨hend, hrest⟩ := ih hmid
    exact ⟨hend, .cons hq hrun hrest⟩

theorem sweepable (hs₀ : heap.Sweepable) (hpasses : heap.Passes level p hs heap') :
    heap'.Sweepable ∧ heap'.arena.shape = heap.arena.shape :=
  (along (I := fun heap' => heap'.Sweepable ∧ heap'.arena.shape = heap.arena.shape) (q := p)
    (fun hI hp hrun => by
      have hswept := (Swept.cell hI.1 hrun).1
      exact ⟨⟨hswept.ready, hswept.shape.trans hI.2⟩, hp⟩) ⟨hs₀, rfl⟩ hpasses).1

theorem largeAt_of_shape {a b : Arena} (hs : b.shape = a.shape) (h : Handle) :
    b.largeAt h = a.largeAt h := by
  rw [largeAt, classAt?_eq_of_shape hs, largeAt]

theorem of_offsets {large : Bool} {segment : Nat} {os : List Nat} {freed freed' : PerGeneration Nat}
    (hs₀ : heap.Sweepable) (hlarge : ∀ o ∈ os, heap.arena.largeAt (.pack segment o) = large)
    (hrun : (HeapM.sweepOffsets level large segment os freed).run heap = .ok (freed', heap')) :
    heap.Passes level (fun _ _ => True) (os.map (Handle.pack segment)) heap' := by
  induction os generalizing heap freed with
  | nil =>
    obtain ⟨-, rfl⟩ := run_pure.mp hrun
    exact .nil
  | cons o os ih =>
    simp only [HeapM.sweepOffsets, run_bind] at hrun
    obtain ⟨lost, next, hcell, hrun⟩ := hrun
    rw [← hlarge o List.mem_cons_self] at hcell
    have hswept := (Swept.cell hs₀ hcell).1
    refine .cons trivial hcell (ih hswept.ready (fun o' ho' => ?_) hrun)
    rw [largeAt_of_shape hswept.shape]
    exact hlarge o' (List.mem_cons_of_mem o ho')

theorem of_segments {is : List Nat} {freed freed' : PerGeneration Nat} (hs₀ : heap.Sweepable)
    (hrun : (HeapM.sweepSegments level is freed).run heap = .ok (freed', heap')) :
    heap.Passes level (fun _ _ => True) (is.flatMap heap.arena.column) heap' := by
  induction is generalizing heap freed with
  | nil =>
    obtain ⟨-, rfl⟩ := run_pure.mp hrun
    exact .nil
  | cons i is ih =>
    simp only [HeapM.sweepSegments, run_bind, run_get] at hrun
    obtain ⟨_, _, ⟨rfl, rfl⟩, hrun⟩ := hrun
    rw [List.flatMap_cons]
    cases hi : heap.arena.segments[i]? with
    | none =>
      have hcolumn : heap.arena.column i = [] := by simp [column, hi]
      rw [hi] at hrun
      rw [hcolumn, List.nil_append]
      exact ih hs₀ hrun
    | some s =>
      have hcolumn : heap.arena.column i = (List.range s.cells.size).map (Handle.pack i) := by
        simp [column, hi]
      simp only [hi, run_bind] at hrun
      obtain ⟨freed₁, next, hoffsets, hrun⟩ := hrun
      have hlt := (Array.getElem?_eq_some_iff.mp hi).1
      have hfew := hs₀.tidy.few
      simp only [maxSegments] at hfew
      have hone := of_offsets hs₀ (fun o _ => by
        rw [largeAt, classAt?, Handle.segment_pack (by omega), hi]
        rfl) hoffsets
      obtain ⟨hnext, hshape⟩ := hone.sweepable hs₀
      rw [hcolumn, ← column_of_shape hshape]
      exact hone.append (ih hnext hrun)

theorem of_sweep {freed : PerGeneration Nat} (hs₀ : heap.Sweepable)
    (hrun : (HeapM.sweep level).run heap = .ok (freed, heap')) :
    heap.Passes level (fun _ _ => True) heap.arena.positions heap' := by
  simp only [HeapM.sweep, run_bind, run_get] at hrun
  obtain ⟨_, _, ⟨rfl, rfl⟩, hrun⟩ := hrun
  exact of_segments hs₀ hrun

theorem countersMatch_cell {lost : Option Generation} (hs₀ : heap.Sweepable) (hb : heap.CountersMatch)
    (hrun : (HeapM.sweepCell level (heap.arena.largeAt h) h).run heap = .ok (lost, mid)) :
    mid.CountersMatch := by
  rcases Swept.cell_cases hs₀ hrun with ⟨-, rfl, -⟩ | ⟨c, u, hc, -, -, -, hpromote⟩ |
    ⟨c, arena, strings, on, u, hc, -, -, hrelinks, -, -, hreclaim⟩
  · exact hb
  · exact hb.promote hs₀.tidy hc (hb.chunks_eq hc) hpromote
  · obtain ⟨d, hd, hdc⟩ := hrelinks.unlinked hc
    have hlinked : ({ heap with arena, strings } : Heap).CountersMatch :=
      hb.sameBut hrelinks Cell.footprint_unlinked rfl
    have hheader := Cell.header_of_unlinked hdc
    rw [← hheader] at hreclaim
    refine hlinked.reclaim (hrelinks.tidy Cell.isFree_unlinked hs₀.tidy) hd ?_ hreclaim
    rw [hb.chunks_eq hc, Cell.footprint_of_unlinked hdc]

theorem countersMatch (hs₀ : heap.Sweepable) (hb : heap.CountersMatch) (hpasses : heap.Passes level p hs heap') :
    heap'.CountersMatch ∧ heap.Passes level
      (fun heap h => ∀ c, heap.arena.get? h = some c → heap.CountersCover h c (heap.arena.largeAt h))
      hs heap' := by
  refine (along (I := fun heap => heap.Sweepable ∧ heap.CountersMatch) ?_ ⟨hs₀, hb⟩ hpasses).imp_left And.right
  intro heap mid h lost hI _ hrun
  exact ⟨⟨(Swept.cell hI.1 hrun).1.ready, countersMatch_cell hI.1 hI.2 hrun⟩,
    fun c hc => hI.2.countersCover hI.1.tidy hc⟩

theorem reports_cell {large : Bool} {lost : Option Generation} (hs₀ : heap.Sweepable)
    (hrun : (HeapM.sweepCell level large h).run heap = .ok (lost, mid)) :
    heap.journal.Reports mid.journal (heap.arena.reaped level [h])
      ((heap.arena.reaped level [h]).map .loss) := by
  have hreaped : ∀ {c}, heap.arena.cellAt? h = some c →
      heap.arena.reaped level [h] = if level.frees c then [(h, c.kind)] else [] := by
    intro c hc
    simp only [reaped, List.filterMap_cons, List.filterMap_nil, hc, Option.filter_some]
    cases level.frees c <;> rfl
  rcases Swept.cell_cases hs₀ hrun with ⟨-, rfl, hskip⟩ | ⟨c, u, hc, -, hstays, -, hpromote⟩ |
    ⟨c, arena, strings, on, u, hc, hfrees, -, -, -, -, hreclaim⟩
  · cases hc : mid.arena.cellAt? h with
    | none =>
      simp only [reaped, List.filterMap_cons, List.filterMap_nil, hc]
      exact .refl _
    | some c =>
      rw [hc, Option.any_some] at hskip
      rw [hreaped hc, Level.frees, hskip]
      exact .refl _
  · obtain ⟨-, rfl⟩ := HeapM.run_promote hpromote
    rw [hreaped (get?_eq_some.mp hc).1, Level.frees, hstays, Bool.not_true, Bool.and_false]
    exact .refl _
  · obtain ⟨arena, -, rfl⟩ := HeapM.run_reclaim hreclaim
    rw [hreaped (get?_eq_some.mp hc).1, if_pos hfrees]
    exact .noteFreed _ h c.header.kind

theorem reaped_ahead {lost : Option Generation} {large : Bool} (hs₀ : heap.Sweepable)
    (hnew : h ∉ hs) (hrun : (HeapM.sweepCell level large h).run heap = .ok (lost, mid)) :
    mid.arena.reaped level hs = heap.arena.reaped level hs := by
  refine List.filterMap_congr fun k hk => ?_
  have hcell := (Swept.cell hs₀ hrun).1.ahead k fun e =>
    hnew (List.mem_singleton.mp e ▸ hk)
  have hread : ∀ o : Option Cell, ((o.filter level.frees).map fun c => (k, c.kind)) =
      ((o.map Cell.unlinked).filter level.frees).map fun c => (k, c.kind) := by
    intro o
    cases o with
    | none => rfl
    | some c =>
      have hkind : c.unlinked.kind = c.kind := congrArg Header.kind (Cell.header_unlinked c)
      simp only [Option.map_some, Option.filter_some,
        Level.frees_congr (Cell.header_unlinked c)]
      split
      · rw [Option.map_some, Option.map_some, hkind]
      · rfl
  rw [hread, hcell, ← hread]

theorem reports (hs₀ : heap.Sweepable) (honce : hs.Nodup) (hpasses : heap.Passes level p hs heap') :
    heap.journal.Reports heap'.journal (heap.arena.reaped level hs)
      ((heap.arena.reaped level hs).map .loss) := by
  induction hpasses with
  | nil => exact .refl _
  | @cons heap mid heap' h hs lost _ hrun _ ih =>
    rw [List.nodup_cons] at honce
    have hrest := ih (Swept.cell hs₀ hrun).1.ready honce.2
    rw [reaped_ahead hs₀ honce.1 hrun] at hrest
    have hsplit : heap.arena.reaped level (h :: hs) =
        heap.arena.reaped level [h] ++ heap.arena.reaped level hs := by
      rw [reaped, ← List.singleton_append, List.filterMap_append]
      rfl
    rw [hsplit, List.map_append]
    exact (reports_cell hs₀ hrun).trans hrest

end Heap.Passes

namespace Cell

theorem footprint_of_lasting {c d : Cell} (he : d.lasting = c.lasting)
    (hg : d.header.generation = c.header.generation) : d.footprint = c.footprint := by
  have hlength : d.payload.length = c.payload.length := by
    rw [← length_forgetting d.payload, forgetting_of_lasting he, length_forgetting]
  rw [footprint, kind_of_lasting he, hg, hlength, footprint]

end Cell

/-- The sweep of a collection goes from the marked heap `start` to `stop`; before it objects were
only marked, and after it some are only forgotten. -/
structure Heap.SweepsTo (level : Level) (records : List Handle) (heap heap' : Heap) (o : Outcome)
    (start stop : Heap) : Prop where
  chain : heap.arena.weakRecords heap.weak = .ok records
  ready : start.Sweepable
  books : start.arena.books = heap.arena.books
  marked : ∀ {h c}, heap.arena.get? h = some c →
    ∃ e, start.arena.get? h = some e ∧ c.MarkedIn heap level records h e
  came : ∀ {h e}, start.arena.get? h = some e → ∃ c, heap.arena.get? h = some c
  generations : start.generations = heap.generations
  journal : start.journal = heap.journal
  run : (HeapM.sweep level).run start = .ok (o.freed, stop)
  ends : Arena.SameBut Cell.forgotten stop.arena heap'.arena
  accounts : heap'.generations = stop.generations
  reports : stop.journal.Reports heap'.journal [] [.collected level]

namespace Heap.SweepsTo

open Arena

variable {level : Level} {records : List Handle} {heap heap' start stop : Heap} {o : Outcome}
  {h : Handle}

theorem positions (hr : heap.SweepsTo level records heap' o start stop) :
    start.arena.positions = heap.arena.positions := positions_of_shape (shape_of_books hr.books)

theorem none (hr : heap.SweepsTo level records heap' o start stop) (hc : heap.arena.get? h = none) :
    start.arena.get? h = none := by
  by_contra hsome
  obtain ⟨e, he⟩ := Option.ne_none_iff_exists'.mp hsome
  obtain ⟨c, hc'⟩ := hr.came he
  exact nomatch hc.symm.trans hc'

theorem countersMatch (hr : heap.SweepsTo level records heap' o start stop) (hb : heap.CountersMatch) :
    start.CountersMatch := by
  refine hb.congr hr.books (fun h => ?_) hr.generations
  cases hc : heap.arena.get? h with
  | some c =>
    obtain ⟨e, he, hce⟩ := hr.marked hc
    rw [footprint?_of_get? hc, footprint?_of_get? he,
      Cell.footprint_of_lasting hce.lasting hce.generation]
  | none => rw [footprint?_of_none hc, footprint?_of_none (hr.none hc)]

theorem reaped (hr : heap.SweepsTo level records heap' o start stop)
    (hcol : Collected level records heap heap' o) :
    start.arena.reaped level start.arena.positions = heap.losses heap' := by
  rw [Arena.reaped, hr.positions]
  refine List.filterMap_congr fun h _ => ?_
  cases hc : heap.arena.get? h with
  | none =>
    have hfree : (start.arena.cellAt? h).filter level.frees = .none := by
      have hany := any_cellAt? (a := start.arena) (h := h) (p := level.frees)
        fun e he => by simp [Level.frees, Level.sweeps, he]
      rw [hr.none hc, Option.any_none] at hany
      cases he : start.arena.cellAt? h with
      | none => rfl
      | some e =>
        rw [he, Option.any_some] at hany
        rw [Option.filter_some, hany]
        rfl
    rw [hfree]
    rfl
  | some c =>
    obtain ⟨e, he, hce⟩ := hr.marked hc
    have hgone : level.frees e = !heap'.arena.contains h := by
      have hkept : level.frees e = false ↔ heap'.arena.contains h = true := by
        rw [hce.frees]
        constructor
        · intro hkeeps
          exact contains_iff.mpr (hcol.stayed hc hkeeps)
        · intro hlive
          obtain ⟨d, hd⟩ := contains_iff.mp hlive
          obtain ⟨c', hc', hkeeps⟩ := hcol.came hd
          exact Option.some.inj (hc'.symm.trans hc) ▸ hkeeps
      cases hlive : heap'.arena.contains h <;> simpa [hlive] using hkept
    rw [(get?_eq_some.mp he).1, Option.filter_some, Option.filter_some, hgone]
    split
    · rw [Option.map_some, Option.map_some, Cell.kind_of_lasting hce.lasting]
    · rfl

end Heap.SweepsTo

namespace HeapM

open Arena

variable {heap heap' : Heap} {level : Level} {reason : Reason} {o : Outcome}

theorem collect_sweepsTo (hs : heap.Sound) (hrun : (collect level reason).run heap = .ok (o, heap')) :
    ∃ records start stop, heap.SweepsTo level records heap' o start stop := by
  obtain ⟨-, cleared, m, freed, stop, waits, phase, hbooks, hcells, hmark, hsweep, kept, pruned,
    strategy, counters, journal, hprune, rfl, -, ho, hreports, -⟩ := run_collect hrun
  obtain ⟨records, hchain, htidy, hbooksm, -, -, hforth, hback⟩ := run_marked hs hbooks hcells hmark
  obtain ⟨arena, rfl, hbooksp, -, hcellsp⟩ := run_pruneRemembered hprune
  have hready : Heap.Sweepable { heap with
      arena := m.arena
      tasks := heap.quietTasks level
      collecting := true
      counters := { heap.counters with taskWaits := waits, phase } } :=
    sweepable_marked hs htidy hforth hback
  refine ⟨records, _, stop, {
    chain := hchain, ready := hready, books := hbooksm, marked := hforth, came := hback
    generations := rfl, journal := rfl, run := ?_, ends := ⟨hbooksp, fun h => ?_⟩
    accounts := rfl, reports := hreports }⟩
  · rw [ho]
    exact hsweep
  · change (arena.cellAt? h).map Cell.forgotten = _
    rw [hcellsp h, Option.map_map]
    refine Option.map_congr fun c _ => ?_
    simp only [Function.comp]
    split <;> rfl

theorem collect_countersMatch (hs : heap.Sound) (hb : heap.CountersMatch)
    (hrun : (collect level reason).run heap = .ok (o, heap')) : heap'.CountersMatch := by
  obtain ⟨records, start, stop, hr⟩ := collect_sweepsTo hs hrun
  obtain ⟨hstop, -⟩ := (Heap.Passes.of_sweep hr.ready hr.run).countersMatch hr.ready (hr.countersMatch hb)
  exact hstop.sameBut hr.ends (fun _ => rfl) hr.accounts

theorem collect_shape (hs : heap.Sound) (hrun : (collect level reason).run heap = .ok (o, heap')) :
    heap'.arena.shape = heap.arena.shape := by
  obtain ⟨records, start, stop, hr⟩ := collect_sweepsTo hs hrun
  obtain ⟨-, hshape⟩ := (Heap.Passes.of_sweep hr.ready hr.run).sweepable hr.ready
  exact (shape_of_books hr.ends.books).trans (hshape.trans (shape_of_books hr.books))

theorem collect_countersCover (hs : heap.Sound) (hb : heap.CountersMatch)
    (hrun : (collect level reason).run heap = .ok (o, heap')) :
    ∃ records start stop, heap.SweepsTo level records heap' o start stop ∧ start.Passes level
      (fun heap h => ∀ c, heap.arena.get? h = some c → heap.CountersCover h c (heap.arena.largeAt h))
      heap.arena.positions stop := by
  obtain ⟨records, start, stop, hr⟩ := collect_sweepsTo hs hrun
  obtain ⟨-, hpass⟩ := (Heap.Passes.of_sweep hr.ready hr.run).countersMatch hr.ready (hr.countersMatch hb)
  exact ⟨records, start, stop, hr, hr.positions ▸ hpass⟩

theorem collect_reports (hs : heap.Sound)
    (hrun : (collect level reason).run heap = .ok (o, heap')) :
    heap.journal.Reports heap'.journal (heap.losses heap')
      ((heap.losses heap').map .loss ++ [.collected level]) := by
  obtain ⟨records, start, stop, hr⟩ := collect_sweepsTo hs hrun
  obtain ⟨records', hcol⟩ := collect_collected hs hrun
  obtain rfl : records' = records := Except.ok.inj (hcol.chain.symm.trans hr.chain)
  have hsweep := (Heap.Passes.of_sweep hr.ready hr.run).reports hr.ready
    (positions_nodup hr.ready.tidy)
  have hreports := hsweep.trans hr.reports
  rwa [hr.journal, List.append_nil, hr.reaped hcol] at hreports

end HeapM

theorem Collected.totalFreed {level : Level} {records : List Handle} {heap heap' : Heap} {o : Outcome}
    (hcol : Collected level records heap heap' o) : o.totalFreed = (heap.losses heap').length := by
  have hyoung := hcol.freed .young
  have hmiddle := hcol.freed .middle
  have hold := hcol.freed .old
  change o.freed.young = _ at hyoung
  change o.freed.middle = _ at hmiddle
  change o.freed.old = _ at hold
  rw [Outcome.totalFreed, hyoung, hmiddle, hold, Heap.losses]
  induction heap.arena.positions with
  | nil => rfl
  | cons h hs ih =>
    simp only [List.countP_cons, List.filterMap_cons]
    cases hc : heap.arena.get? h with
    | none => simpa using ih
    | some c =>
      cases hlive : heap'.arena.contains h with
      | true => simpa using ih
      | false =>
        simp only [Option.any_some, Bool.not_false, Bool.and_true, Option.filter_some, if_true,
          Option.map_some, List.length_cons]
        cases c.header.generation <;> simp <;> omega

end ManagedHeap
