import ManagedHeap.Proofs.SessionHistories

/-!
# The accounts in full

What the counters of a heap say, in terms of its cells: the objects and big chunks of a
generation, the segments, cells and live cells of a class, and the live cells of a segment. They
are right in every heap with a history, so a collection finds on them whatever it takes off.
-/

namespace ManagedHeap

/-- The sum of a weight over the live cells. -/
def Arena.weigh (a : Arena) (w : Cell → Bool → Nat) : Nat :=
  (a.positions.map fun h => ((a.get? h).map fun c => w c (a.largeAt h)).getD 0).sum

/-- The number of live cells with a property. -/
def Arena.census (a : Arena) (p : Handle → Cell → Bool) : Nat :=
  a.positions.countP fun h => (a.get? h).any (p h)

/-- Every counter of the heap says what there is, and every object lies where it belongs. -/
structure Heap.Exact (heap : Heap) : Prop where
  objects : ∀ g, (heap.generations.get g).objects =
    heap.arena.census fun _ c => c.header.generation == g
  bigChunks : ∀ g, (heap.generations.get g).bigChunks = heap.arena.weigh fun c large =>
    if c.header.generation = g ∧ large = true then vectorChunks c.kind c.payload.length else 0
  placed : ∀ {h c}, heap.arena.get? h = some c →
    heap.arena.classAt? h = some (.forRequest c.kind c.payload.length)
  suits : ∀ {h c}, heap.arena.get? h = some c → c.payload.suits c.kind = true
  usage : ∀ n, heap.arena.usage n =
    { segments := (heap.arena.segmentsOf n).length
      cells := ((heap.arena.segmentsOf n).map (·.cells.size)).sum
      live := heap.arena.census fun h _ => heap.arena.classAt? h == some n }
  filled : ∀ {i m}, heap.arena.liveAt i = some m →
    m = heap.arena.census fun h _ => h.segment == i

namespace Heap

open Arena

variable {heap heap' : Heap}

theorem CountersMatch.total_eq (hb : heap.CountersMatch) {w : Handle → Footprint → Nat}
    {p : Handle → Cell → Bool} (hw : ∀ {h c}, heap.arena.get? h = some c →
      heap.arena.classAt? h = some c.footprint.nodeClass → w h c.footprint = if p h c then 1 else 0) :
    heap.arena.total w = heap.arena.census p := by
  have hone : ∀ h, heap.arena.share w h = if (heap.arena.get? h).any (p h) then 1 else 0 := by
    intro h
    cases hc : heap.arena.get? h with
    | none => exact share_of_none hc
    | some c => exact (share_of_get? hc).trans (hw hc (hb.arena.placed (footprint?_of_get? hc)))
  rw [total, census, funext hone]
  induction heap.arena.positions with
  | nil => rfl
  | cons h hs ih => rw [List.map_cons, List.sum_cons, ih, List.countP_cons, Nat.add_comm]

theorem CountersMatch.exact (hb : heap.CountersMatch) (hs : heap.Sound) : heap.Exact where
  objects g := (hb.objects g).trans <| hb.total_eq fun {_ c} _ _ => by
    by_cases hg : c.header.generation = g <;> simp [inGeneration, Cell.footprint, hg]
  bigChunks g := by
    rw [hb.bigChunks, total, weigh]
    congr 1
    refine List.map_congr_left fun h _ => ?_
    cases hc : heap.arena.get? h with
    | none => exact share_of_none hc
    | some c =>
      have hlarge : heap.arena.largeAt h = c.footprint.nodeClass.isLarge := by
        rw [largeAt, hb.arena.placed (footprint?_of_get? hc), Option.any_some]
      rw [share_of_get? hc, Option.map_some, Option.getD_some, hlarge, chunksIn, ite_and]
      rfl
  placed hc := hb.arena.placed (footprint?_of_get? hc)
  suits hc := (hs.proper hc).suits
  usage n := by
    have hlive := (hb.arena.live n).trans (hb.total_eq (w := inClass n)
      (p := fun h _ => heap.arena.classAt? h == some n) fun hc hplaced => by
        rw [hplaced]
        simp [inClass])
    rw [← hb.arena.segments, ← hb.arena.cells, ← hlive]
  filled hm := (hb.arena.filled hm).trans (hb.total_eq fun _ _ => by simp [inSegment])

end Heap

namespace Collected

variable {level : Level} {records : List Handle} {heap heap' : Heap} {o : Outcome}

theorem freed_le (hcol : Collected level records heap heap' o) (hb : heap.CountersMatch) (hs : heap.Sound)
    (g : Generation) : o.freed.get g ≤ (heap.generations.get g).objects := by
  rw [hcol.freed, (hb.exact hs).objects, Arena.census]
  exact List.countP_mono_left fun h _ hgone => (Bool.and_eq_true _ _ ▸ hgone).1

theorem freed_above (hcol : Collected level records heap heap' o) {g : Generation}
    (hg : level.index < g.index) : o.freed.get g = 0 := by
  rw [hcol.freed, List.countP_eq_zero]
  intro h _ hgone
  obtain ⟨hold, hdead⟩ := Bool.and_eq_true _ _ ▸ hgone
  obtain ⟨c, hc, hgen⟩ := Option.any_eq_true .. |>.mp hold
  have hkeeps : heap.Keeps level records h c := .inl <| by
    rw [Level.sweeps, Level.covers, beq_iff_eq.mp hgen, decide_eq_false (Nat.not_le_of_lt hg),
      Bool.and_false]
  obtain ⟨d, hd⟩ := hcol.stayed hc hkeeps
  rw [Arena.contains_of_get? hd] at hdead
  cases hdead

end Collected

namespace Session

/-- Every heap that a session reaches has a history. In every heap with a history all counters say
what there is. A collection there frees no more of a generation than there was and nothing of a
generation that it does not cover; its sweep goes over the cells one by one, and whenever it
reaches an object, the counters are as high as what it could take off them for that object. -/
theorem accounts_exact :
    (∀ {state heap}, Reachable state heap → heap.Traced) ∧
    ∀ {heap}, Heap.Traced heap → heap.Exact ∧ ∀ {level reason o heap'},
      (HeapM.collect level reason).run heap = .ok (o, heap') →
        (∀ g, o.freed.get g ≤ (heap.generations.get g).objects) ∧
        (∀ g : Generation, level.index < g.index → o.freed.get g = 0) ∧
        ∃ records start stop, heap.SweepsTo level records heap' o start stop ∧ start.Passes level
          (fun heap h => ∀ c, heap.arena.get? h = some c →
            heap.CountersCover h c (heap.arena.largeAt h)) heap.arena.positions stop := by
  refine ⟨Reachable.traced, fun {heap} ht => ?_⟩
  have hb := ht.countersMatch
  refine ⟨hb.exact ht.1, fun hrun => ?_⟩
  obtain ⟨records, hcol⟩ := HeapM.collect_collected ht.1 hrun
  exact ⟨hcol.freed_le hb ht.1, fun g => hcol.freed_above, HeapM.collect_countersCover ht.1 hb hrun⟩

/-- A vector that is too long for the small classes, and a pair. -/
def vectorBesidePair : List Step :=
  [.command (.request (.allocate .realVector 40 [])) none,
    .command (.request (.cons (.handle .nil) (.handle .nil))) none]

/-- Two young objects, one of them with big chunks, are freed by a minor collection. -/
theorem accounts_vectorBesidePair : ∃ heap o heap',
    collected { segmentCells := 4 } vectorBesidePair .minor = .ok (heap, o, heap') ∧
    heap.Exact ∧ (heap.arena.census fun _ c => c.header.generation == .young) = 2 ∧
    (heap.generations.get .young).bigChunks = 40 ∧ o.freed.get .young ≤ 2 ∧ o.freed.get .old = 0 := by
  obtain ⟨⟨heap, o, heap'⟩, hcollected, htest⟩ := except_of_test
    (x := collected { segmentCells := 4 } vectorBesidePair .minor)
    (p := fun p : Heap × Outcome × Heap =>
      decide ((p.1.generations.get .young).objects = 2) &&
        decide ((p.1.generations.get .young).bigChunks = 40)) (by decide +kernel)
  obtain ⟨ho, hrun⟩ := collected_eq_ok hcollected
  obtain ⟨state, hr⟩ := reachable_of_opened rfl ho
  simp only [Bool.and_eq_true, decide_eq_true_eq] at htest
  obtain ⟨hobjects, hchunks⟩ := htest
  obtain ⟨hexact, hcollect⟩ := accounts_exact.2 (accounts_exact.1 hr)
  obtain ⟨hle, habove, -⟩ := hcollect hrun
  exact ⟨heap, o, heap', hcollected, hexact, (hexact.objects .young).symm.trans hobjects, hchunks,
    hobjects ▸ hle .young, habove .old (by decide)⟩

end Session

end ManagedHeap
