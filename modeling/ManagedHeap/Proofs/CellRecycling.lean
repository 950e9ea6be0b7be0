import Mathlib.Algebra.BigOperators.Fin
import Mathlib.Algebra.Order.BigOperators.Group.List
import Mathlib.Algebra.Order.Group.Nat
import ManagedHeap.Proofs.ArenaCounters

/-!
# Cells are handed out and taken back

An arena serves four calls: a segment is added, a free cell is claimed, a live cell is written, and
a live cell is released. After any calls the free lists hold just the free cells, each of them once,
every counter says what there is, and a handle decodes to the one cell that it names. A call on a
handle changes that cell and no other, and a released cell is the next one that its class hands out.
-/

namespace ManagedHeap

theorem sum_map_modify {α : Type} (w : α → Nat) (f : α → α) (l : List α) {i : Nat} {x : α}
    (hx : l[i]? = some x) : ((l.modify i f).map w).sum + w x = (l.map w).sum + w (f x) := by
  induction l generalizing i with
  | nil => cases hx
  | cons y l ih =>
    cases i with
    | zero =>
      obtain rfl := Option.some.inj hx
      simp only [List.modify_zero_cons, List.map_cons, List.sum_cons]
      omega
    | succ i =>
      have hrest := ih (i := i) hx
      simp only [List.modify_succ_cons, List.map_cons, List.sum_cons]
      omega

theorem sum_map_filter {α : Type} (p : α → Bool) (w : α → Nat) (l : List α) :
    ((l.filter p).map w).sum = (l.map fun x => if p x then w x else 0).sum := by
  induction l with
  | nil => rfl
  | cons x l ih => by_cases hx : p x = true <;> simp [hx, ih]

theorem modify_modify {α : Type} (xs : Array α) (i : Nat) (f g : α → α) :
    (xs.modify i f).modify i g = xs.modify i (g ∘ f) := by
  apply Array.ext_getElem?
  intro j
  simp only [Array.getElem?_modify]
  split
  · cases xs[j]? <;> rfl
  · rfl

namespace Cell

def weight (c : Cell) : Nat := if c.isFree then 0 else 1

end Cell

namespace Segment

/-- The number of live cells. -/
def population (s : Segment) : Nat := s.cells.countP fun c => !c.isFree

def edit (s : Segment) (offset : Nat) (f : Cell → Cell) (g : Nat → Nat) : Segment :=
  { s with cells := s.cells.modify offset f, live := g s.live }

variable {s : Segment} {offset : Nat} {c : Cell} {f : Cell → Cell} {g : Nat → Nat}

theorem population_eq_sum (s : Segment) : s.population = (s.cells.toList.map Cell.weight).sum := by
  rw [population, ← Array.countP_toList]
  induction s.cells.toList with
  | nil => rfl
  | cons c cs ih =>
    rw [List.countP_cons, ih, List.map_cons, List.sum_cons, Nat.add_comm]
    cases hc : c.isFree <;> simp [Cell.weight, hc]

theorem population_edit (hc : s.cells[offset]? = some c) :
    (s.edit offset f g).population + c.weight = s.population + (f c).weight := by
  rw [population_eq_sum, population_eq_sum, edit, Array.toList_modify]
  exact sum_map_modify _ _ _ (by rwa [Array.getElem?_toList])

theorem weight_le_population (hc : s.cells[offset]? = some c) : c.weight ≤ s.population := by
  rw [population_eq_sum]
  have hin : c ∈ s.cells.toList := Array.mem_toList_iff.mpr (Array.mem_of_getElem? hc)
  exact List.le_sum_of_mem (List.mem_map_of_mem hin)

end Segment

namespace Arena

variable {a b : Arena} {h k : Handle} {c : Cell} {n : NodeClass} {f : Cell → Cell} {g : Nat → Nat}
  {header : Header} {payload : Payload}

/-- The cell at an offset of a segment. -/
def slot? (a : Arena) (i offset : Nat) : Option Cell := a.segments[i]?.bind (·.cells[offset]?)

/-- The class of a segment. -/
def classOf? (a : Arena) (i : Nat) : Option NodeClass := a.segments[i]?.map (·.nodeClass)

theorem cellAt?_eq_slot? (a : Arena) (h : Handle) : a.cellAt? h = a.slot? h.segment h.offset := by
  unfold cellAt? slot?
  cases a.segments[h.segment]? <;> rfl

/-- The second arena is the first one with one cell changed, and the live count of its segment. -/
structure Edits (a b : Arena) (h : Handle) (f : Cell → Cell) (g : Nat → Nat) : Prop where
  segments : b.segments = a.segments.modify h.segment (·.edit h.offset f g)
  segmentCells : b.segmentCells = a.segmentCells

namespace Edits

theorem slot? (he : Edits a b h f g) (i offset : Nat) : b.slot? i offset =
    if i = h.segment ∧ offset = h.offset then (a.slot? i offset).map f else a.slot? i offset := by
  simp only [Arena.slot?, he.segments, Array.getElem?_modify]
  cases hs : a.segments[i]? with
  | none => by_cases hi : h.segment = i <;> simp [hi]
  | some s =>
    by_cases hi : h.segment = i
    · by_cases ho : h.offset = offset
      · simp [hi, ho, Segment.edit, Array.getElem?_modify]
      · simp [hi, ho, Ne.symm ho, Segment.edit, Array.getElem?_modify]
    · have hne : i ≠ h.segment := fun e => hi e.symm
      simp [hi, hne]

theorem classOf? (he : Edits a b h f g) (i : Nat) : b.classOf? i = a.classOf? i := by
  simp only [Arena.classOf?, he.segments, Array.getElem?_modify]
  cases hs : a.segments[i]? with
  | none => split <;> rfl
  | some s => split <;> rfl

theorem shape (he : Edits a b h f g) : b.shape = a.shape := by
  simp only [Arena.shape, he.segmentCells, Prod.mk.injEq, and_true]
  apply Array.ext_getElem?
  intro i
  simp only [he.segments, Array.getElem?_map, Array.getElem?_modify]
  split
  · cases a.segments[i]? <;> simp [Segment.edit]
  · rfl

end Edits

theorem edits_setCell : Edits a (a.setCell h f) h f id := ⟨rfl, rfl⟩

theorem claim?_edits (hclaim : a.claim? n header payload = some (h, b)) :
    Edits a b h (fun _ => { header, payload }) (· + 1) := by
  unfold claim? at hclaim
  split at hclaim
  · cases hclaim
  · rw [Option.some.injEq, Prod.mk.injEq] at hclaim
    obtain ⟨rfl, rfl⟩ := hclaim
    refine ⟨?_, rfl⟩
    simp only [countLive, setCell]
    exact modify_modify ..

theorem release_edits (hr : a.release h = .ok b) : Edits a b h (fun _ => {}) (· - 1) := by
  unfold release at hr
  split at hr
  · cases hr
  · dsimp only at hr
    split at hr
    · cases hr
    · split at hr
      · cases hr
      · rw [Except.ok.injEq] at hr
        subst hr
        refine ⟨?_, rfl⟩
        simp only [countLive, setCell]
        exact modify_modify ..

/-- The counters say what there is. -/
structure Tallied (a : Arena) : Prop where
  filled : ∀ s ∈ a.segments, s.live = s.population
  segments : ∀ n, (a.usage n).segments = (a.segmentsOf n).length
  cells : ∀ n, (a.usage n).cells = ((a.segmentsOf n).map (·.cells.size)).sum
  live : ∀ n, (a.usage n).live = ((a.segmentsOf n).map Segment.population).sum

def populationIn (n : NodeClass) (s : Segment) : Nat :=
  if s.nodeClass == n then s.population else 0

theorem sum_population (a : Arena) (n : NodeClass) :
    ((a.segmentsOf n).map Segment.population).sum = (a.segments.toList.map (populationIn n)).sum :=
  sum_map_filter ..

theorem Tallied.counts (ht : a.Tallied) (hs : b.shape = a.shape)
    (hsegments : (b.usage n).segments = (a.usage n).segments)
    (hcells : (b.usage n).cells = (a.usage n).cells) :
    (b.usage n).segments = (b.segmentsOf n).length ∧
      (b.usage n).cells = ((b.segmentsOf n).map (·.cells.size)).sum := by
  have hsizes := sizes_of_shape hs n
  have hlength := congrArg List.length hsizes
  rw [List.length_map, List.length_map] at hlength
  exact ⟨by rw [hsegments, hlength, ht.segments], by rw [hcells, hsizes, ht.cells]⟩

theorem Edits.sum_population (he : Edits a b h f g) (hc : a.cellAt? h = some c)
    (hclass : a.classAt? h = some n) (m : NodeClass) :
    ((b.segmentsOf m).map Segment.population).sum + (if m = n then c.weight else 0) =
      ((a.segmentsOf m).map Segment.population).sum + if m = n then (f c).weight else 0 := by
  obtain ⟨s, hs, hn⟩ := Option.map_eq_some_iff.mp hclass
  have hcell : s.cells[h.offset]? = some c := by
    rw [cellAt?, hs] at hc
    exact hc
  have hsum := sum_map_modify (populationIn m) (Segment.edit · h.offset f g) a.segments.toList
    (i := h.segment) (by rwa [Array.getElem?_toList])
  have hone := Segment.population_edit (f := f) (g := g) hcell
  rw [Arena.sum_population, Arena.sum_population, he.segments, Array.toList_modify]
  by_cases hm : m = n
  · subst hm
    have hin : ∀ t : Segment, t.nodeClass = m → populationIn m t = t.population := fun t ht => by
      simp [populationIn, ht]
    rw [hin s hn, hin (s.edit h.offset f g) hn] at hsum
    rw [if_pos rfl, if_pos rfl]
    omega
  · have hout : ∀ t : Segment, t.nodeClass = n → populationIn m t = 0 := fun t ht => by
      simp [populationIn, ht, Ne.symm hm]
    rw [hout s hn, hout (s.edit h.offset f g) hn] at hsum
    rw [if_neg hm, if_neg hm]
    exact hsum

theorem Tallied.edit (ht : a.Tallied) (he : Edits a b h f g) (hc : a.cellAt? h = some c)
    (hclass : a.classAt? h = some n)
    (husage : ∀ m, b.usage m =
      if m = n then { a.usage n with live := g (a.usage n).live } else a.usage m)
    (hg : ∀ m, c.weight ≤ m → g m + c.weight = m + (f c).weight) : b.Tallied := by
  obtain ⟨s, hs, hn⟩ := Option.map_eq_some_iff.mp hclass
  have hcell : s.cells[h.offset]? = some c := by
    rw [cellAt?, hs] at hc
    exact hc
  have hbooks : ∀ m, (b.usage m).segments = (a.usage m).segments ∧
      (b.usage m).cells = (a.usage m).cells := by
    intro m
    rw [husage]
    split
    · rename_i hm
      subst hm
      exact ⟨rfl, rfl⟩
    · exact ⟨rfl, rfl⟩
  have hcounts := fun m => ht.counts he.shape (hbooks m).1 (hbooks m).2
  refine ⟨fun t hmem => ?_, fun m => (hcounts m).1, fun m => (hcounts m).2, fun m => ?_⟩
  · obtain ⟨i, hi⟩ := Array.getElem?_of_mem hmem
    rw [he.segments, Array.getElem?_modify] at hi
    split at hi
    · rename_i hseg
      subst hseg
      rw [hs, Option.map_some, Option.some.injEq] at hi
      subst hi
      have hlive := ht.filled s (Array.mem_of_getElem? hs)
      have hone := Segment.population_edit (f := f) (g := g) hcell
      have hstep := hg s.population (Segment.weight_le_population hcell)
      change g s.live = _
      rw [hlive]
      omega
    · exact ht.filled t (Array.mem_of_getElem? hi)
  · have hsum := he.sum_population hc hclass m
    rw [husage]
    by_cases hm : m = n
    · subst hm
      rw [if_pos rfl, if_pos rfl] at hsum
      have hle : c.weight ≤ (a.usage m).live := by
        rw [ht.live, Arena.sum_population]
        refine le_trans (Segment.weight_le_population hcell) (List.le_sum_of_mem ?_)
        exact List.mem_map.mpr ⟨s, Array.mem_toList_iff.mpr (Array.mem_of_getElem? hs),
          by simp [populationIn, hn]⟩
      have hstep := hg _ hle
      rw [if_pos rfl]
      have hlive := ht.live m
      change g (a.usage m).live = _
      omega
    · rw [if_neg hm, if_neg hm] at hsum
      rw [if_neg hm, ht.live]
      omega

theorem Tallied.addSegment {i : Nat} (ht : a.Tallied) (hs : a.addSegment? n = some (i, b)) :
    b.Tallied := by
  obtain ⟨-, hsegments, -⟩ := addSegment?_eq_some hs
  set fresh : Segment := ⟨n, Array.replicate a.segmentCells {}, 0⟩
  have hempty : fresh.population = 0 := Array.countP_eq_zero.mpr fun c hc => by
    rw [(Array.mem_replicate.mp hc).2]
    decide
  have husage := usage_addSegment hs
  have hof : ∀ m, b.segmentsOf m = a.segmentsOf m ++ if n = m then [fresh] else [] :=
    segmentsOf_addSegment hs
  refine ⟨fun s hmem => ?_, fun m => ?_, fun m => ?_, fun m => ?_⟩
  · rw [hsegments, Array.mem_push] at hmem
    rcases hmem with hold | rfl
    · exact ht.filled s hold
    · exact hempty.symm
  · rw [husage, hof, List.length_append, ← ht.segments]
    by_cases hm : m = n
    · simp [hm]
    · simp [hm, Ne.symm hm]
  · rw [husage, hof, List.map_append, List.sum_append, ← ht.cells]
    by_cases hm : m = n
    · simp [hm, fresh]
    · simp [hm, Ne.symm hm]
  · rw [husage, hof, List.map_append, List.sum_append, ← ht.live]
    by_cases hm : m = n
    · simp [hm, hempty]
    · simp [hm, Ne.symm hm]

/-- The arena is in order. -/
structure Kept (a : Arena) : Prop where
  tidy : a.Tidy
  listed : ∀ {n h c}, a.cellAt? h = some c → c.isFree = true → a.classAt? h = some n →
    h ∈ a.freeList n
  tallied : a.Tallied

namespace Kept

theorem empty {cells : Nat} (hcells : cells ≤ maxSegmentCells) : (Arena.empty cells).Kept := by
  have hno : ∀ n, (Arena.empty cells).usage n = {} := fun n => by
    simp only [Arena.usage, Arena.empty, Fin.getElem_fin, Vector.getElem_replicate]
  refine ⟨empty_tidy hcells, fun hc => ?_, ⟨fun s hs => ?_, fun n => ?_, fun n => ?_, fun n => ?_⟩⟩
  · exact absurd (segment_lt hc) (Nat.not_lt_zero _)
  · exact absurd hs (Array.not_mem_empty s)
  · rw [hno]
    rfl
  · rw [hno]
    rfl
  · rw [hno]
    rfl

theorem addSegment {i : Nat} (ha : a.Kept) (hs : a.addSegment? n = some (i, b)) : b.Kept := by
  obtain ⟨hfew, hsegments, -, hlists⟩ := addSegment?_eq_some hs
  refine ⟨ha.tidy.addSegment hs, fun {m k c} hc hfree hclass => ?_, ha.tallied.addSegment hs⟩
  rw [cellAt?_addSegment hs] at hc
  rw [classAt?, hsegments, Array.getElem?_push] at hclass
  rw [hlists]
  by_cases hk : k.segment = a.segments.size
  · rw [if_pos hk] at hc hclass
    obtain rfl : n = m := Option.some.inj hclass
    have hoff : k.offset < a.segmentCells := by
      by_contra hno
      rw [if_neg hno] at hc
      cases hc
    rw [if_pos rfl, List.mem_append, List.mem_map]
    exact .inl ⟨k.offset, List.mem_range.mpr hoff, hk ▸ Handle.pack_segment_offset k⟩
  · rw [if_neg hk] at hc hclass
    have hold := ha.listed hc hfree hclass
    split
    · rename_i hm
      subst hm
      exact List.mem_append_right _ hold
    · exact hold

theorem claim (ha : a.Kept) (hclaim : a.claim? n header payload = some (h, b))
    (hlive : header.isFree = false) : b.Kept := by
  obtain ⟨⟨rest, hhead, hlists⟩, hshape, hcells⟩ := claim?_eq_some hclaim
  have hin : h ∈ a.freeList n := hhead ▸ List.mem_cons_self
  obtain ⟨hclass, c, hc, hfree⟩ := ha.tidy.free n h hin
  refine ⟨ha.tidy.claim hclaim, fun {m k d} hd hd' hm => ?_, ?_⟩
  · rw [hcells] at hd
    rw [classAt?_eq_of_shape hshape] at hm
    by_cases hk : k = h
    · rw [if_pos hk] at hd
      obtain ⟨-, -, rfl⟩ := Option.map_eq_some_iff.mp hd
      exact absurd (hlive.symm.trans hd') Bool.false_ne_true
    · rw [if_neg hk] at hd
      have hold := ha.listed hd hd' hm
      rw [hlists]
      split
      · rename_i hmn
        subst hmn
        rw [hhead] at hold
        exact List.mem_of_ne_of_mem hk hold
      · exact hold
  · have husage := (claim?_counts hclaim).usage
    refine ha.tallied.edit (claim?_edits hclaim) hc hclass husage fun m _ => ?_
    rw [Cell.weight, if_pos hfree, Cell.weight, if_neg (by simp [Cell.isFree, hlive])]

theorem release (ha : a.Kept) (hr : a.release h = .ok b) : b.Kept := by
  obtain ⟨⟨c, hc⟩, ⟨n, hclass, hlists⟩, hshape, hcells⟩ := release_eq_ok hr
  obtain ⟨hat, hlive⟩ := get?_eq_some.mp hc
  refine ⟨ha.tidy.release hr, fun {m k d} hd hfree hm => ?_, ?_⟩
  · rw [hcells] at hd
    rw [classAt?_eq_of_shape hshape] at hm
    rw [hlists]
    by_cases hk : k = h
    · subst hk
      obtain rfl : n = m := Option.some.inj (hclass.symm.trans hm)
      rw [if_pos rfl]
      exact List.mem_cons_self
    · rw [if_neg hk] at hd
      have hold := ha.listed hd hfree hm
      split
      · rename_i hmn
        subst hmn
        exact List.mem_cons_of_mem _ hold
      · exact hold
  · obtain ⟨n', hclass', hcounts⟩ := release_counts hr
    refine ha.tallied.edit (release_edits hr) hat hclass' hcounts.usage fun m hle => ?_
    rw [Cell.weight, if_neg (by simp [hlive])] at hle ⊢
    exact Nat.sub_add_cancel hle

theorem write (ha : a.Kept) (hu : a.update h f = .ok b) (hf : ∀ c, (f c).isFree = c.isFree) :
    b.Kept := by
  obtain ⟨⟨c, hc⟩, rfl⟩ := update_eq_ok hu
  obtain ⟨hat, hlive⟩ := get?_eq_some.mp hc
  obtain ⟨s, hs⟩ : ∃ s, a.segments[h.segment]? = some s :=
    ⟨_, Array.getElem?_eq_getElem (segment_lt hat)⟩
  refine ⟨ha.tidy.setCell hc, fun {m k d} hd hfree hm => ?_, ?_⟩
  · rw [classAt?_eq_of_shape shape_setCell] at hm
    rw [cellAt?_setCell] at hd
    split at hd
    · obtain ⟨d', hd', rfl⟩ := Option.map_eq_some_iff.mp hd
      exact ha.listed hd' ((hf d').symm.trans hfree) hm
    · exact ha.listed hd hfree hm
  · have hclass : a.classAt? h = some s.nodeClass := by
      rw [classAt?, hs]
      rfl
    refine ha.tallied.edit edits_setCell hat hclass (fun m => ?_) fun m _ => ?_
    · rw [usage_of_books books_setCell]
      split
      · rename_i hm
        rw [hm]
        rfl
      · rfl
    · rw [Cell.weight, Cell.weight, hf]
      rfl

end Kept

/-- The arenas that calls lead to from an empty one. -/
inductive Served (cells : Nat) : Arena → Prop
  | empty : Served cells (.empty cells)
  | added {a b : Arena} (n : NodeClass) {i : Nat} :
      Served cells a → a.addSegment? n = some (i, b) → Served cells b
  | claimed {a b : Arena} (n : NodeClass) {header : Header} (payload : Payload) {h : Handle} :
      Served cells a → header.kind ≠ .free → a.claim? n header payload = some (h, b) →
      Served cells b
  | written {a b : Arena} {h : Handle} {f : Cell → Cell} : Served cells a →
      (∀ c, (f c).isFree = c.isFree) → a.update h f = .ok b → Served cells b
  | released {a b : Arena} {h : Handle} : Served cells a → a.release h = .ok b → Served cells b

theorem Served.kept {cells : Nat} (hcells : cells ≤ maxSegmentCells) (ha : Served cells a) :
    a.Kept := by
  induction ha with
  | empty => exact .empty hcells
  | added n _ hs ih => exact ih.addSegment hs
  | claimed n payload _ hkind hclaim ih =>
    exact ih.claim hclaim (by simpa [Header.isFree] using hkind)
  | written _ hf hu ih => exact ih.write hu hf
  | released _ hr ih => exact ih.release hr

/-- Only one cell is another one. -/
structure Puts (a b : Arena) (h : Handle) (c : Cell) : Prop where
  there : b.slot? h.segment h.offset = some c
  elsewhere : ∀ i offset, ¬(i = h.segment ∧ offset = h.offset) →
    b.slot? i offset = a.slot? i offset
  classes : b.classOf? = a.classOf?

theorem Edits.puts (he : Edits a b h f g) (hc : a.cellAt? h = some c) : Puts a b h (f c) := by
  refine ⟨?_, fun i offset hne => ?_, funext he.classOf?⟩
  · rw [he.slot?, if_pos ⟨rfl, rfl⟩, ← cellAt?_eq_slot?, hc]
    rfl
  · rw [he.slot?, if_neg hne]

/-- What an arena is at any time, and what a call to it does then. -/
structure Recycles (a : Arena) : Prop where
  few : a.segments.size ≤ maxSegments + 1
  /-- The free list of a class has the free cells of its segments and nothing else. -/
  listed : ∀ n h, h ∈ a.freeList n ↔ a.classOf? h.segment = some n ∧
    ∃ c, a.slot? h.segment h.offset = some c ∧ c.isFree = true
  once : ∀ n, (a.freeList n).Nodup
  /-- A handle decodes to its cell, and no cell has the handle that stands for no object. -/
  decodes : ∀ {i offset c}, a.slot? i offset = some c →
    (Handle.pack i offset).segment = i ∧ (Handle.pack i offset).offset = offset ∧
      Handle.pack i offset ≠ .noObject
  distinct : ∀ {i j offset offset' c d}, a.slot? i offset = some c → a.slot? j offset' = some d →
    Handle.pack i offset = .pack j offset' → i = j ∧ offset = offset'
  counted : a.Tallied
  capacity : a.capacity = (a.segments.toList.map (·.cells.size)).sum
  liveCells : a.liveCells = (a.segments.toList.map Segment.population).sum
  adds : ∀ n, (∃ i b, a.addSegment? n = some (i, b)) ↔ a.segments.size ≤ maxSegments
  added : ∀ {n i b}, a.addSegment? n = some (i, b) → i = a.segments.size ∧
    (∀ j offset, b.slot? j offset = if j = i then if offset < a.segmentCells then some {} else none
      else a.slot? j offset) ∧
    ∀ j, b.classOf? j = if j = i then some n else a.classOf? j
  claims : ∀ n header payload, a.claim? n header payload = none ↔
    ∀ i offset c, a.classOf? i = some n → a.slot? i offset = some c → c.isFree = false
  claimed : ∀ {n header payload h b}, a.claim? n header payload = some (h, b) →
    a.contains h = false ∧ a.classOf? h.segment = some n ∧ Puts a b h { header, payload }
  writes : ∀ {h f b}, a.update h f = .ok b → ∃ c, a.slot? h.segment h.offset = some c ∧
    Puts a b h (f c) ∧ b.freeList = a.freeList
  releases : ∀ h, (∃ b, a.release h = .ok b) ↔ a.contains h = true
  released : ∀ {h b}, a.release h = .ok b → Puts a b h {}
  /-- A cell just claimed and released is the next one of its class. -/
  again : ∀ {n header payload h b}, a.claim? n header payload = some (h, b) →
    header.kind ≠ .free → ∃ c, b.release h = .ok c ∧
      ∀ header payload, ∃ d, c.claim? n header payload = some (h, d)

theorem Tidy.decodes (ht : a.Tidy) {i offset : Nat} (hc : a.slot? i offset = some c) :
    (Handle.pack i offset).segment = i ∧ (Handle.pack i offset).offset = offset := by
  obtain ⟨s, hs, hcell⟩ := Option.bind_eq_some_iff.mp hc
  have hi := (Array.getElem?_eq_some_iff.mp hs).1
  have ho := (Array.getElem?_eq_some_iff.mp hcell).1
  have hfew := ht.few
  have hsmall := ht.small
  rw [ht.sized i s hs] at ho
  simp only [maxSegments, maxSegmentCells] at hfew hsmall
  refine ⟨Handle.segment_pack (by omega), ?_⟩
  rw [Handle.offset_pack]
  exact Nat.mod_eq_of_lt (by omega)

theorem Tidy.cellAt?_pack (ht : a.Tidy) {i offset : Nat} (hc : a.slot? i offset = some c) :
    a.cellAt? (.pack i offset) = some c := by
  obtain ⟨hi, ho⟩ := ht.decodes hc
  rw [cellAt?_eq_slot?, hi, ho, hc]

theorem Tidy.capacity (ht : a.Tidy) :
    a.capacity = (a.segments.toList.map (·.cells.size)).sum := by
  have hall : a.segments.toList.map (·.cells.size) =
      List.replicate a.segments.size a.segmentCells := by
    refine List.eq_replicate_iff.mpr ⟨by rw [List.length_map, Array.length_toList], fun m hm => ?_⟩
    obtain ⟨s, hs, rfl⟩ := List.mem_map.mp hm
    obtain ⟨i, hi⟩ := Array.getElem?_of_mem (Array.mem_toList_iff.mp hs)
    exact ht.sized i s hi
  rw [hall, List.sum_replicate, smul_eq_mul, Arena.capacity]

theorem Tallied.liveCells (ht : a.Tallied) :
    a.liveCells = (a.segments.toList.map Segment.population).sum := by
  have hlist : a.usages.toList.map (·.live) = List.ofFn fun n : NodeClass => (a.usage n).live :=
    List.ext_getElem (by simp) fun i _ _ => by
      rw [List.getElem_map, List.getElem_ofFn, Vector.getElem_toList]
      rfl
  have hall : a.liveCells = ∑ n : NodeClass, (a.usage n).live := by
    rw [← List.sum_ofFn, ← hlist, List.sum_eq_foldl, List.foldl_map, Arena.liveCells]
  rw [hall]
  simp only [ht.live, Arena.sum_population]
  -- each segment counts in one class only
  induction a.segments.toList with
  | nil => rfl
  | cons s ss ih =>
    have hone : ∑ n : NodeClass, populationIn n s = s.population := by simp [populationIn]
    simp only [List.map_cons, List.sum_cons, Finset.sum_add_distrib, ih, hone]

theorem release_ends (h : Handle) : (∃ b, a.release h = .ok b) ↔ a.contains h = true := by
  constructor
  · rintro ⟨b, hr⟩
    exact contains_iff.mpr (release_eq_ok hr).1
  · intro hin
    obtain ⟨c, hc⟩ := contains_iff.mp hin
    obtain ⟨hat, hlive⟩ := get?_eq_some.mp hc
    obtain ⟨s, hs⟩ : ∃ s, a.segments[h.segment]? = some s :=
      ⟨_, Array.getElem?_eq_getElem (segment_lt hat)⟩
    rw [cellAt?, hs] at hat
    have hcell : s.cells[h.offset]? = some c := hat
    unfold Arena.release
    simp only [hs, hcell, hlive, Bool.false_eq_true, if_false]
    exact ⟨_, rfl⟩

theorem slot?_addSegment {i : Nat} (hs : a.addSegment? n = some (i, b)) : i = a.segments.size ∧
    (∀ j offset, b.slot? j offset = if j = i then if offset < a.segmentCells then some {} else none
      else a.slot? j offset) ∧ ∀ j, b.classOf? j = if j = i then some n else a.classOf? j := by
  obtain ⟨-, hsegments, -⟩ := addSegment?_eq_some hs
  have hi : i = a.segments.size := by
    simp only [addSegment?] at hs
    split at hs
    · cases hs
    · exact (congrArg Prod.fst (Option.some.inj hs)).symm
  subst hi
  refine ⟨rfl, fun j offset => ?_, fun j => ?_⟩
  · rw [slot?, hsegments, Array.getElem?_push]
    split
    · exact Array.getElem?_replicate ..
    · rfl
  · rw [classOf?, hsegments, Array.getElem?_push]
    split <;> rfl

namespace Kept

theorem claim?_eq_none (ha : a.Kept) (n : NodeClass) (header : Header) (payload : Payload) :
    a.claim? n header payload = none ↔
      ∀ i offset c, a.classOf? i = some n → a.slot? i offset = some c → c.isFree = false := by
  have hnone : a.claim? n header payload = none ↔ a.freeList n = [] := by
    unfold claim?
    cases a.freeList n <;> simp
  rw [hnone]
  constructor
  · intro hempty i offset c hclass hc
    rw [← (ha.tidy.decodes hc).1] at hclass
    by_contra hfree
    have hin := ha.listed (ha.tidy.cellAt?_pack hc) (by simpa using hfree) hclass
    rw [hempty] at hin
    cases hin
  · intro hnone
    by_contra hsome
    obtain ⟨h, hin⟩ := List.exists_mem_of_ne_nil _ hsome
    obtain ⟨hclass, c, hc, hfree⟩ := ha.tidy.free n h hin
    rw [cellAt?_eq_slot?] at hc
    exact absurd ((hnone _ _ c hclass hc).symm.trans hfree) Bool.false_ne_true

theorem claimed (ha : a.Kept) (hclaim : a.claim? n header payload = some (h, b)) :
    a.contains h = false ∧ a.classOf? h.segment = some n ∧ Puts a b h { header, payload } := by
  obtain ⟨⟨rest, hhead, -⟩, -⟩ := claim?_eq_some hclaim
  obtain ⟨hclass, c, hc, hfree⟩ := ha.tidy.free n h (hhead ▸ List.mem_cons_self)
  refine ⟨?_, hclass, (claim?_edits hclaim).puts hc⟩
  rw [contains, get?, hc, Option.filter_some, hfree]
  rfl

theorem claim?_release (ha : a.Kept) (hclaim : a.claim? n header payload = some (h, b))
    (hlive : header.isFree = false) : ∃ c, b.release h = .ok c ∧
      ∀ header payload, ∃ d, c.claim? n header payload = some (h, d) := by
  obtain ⟨⟨rest, hhead, -⟩, hshape, hcells⟩ := claim?_eq_some hclaim
  obtain ⟨hclass, c, hc, -⟩ := ha.tidy.free n h (hhead ▸ List.mem_cons_self)
  have hget : b.get? h = some { header, payload } := by
    rw [get?_eq_some, hcells, if_pos rfl, hc]
    exact ⟨rfl, hlive⟩
  obtain ⟨e, hr⟩ := (release_ends h).mpr (contains_of_get? hget)
  obtain ⟨-, ⟨m, hm, hlists⟩, -⟩ := release_eq_ok hr
  rw [classAt?_eq_of_shape hshape, hclass] at hm
  obtain rfl := Option.some.inj hm
  refine ⟨e, hr, fun header payload => ?_⟩
  have hnext := hlists n
  rw [if_pos rfl] at hnext
  unfold claim?
  rw [hnext]
  exact ⟨_, rfl⟩

end Kept

/-- Whatever calls an arena has served, it is in order, and cells are handed out and taken back. -/
theorem Served.recycles {cells : Nat} (hcells : cells ≤ maxSegmentCells)
    (hserved : Served cells a) : a.Recycles := by
  have ha := hserved.kept hcells
  have ht := ha.tidy
  refine ⟨ht.few, fun n h => ?_, ht.once, fun hc => ?_, fun hc hd heq => ?_, ha.tallied,
    ht.capacity, ha.tallied.liveCells, fun n => ?_, slot?_addSegment, ha.claim?_eq_none,
    ha.claimed, fun hu => ?_, release_ends, fun hr => ?_, fun hclaim hkind => ?_⟩
  · rw [← cellAt?_eq_slot?]
    exact ⟨ht.free n h, fun ⟨hclass, c, hc, hfree⟩ => ha.listed hc hfree hclass⟩
  · obtain ⟨hi, ho⟩ := ht.decodes hc
    exact ⟨hi, ho, ht.not_noObject (ht.cellAt?_pack hc)⟩
  · obtain ⟨hi, ho⟩ := ht.decodes hc
    obtain ⟨hj, ho'⟩ := ht.decodes hd
    rw [heq] at hi ho
    exact ⟨hi.symm.trans hj, ho.symm.trans ho'⟩
  · unfold addSegment?
    by_cases hfew : a.segments.size > maxSegments
    · simp [hfew]
    · simp [hfew, Nat.le_of_not_gt hfew]
  · obtain ⟨⟨c, hc⟩, rfl⟩ := update_eq_ok hu
    obtain ⟨hat, -⟩ := get?_eq_some.mp hc
    exact ⟨c, cellAt?_eq_slot? _ _ ▸ hat, edits_setCell.puts hat, rfl⟩
  · obtain ⟨⟨c, hc⟩, -⟩ := release_eq_ok hr
    exact (release_edits hr).puts (get?_eq_some.mp hc).1
  · exact ha.claim?_release hclaim (by simpa [Header.isFree] using hkind)

/-- Cells of two classes are claimed in turn, and the first one is taken back. -/
theorem recycles_interleaved : ∃ a, Served 2 a ∧ a.Recycles ∧
    a.freeList 0 = [.pack 0 0, .pack 0 1] ∧ a.freeList 2 = [.pack 1 1] ∧ a.liveCells = 1 := by
  have hpair : ({ kind := .pair } : Header).kind ≠ .free := by decide
  have hserved : Served 2 _ :=
    .released (.claimed 2 (.pair .nil .nil .nil) (.claimed 0 (.pair .nil .nil .nil)
      (.added 2 (.added 0 .empty rfl) rfl) hpair rfl) hpair rfl) (h := .pack 0 0) rfl
  exact ⟨_, hserved, hserved.recycles (by decide), rfl, rfl, rfl⟩

end Arena

end ManagedHeap
