import Mathlib.Algebra.GroupWithZero.Nat
import Mathlib.Data.List.Nodup
import ManagedHeap.Proofs.ComputationRuns

/-!
# Cells of an arena

What a look-up finds after each operation of the arena, and the books that the
operations keep: all segments have one size, and the free list of a class names
free cells in segments of that class, none of them twice.
-/

namespace ManagedHeap.Arena

variable {a b : Arena} {h k : Handle} {c d : Cell} {f : Cell → Cell}

theorem get?_eq_some : a.get? h = some c ↔ a.cellAt? h = some c ∧ c.isFree = false := by
  simp only [get?, Option.filter_eq_some_iff, Bool.not_eq_eq_eq_not, Bool.not_true]

theorem any_cellAt? {p : Cell → Bool} (hp : ∀ c : Cell, c.isFree = true → p c = false) :
    (a.cellAt? h).any p = (a.get? h).any p := by
  unfold get?
  cases a.cellAt? h with
  | none => rfl
  | some c =>
    rw [Option.filter_some]
    cases hc : c.isFree with
    | true => simp [hp c hc]
    | false => simp

theorem contains_iff : a.contains h = true ↔ ∃ c, a.get? h = some c := by
  simp only [contains, Option.isSome_iff_exists]

theorem contains_of_get? (hc : a.get? h = some c) : a.contains h = true :=
  contains_iff.mpr ⟨c, hc⟩

theorem get_eq_ok : a.get h = .ok c ↔ a.get? h = some c := by
  unfold get
  cases a.get? h with
  | none => simp
  | some d => simp

theorem get?_setCell (hf : ∀ c, (f c).isFree = c.isFree) :
    (a.setCell h f).get? k = if k = h then (a.get? k).map f else a.get? k := by
  simp only [get?, cellAt?_setCell]
  split
  · cases a.cellAt? k with
    | none => rfl
    | some c =>
      simp only [Option.map_some, Option.filter_some, hf c]
      split <;> rfl
  · rfl

theorem get?_setCell_ne (hk : k ≠ h) : (a.setCell h f).get? k = a.get? k := by
  simp only [get?, cellAt?_setCell, if_neg hk]

theorem get?_setCell_self (hc : a.get? h = some c) (hf : (f c).isFree = false) :
    (a.setCell h f).get? h = some (f c) := by
  obtain ⟨hat, -⟩ := get?_eq_some.mp hc
  rw [get?_eq_some, cellAt?_setCell, if_pos rfl, hat]
  exact ⟨rfl, hf⟩

theorem contains_setCell (hf : ∀ c, (f c).isFree = c.isFree) :
    (a.setCell h f).contains k = a.contains k := by
  simp only [contains, get?_setCell hf]
  split <;> simp

theorem setCell_id (a : Arena) (h : Handle) : a.setCell h id = a := by
  have hmodify : ∀ {α : Type} (xs : Array α) (i : Nat), xs.modify i id = xs := by
    intro α xs i
    apply Array.ext_getElem?
    intro j
    rw [Array.getElem?_modify]
    split <;> simp
  simp only [setCell, hmodify]
  exact congrArg (fun s => { a with segments := s }) (hmodify a.segments h.segment)

def shape (a : Arena) : Array (NodeClass × Nat) × Nat :=
  (a.segments.map fun s => (s.nodeClass, s.cells.size), a.segmentCells)

theorem shape_setCell : (a.setCell h f).shape = a.shape := by
  simp only [shape, setCell, Prod.mk.injEq, and_true]
  apply Array.ext_getElem?
  intro i
  simp only [Array.getElem?_map, Array.getElem?_modify]
  split
  · cases a.segments[i]? <;> simp
  · rfl

theorem shape_countLive {i : Nat} {n : NodeClass} {g : Nat → Nat} :
    (a.countLive i n g).shape = a.shape := by
  simp only [shape, countLive, Prod.mk.injEq, and_true]
  apply Array.ext_getElem?
  intro j
  simp only [Array.getElem?_map, Array.getElem?_modify]
  split
  · cases a.segments[j]? <;> simp
  · rfl

theorem cellAt?_countLive {i : Nat} {n : NodeClass} {g : Nat → Nat} :
    (a.countLive i n g).cellAt? k = a.cellAt? k := by
  simp only [cellAt?, countLive, Array.getElem?_modify]
  cases a.segments[k.segment]? with
  | none => simp
  | some s => by_cases hi : i = k.segment <;> simp [hi]

def column (a : Arena) (i : Nat) : List Handle :=
  (List.range (a.segments[i]?.map (·.cells.size) |>.getD 0)).map (Handle.pack i)

/-- Everything an arena holds besides its cells. -/
def books (a : Arena) :
    Array (NodeClass × Nat × Nat) × Vector (List Handle) 7 × Vector ClassUsage 7 × Nat :=
  (a.segments.map fun s => (s.nodeClass, s.cells.size, s.live), a.freeLists, a.usages,
    a.segmentCells)

theorem books_setCell : (a.setCell h f).books = a.books := by
  simp only [books, setCell, Prod.mk.injEq, and_true]
  apply Array.ext_getElem?
  intro i
  simp only [Array.getElem?_map, Array.getElem?_modify]
  split
  · cases a.segments[i]? <;> simp
  · rfl

theorem shape_of_books (hb : a.books = b.books) : a.shape = b.shape := by
  have hsegments := congrArg (fun p => p.1.map fun q => (q.1, q.2.1)) hb
  simp only [books, Array.map_map, Function.comp_def] at hsegments
  exact Prod.ext hsegments (congrArg (fun p => p.2.2.2) hb)

theorem freeLists_of_books (hb : a.books = b.books) : a.freeLists = b.freeLists :=
  congrArg (fun p => p.2.1) hb

/-- The class of the segment that a handle points into. -/
def classAt? (a : Arena) (h : Handle) : Option NodeClass :=
  a.segments[h.segment]?.map (·.nodeClass)

theorem classAt?_eq_of_shape (hs : a.shape = b.shape) (h : Handle) :
    a.classAt? h = b.classAt? h := by
  have hseg := congrArg (fun p => (p.1[h.segment]?).map Prod.fst) hs
  simpa [shape, classAt?, Function.comp_def] using hseg

/-- The books of an arena. -/
structure Tidy (a : Arena) : Prop where
  few : a.segments.size ≤ maxSegments + 1
  small : a.segmentCells ≤ maxSegmentCells
  sized : ∀ (i : Nat) (s : Segment), a.segments[i]? = some s → s.cells.size = a.segmentCells
  free : ∀ n h, h ∈ a.freeList n →
    a.classAt? h = some n ∧ ∃ c, a.cellAt? h = some c ∧ c.isFree = true
  once : ∀ n, (a.freeList n).Nodup

theorem few_eq_of_shape (hs : a.shape = b.shape) : a.segments.size = b.segments.size := by
  have hsize := congrArg (fun p => p.1.size) hs
  simpa [shape] using hsize

theorem segmentCells_of_shape (hs : a.shape = b.shape) : a.segmentCells = b.segmentCells :=
  congrArg Prod.snd hs

theorem capacity_of_shape (hs : a.shape = b.shape) : a.capacity = b.capacity := by
  rw [capacity, few_eq_of_shape hs, segmentCells_of_shape hs, capacity]

theorem sized_of_shape (hs : a.shape = b.shape)
    (ha : ∀ (i : Nat) (s : Segment), a.segments[i]? = some s → s.cells.size = a.segmentCells) :
    ∀ (i : Nat) (s : Segment), b.segments[i]? = some s → s.cells.size = b.segmentCells := by
  intro i s hi
  have hcells := segmentCells_of_shape hs
  have hseg := congrArg (fun p => (p.1[i]?).map Prod.snd) hs
  simp only [shape, Array.getElem?_map, hi, Option.map_some, Option.map_map] at hseg
  cases ht : a.segments[i]? with
  | none => simp [ht] at hseg
  | some t =>
    simp only [ht, Option.map_some, Function.comp, Option.some.injEq] at hseg
    rw [← hseg, ha i t ht, hcells]

theorem Tidy.congr (ht : a.Tidy) (hs : a.shape = b.shape) (hl : b.freeLists = a.freeLists)
    (hc : ∀ k c, a.cellAt? k = some c → c.isFree = true →
      ∃ d, b.cellAt? k = some d ∧ d.isFree = true) : b.Tidy := by
  have hlist : ∀ n, b.freeList n = a.freeList n := fun n => by simp only [freeList, hl]
  have hcells := segmentCells_of_shape hs
  refine ⟨few_eq_of_shape hs ▸ ht.few, hcells ▸ ht.small, sized_of_shape hs ht.sized, ?_,
    fun n => hlist n ▸ ht.once n⟩
  intro n h hh
  rw [hlist n] at hh
  obtain ⟨hclass, c, hat, hfree⟩ := ht.free n h hh
  exact ⟨classAt?_eq_of_shape hs h ▸ hclass, hc h c hat hfree⟩

theorem Tidy.setCell (ht : a.Tidy) (hc : a.get? h = some c) : (a.setCell h f).Tidy := by
  refine ht.congr shape_setCell.symm rfl ?_
  intro k d hat hfree
  rw [cellAt?_setCell]
  split
  · rename_i hk
    subst hk
    obtain ⟨hc, hlive⟩ := get?_eq_some.mp hc
    rw [hat, Option.some.injEq] at hc
    rw [hc, hlive] at hfree
    exact nomatch hfree
  · exact ⟨d, hat, hfree⟩

theorem segment_lt (hc : a.cellAt? h = some c) : h.segment < a.segments.size := by
  unfold cellAt? at hc
  split at hc
  · rename_i s hs
    exact (Array.getElem?_eq_some_iff.mp hs).1
  · exact nomatch hc

/-- The segments fit into handles, and all have one size. -/
structure Even (a : Arena) : Prop where
  few : a.segments.size ≤ maxSegments + 1
  sized : ∀ (i : Nat) (s : Segment), a.segments[i]? = some s → s.cells.size = a.segmentCells

theorem Tidy.even (ht : a.Tidy) : a.Even := ⟨ht.few, ht.sized⟩

theorem Even.not_noObject (he : a.Even) (hc : a.cellAt? h = some c) : h ≠ .noObject := by
  rintro rfl
  have hlt := segment_lt hc
  have hseg : Handle.noObject.segment = 1048575 := by decide
  have hfew := he.few
  simp only [maxSegments] at hfew
  omega

theorem Tidy.not_noObject (ht : a.Tidy) (hc : a.cellAt? h = some c) : h ≠ .noObject :=
  ht.even.not_noObject hc

/-- Two arenas with the same books whose cells have the same normal forms. -/
structure SameBut (norm : Cell → Cell) (a b : Arena) : Prop where
  books : b.books = a.books
  cells : ∀ h, (b.cellAt? h).map norm = (a.cellAt? h).map norm

namespace SameBut

variable {norm : Cell → Cell} {e : Arena}

theorem refl (norm : Cell → Cell) (a : Arena) : SameBut norm a a := ⟨rfl, fun _ => rfl⟩

theorem symm (hab : SameBut norm a b) : SameBut norm b a :=
  ⟨hab.books.symm, fun h => (hab.cells h).symm⟩

theorem trans (hab : SameBut norm a b) (hbe : SameBut norm b e) : SameBut norm a e :=
  ⟨hbe.books.trans hab.books, fun h => (hbe.cells h).trans (hab.cells h)⟩

theorem shape (hab : SameBut norm a b) : b.shape = a.shape := shape_of_books hab.books

theorem cellAt? (hab : SameBut norm a b) (hc : a.cellAt? h = some c) :
    ∃ d, b.cellAt? h = some d ∧ norm d = norm c := by
  have hcell := hab.cells h
  rw [hc, Option.map_some] at hcell
  exact Option.map_eq_some_iff.mp hcell

theorem get? (hab : SameBut norm a b) (hn : ∀ c, (norm c).isFree = c.isFree)
    (hc : a.get? h = some c) : ∃ d, b.get? h = some d ∧ norm d = norm c := by
  obtain ⟨hat, hlive⟩ := get?_eq_some.mp hc
  obtain ⟨d, hd, hdc⟩ := hab.cellAt? hat
  refine ⟨d, get?_eq_some.mpr ⟨hd, ?_⟩, hdc⟩
  rw [← hn, hdc, hn, hlive]

theorem setCell (hc : a.get? h = some c) (hf : norm (f c) = norm c) :
    SameBut norm a (a.setCell h f) := by
  refine ⟨books_setCell, ?_⟩
  intro k
  rw [cellAt?_setCell]
  split
  · rename_i hk
    subst hk
    rw [(get?_eq_some.mp hc).1, Option.map_some, Option.map_some, Option.map_some, hf]
  · rfl

theorem tidy (hab : SameBut norm a b) (hn : ∀ c, (norm c).isFree = c.isFree) (ht : a.Tidy) :
    b.Tidy := by
  refine ht.congr hab.shape.symm (freeLists_of_books hab.books) ?_
  intro k c hc hfree
  obtain ⟨d, hd, hdc⟩ := hab.cellAt? hc
  exact ⟨d, hd, by rw [← hn, hdc, hn, hfree]⟩

end SameBut

theorem claim?_eq_some {n : NodeClass} {header : Header} {payload : Payload}
    (hclaim : a.claim? n header payload = some (h, b)) :
    (∃ rest, a.freeList n = h :: rest ∧
      ∀ i, b.freeList i = if i = n then rest else a.freeList i) ∧
    b.shape = a.shape ∧
    ∀ k, b.cellAt? k = if k = h then (a.cellAt? k).map fun _ => { header, payload }
      else a.cellAt? k := by
  unfold claim? at hclaim
  cases hl : a.freeList n with
  | nil => simp [hl] at hclaim
  | cons g rest =>
    simp only [hl, Option.some.injEq, Prod.mk.injEq] at hclaim
    obtain ⟨rfl, rfl⟩ := hclaim
    refine ⟨⟨rest, rfl, ?_⟩, ?_, ?_⟩
    · intro i
      simp only [freeList, countLive, Arena.setCell, Fin.getElem_fin, Vector.getElem_set]
      by_cases hi : i = n
      · simp [hi]
      · have hne : (n : Nat) ≠ i := fun e => hi (Fin.ext e.symm)
        simp [hi, hne]
    · rw [shape_countLive, shape_setCell]
      rfl
    · intro k
      rw [cellAt?_countLive, cellAt?_setCell]
      rfl

theorem Tidy.claim {n : NodeClass} {header : Header} {payload : Payload} (ht : a.Tidy)
    (hclaim : a.claim? n header payload = some (h, b)) : b.Tidy := by
  obtain ⟨⟨rest, hhead, hlists⟩, hshape, hcells⟩ := claim?_eq_some hclaim
  have honce := ht.once n
  rw [hhead, List.nodup_cons] at honce
  refine ⟨few_eq_of_shape hshape ▸ ht.few, ?_, ?_, ?_, ?_⟩
  · exact segmentCells_of_shape hshape ▸ ht.small
  · exact sized_of_shape hshape.symm ht.sized
  · intro i g hg
    have hgold : g ∈ a.freeList i ∧ g ≠ h := by
      rw [hlists i] at hg
      split at hg
      · rename_i hi
        subst hi
        rw [hhead]
        exact ⟨List.mem_cons_of_mem h hg, fun e => honce.1 (e ▸ hg)⟩
      · rename_i hi
        refine ⟨hg, ?_⟩
        rintro rfl
        have hclass := (ht.free i g hg).1
        rw [(ht.free n g (hhead ▸ List.mem_cons_self)).1, Option.some.injEq] at hclass
        exact hi hclass.symm
    obtain ⟨hclass, c, hat, hfree⟩ := ht.free i g hgold.1
    refine ⟨classAt?_eq_of_shape hshape g ▸ hclass, c, ?_, hfree⟩
    rw [hcells, if_neg hgold.2, hat]
  · intro i
    rw [hlists i]
    split
    · exact honce.2
    · exact ht.once i

theorem Tidy.claim_free {n : NodeClass} {header : Header} {payload : Payload} (ht : a.Tidy)
    (hclaim : a.claim? n header payload = some (h, b)) :
    ∃ c, a.cellAt? h = some c ∧ c.isFree = true := by
  obtain ⟨⟨rest, hhead, -⟩, -⟩ := claim?_eq_some hclaim
  exact (ht.free n h (hhead ▸ List.mem_cons_self)).2

theorem release_eq_ok (hr : a.release h = .ok b) :
    (∃ c, a.get? h = some c) ∧
    (∃ n, a.classAt? h = some n ∧
      ∀ i, b.freeList i = if i = n then h :: a.freeList n else a.freeList i) ∧
    b.shape = a.shape ∧
    ∀ k, b.cellAt? k = if k = h then (a.cellAt? k).map fun _ => {} else a.cellAt? k := by
  unfold release at hr
  cases hs : a.segments[h.segment]? with
  | none => simp [hs] at hr
  | some s =>
    cases hc : s.cells[h.offset]? with
    | none => simp [hs, hc] at hr
    | some c =>
      have hat : a.cellAt? h = some c := by
        unfold cellAt?
        rw [hs]
        exact hc
      simp only [hs, hc] at hr
      split at hr
      · exact nomatch hr
      · rename_i hlive
        rw [Except.ok.injEq] at hr
        subst hr
        refine ⟨⟨c, get?_eq_some.mpr ⟨hat, by simpa using hlive⟩⟩, ⟨s.nodeClass, ?_, ?_⟩, ?_, ?_⟩
        · rw [classAt?, hs]
          rfl
        · intro i
          simp only [freeList, countLive, Arena.setCell, Fin.getElem_fin, Vector.getElem_set]
          by_cases hi : i = s.nodeClass
          · simp [hi]
          · have hne : (s.nodeClass : Nat) ≠ i := fun e => hi (Fin.ext e.symm)
            simp [hi, hne]
        · change (Arena.countLive (a.setCell h fun _ => {}) h.segment s.nodeClass (· - 1)).shape = _
          rw [shape_countLive, shape_setCell]
        · intro k
          change (Arena.countLive (a.setCell h fun _ => {}) h.segment s.nodeClass (· - 1)).cellAt? k
            = _
          rw [cellAt?_countLive, cellAt?_setCell]

theorem Tidy.release (ht : a.Tidy) (hr : a.release h = .ok b) : b.Tidy := by
  obtain ⟨⟨c, hc⟩, ⟨n, hn, hlists⟩, hshape, hcells⟩ := release_eq_ok hr
  obtain ⟨hat, hlive⟩ := get?_eq_some.mp hc
  have hfresh : ∀ i, h ∉ a.freeList i := by
    intro i hmem
    obtain ⟨-, d, hd, hfree⟩ := ht.free i h hmem
    rw [hat, Option.some.injEq] at hd
    rw [← hd, hlive] at hfree
    exact nomatch hfree
  refine ⟨few_eq_of_shape hshape ▸ ht.few, ?_, sized_of_shape hshape.symm ht.sized, ?_, ?_⟩
  · exact segmentCells_of_shape hshape ▸ ht.small
  · intro i g hg
    rw [classAt?_eq_of_shape hshape, hcells]
    rw [hlists i] at hg
    by_cases hgh : g = h
    · subst hgh
      rw [if_pos rfl, hat]
      refine ⟨?_, {}, rfl, rfl⟩
      split at hg
      · rename_i hi
        rw [hn, hi]
      · exact absurd hg (hfresh i)
    · rw [if_neg hgh]
      have hold : g ∈ a.freeList i := by
        split at hg
        · rename_i hi
          subst hi
          exact List.mem_of_ne_of_mem hgh hg
        · exact hg
      exact ht.free i g hold
  · intro i
    rw [hlists i]
    split
    · rename_i hi
      subst hi
      exact List.nodup_cons.mpr ⟨hfresh i, ht.once i⟩
    · exact ht.once i

theorem addSegment?_eq_some {n : NodeClass} {i : Nat} (hs : a.addSegment? n = some (i, b)) :
    a.segments.size ≤ maxSegments ∧
    b.segments = a.segments.push ⟨n, Array.replicate a.segmentCells {}, 0⟩ ∧
    b.segmentCells = a.segmentCells ∧
    ∀ j, b.freeList j =
      if j = n then (List.range a.segmentCells).map (Handle.pack a.segments.size) ++ a.freeList n
      else a.freeList j := by
  simp only [addSegment?] at hs
  split at hs
  · exact nomatch hs
  · rename_i hfew
    simp only [Option.some.injEq, Prod.mk.injEq] at hs
    obtain ⟨-, rfl⟩ := hs
    refine ⟨Nat.le_of_not_lt hfew, rfl, rfl, ?_⟩
    intro j
    simp only [freeList, Fin.getElem_fin, Vector.getElem_set]
    by_cases hj : j = n
    · simp [hj]
    · have hne : (n : Nat) ≠ j := fun e => hj (Fin.ext e.symm)
      simp [hj, hne]

theorem cellAt?_addSegment {n : NodeClass} {i : Nat} (hs : a.addSegment? n = some (i, b)) :
    b.cellAt? k = if k.segment = a.segments.size then
        (if k.offset < a.segmentCells then some {} else none)
      else a.cellAt? k := by
  obtain ⟨-, hsegments, -⟩ := addSegment?_eq_some hs
  simp only [cellAt?, hsegments, Array.getElem?_push]
  by_cases hk : k.segment = a.segments.size
  · simp [hk, Array.getElem?_replicate]
  · simp [hk]

theorem get?_addSegment {n : NodeClass} {i : Nat} (hs : a.addSegment? n = some (i, b)) :
    b.get? k = a.get? k := by
  simp only [get?, cellAt?_addSegment hs]
  split
  · rename_i hk
    have hnone : a.cellAt? k = none := by
      simp only [cellAt?, hk, Array.getElem?_size]
    rw [hnone]
    split <;> rfl
  · rfl

theorem Tidy.addSegment {n : NodeClass} {i : Nat} (ht : a.Tidy)
    (hs : a.addSegment? n = some (i, b)) : b.Tidy := by
  obtain ⟨hfew, hsegments, hcells, hlists⟩ := addSegment?_eq_some hs
  have hold : ∀ h : Handle, h.segment < a.segments.size → b.classAt? h = a.classAt? h := by
    intro h hlt
    simp only [classAt?, hsegments, Array.getElem?_push, if_neg (Nat.ne_of_lt hlt)]
  have hseg : ∀ o, (Handle.pack a.segments.size o).segment = a.segments.size := by
    intro o
    apply Handle.segment_pack
    simp only [maxSegments] at hfew
    omega
  have hfresh : ∀ j o, Handle.pack a.segments.size o ∉ a.freeList j := by
    intro j o hmem
    obtain ⟨-, c, hc, -⟩ := ht.free j _ hmem
    have hlt := segment_lt hc
    rw [hseg o] at hlt
    exact Nat.lt_irrefl _ hlt
  refine ⟨?_, hcells ▸ ht.small, ?_, ?_, ?_⟩
  · rw [hsegments, Array.size_push]
    omega
  · intro j s hj
    rw [hsegments, Array.getElem?_push] at hj
    split at hj
    · rw [Option.some.injEq] at hj
      rw [← hj, hcells]
      exact Array.size_replicate
    · rw [hcells]
      exact ht.sized j s hj
  · intro j h hh
    rw [hlists j] at hh
    rw [cellAt?_addSegment hs]
    by_cases hnew : j = n ∧ ∃ o < a.segmentCells, Handle.pack a.segments.size o = h
    · obtain ⟨rfl, o, ho, rfl⟩ := hnew
      have hoff : (Handle.pack a.segments.size o).offset < a.segmentCells := by
        rw [Handle.offset_pack]
        omega
      rw [if_pos (hseg o), if_pos hoff]
      refine ⟨?_, {}, rfl, rfl⟩
      simp [classAt?, hseg o, hsegments]
    · have hin : h ∈ a.freeList j := by
        split at hh
        · rename_i hj
          subst hj
          rcases List.mem_append.mp hh with hmap | hmem
          · obtain ⟨o, ho, rfl⟩ := List.mem_map.mp hmap
            exact absurd ⟨rfl, o, List.mem_range.mp ho, rfl⟩ hnew
          · exact hmem
        · exact hh
      obtain ⟨hclass, c, hat, hfree⟩ := ht.free j h hin
      have hlt := segment_lt hat
      rw [if_neg (Nat.ne_of_lt hlt), hold h hlt]
      exact ⟨hclass, c, hat, hfree⟩
  · intro j
    rw [hlists j]
    split
    · refine List.nodup_append.mpr ⟨?_, ht.once n, ?_⟩
      · refine List.Nodup.map_on ?_ List.nodup_range
        intro o ho p hp hop
        have hoff := congrArg Handle.offset hop
        have hsmall := ht.small
        simp only [maxSegmentCells] at hsmall
        rw [Handle.offset_pack, Handle.offset_pack] at hoff
        rw [List.mem_range] at ho hp
        omega
      · rintro _ hmap g hg rfl
        obtain ⟨o, -, ho⟩ := List.mem_map.mp hmap
        exact hfresh n o (ho ▸ hg)
    · exact ht.once j

theorem column_of_shape (hs : a.shape = b.shape) : a.column = b.column := by
  funext i
  have hsize := congrArg (fun p => (p.1[i]?).map Prod.snd) hs
  simp only [shape, Array.getElem?_map, Option.map_map] at hsize
  have hsize : a.segments[i]?.map (·.cells.size) = b.segments[i]?.map (·.cells.size) := hsize
  rw [column, column, hsize]

theorem positions_of_shape (hs : a.shape = b.shape) : a.positions = b.positions := by
  change (List.range a.segments.size).flatMap a.column = (List.range b.segments.size).flatMap b.column
  rw [few_eq_of_shape hs, column_of_shape hs]

theorem mem_positions (ht : a.Tidy) : h ∈ a.positions ↔ ∃ c, a.cellAt? h = some c := by
  have hfew := ht.few
  have hsmall := ht.small
  simp only [maxSegments, maxSegmentCells] at hfew hsmall
  simp only [positions, List.mem_flatMap, List.mem_range, List.mem_map]
  constructor
  · rintro ⟨i, hi, o, ho, rfl⟩
    have hs : a.segments[i]? = some a.segments[i] := Array.getElem?_eq_getElem hi
    have hsize := ht.sized i _ hs
    rw [hs, Option.map_some, Option.getD_some] at ho
    refine ⟨a.segments[i].cells[o], ?_⟩
    rw [cellAt?, Handle.segment_pack (by omega), Handle.offset_pack, hs]
    have hmod : o % 4096 = o := Nat.mod_eq_of_lt (by omega)
    rw [hmod]
    exact Array.getElem?_eq_getElem ho
  · rintro ⟨c, hc⟩
    have hlt := segment_lt hc
    refine ⟨h.segment, hlt, h.offset, ?_, Handle.pack_segment_offset h⟩
    have hs : a.segments[h.segment]? = some a.segments[h.segment] := Array.getElem?_eq_getElem hlt
    rw [cellAt?, hs] at hc
    rw [hs, Option.map_some, Option.getD_some]
    exact (Array.getElem?_eq_some_iff.mp hc).1

theorem positions_nodup (ht : a.Tidy) : a.positions.Nodup := by
  have hfew := ht.few
  have hsmall := ht.small
  simp only [maxSegments, maxSegmentCells] at hfew hsmall
  refine List.nodup_flatMap.mpr ⟨?_, ?_⟩
  · intro i hi
    have hlt := List.mem_range.mp hi
    have hs : a.segments[i]? = some a.segments[i] := Array.getElem?_eq_getElem hlt
    have hsize := ht.sized i _ hs
    rw [hs, Option.map_some, Option.getD_some]
    refine List.Nodup.map_on ?_ List.nodup_range
    intro o ho p hp hop
    have hoff := congrArg Handle.offset hop
    rw [Handle.offset_pack, Handle.offset_pack] at hoff
    rw [List.mem_range] at ho hp
    omega
  · refine List.nodup_range.imp_of_mem ?_
    intro i j hi hj hij h hhi hhj
    obtain ⟨o, -, rfl⟩ := List.mem_map.mp hhi
    obtain ⟨p, -, hp⟩ := List.mem_map.mp hhj
    have hseg := congrArg Handle.segment hp
    rw [List.mem_range] at hi hj
    rw [Handle.segment_pack (by omega), Handle.segment_pack (by omega)] at hseg
    exact hij hseg.symm

end ManagedHeap.Arena
