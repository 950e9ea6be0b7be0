import Mathlib.Data.List.Perm.Subperm
import Mathlib.Data.List.ProdSigma
import ManagedHeap.Proofs.Marking

/-!
# The worklist

Handles are given to a marking, and then the worklist is followed to its end. Whatever cycles and
sharing the arena has, this ends, because no object is pushed twice. What was pushed are just the
objects without a mark that paths of such objects lead to from the handles given; each of them is
traced once, and the arena has their marks in addition and is otherwise the same.
-/

namespace ManagedHeap

namespace Arena

variable {a : Arena} {s : Scan} {h k : Handle} {c : Cell} {hs : List Handle}

theorem Even.length_le_capacity (he : a.Even) (honce : hs.Nodup)
    (hcells : ∀ h ∈ hs, ∃ c, a.cellAt? h = some c) : hs.length ≤ a.capacity := by
  have hparts : (hs.map fun h => (h.segment, h.offset)).Nodup := by
    refine honce.map fun h k hhk => ?_
    obtain ⟨hsegment, hoffset⟩ := Prod.mk.inj hhk
    exact Handle.eq_of_parts hsegment hoffset
  have hin : (hs.map fun h => (h.segment, h.offset)) ⊆
      List.range a.segments.size ×ˢ List.range a.segmentCells := by
    intro p hp
    obtain ⟨h, hh, rfl⟩ := List.mem_map.mp hp
    obtain ⟨c, hc⟩ := hcells h hh
    have hlt := segment_lt hc
    have hs := Array.getElem?_eq_getElem hlt
    rw [cellAt?, hs] at hc
    have hoffset := (Array.getElem?_eq_some_iff.mp hc).1
    rw [he.sized _ _ hs] at hoffset
    exact List.mem_product.mpr ⟨List.mem_range.mpr hlt, List.mem_range.mpr hoffset⟩
  have hle := (hparts.subperm hin).length_le
  rwa [List.length_map, List.length_product, List.length_range, List.length_range] at hle

/-- A live object without a mark that the collection does not spare. -/
def Open (s : Scan) (a : Arena) (h : Handle) : Prop :=
  ∃ c, a.get? h = some c ∧ c.flags.marked = false ∧ s.spares c.header = false

/-- Marking may come upon the handle. -/
def Followable (a : Arena) (h : Handle) : Prop := h = .noObject ∨ a.contains h = true

/-- The open objects that paths of open objects lead to from some handles. -/
inductive Opened (s : Scan) (a : Arena) (start : List Handle) : Handle → Prop
  | start {h : Handle} : h ∈ start → a.Open s h → Opened s a start h
  | edge {h k : Handle} {c : Cell} : Opened s a start h → a.get? h = some c →
      k ∈ c.edges s.withNames → a.Open s k → Opened s a start k

theorem Opened.open (ho : Opened s a hs h) : a.Open s h := by
  cases ho with
  | start _ ho => exact ho
  | edge _ _ _ ho => exact ho

theorem Open.get? (ho : a.Open s h) : ∃ c, a.get? h = some c := by
  obtain ⟨c, hc, -⟩ := ho
  exact ⟨c, hc⟩

theorem Open.covered (ho : a.Open s h) : a.Covered s h := by
  obtain ⟨c, hc, -, hspares⟩ := ho
  exact ⟨c, hc, hspares⟩

theorem open_iff : a.Open s h ↔ a.Covered s h ∧ ¬ a.Marks h := by
  constructor
  · rintro ⟨c, hc, hmark, hspares⟩
    refine ⟨⟨c, hc, hspares⟩, ?_⟩
    rintro ⟨d, hd, hmarked⟩
    rw [hc, Option.some.injEq] at hd
    rw [← hd, hmark] at hmarked
    cases hmarked
  · rintro ⟨⟨c, hc, hspares⟩, hunmarked⟩
    exact ⟨c, hc, by simpa using fun hmarked => hunmarked ⟨c, hc, hmarked⟩, hspares⟩

end Arena

namespace MarkM

/-- Handles are given to a marking in turn. Noted are those that it pushes. -/
inductive Gives (s : Scan) : Marking → List Handle → List Handle → Marking → Prop
  | nil {m : Marking} : Gives s m [] [] m
  | pushed {m mid m' : Marking} {h : Handle} {hs ps : List Handle} :
      (mark s h).run m = .ok (true, mid) → Gives s mid hs ps m' → Gives s m (h :: hs) (h :: ps) m'
  | passed {m mid m' : Marking} {h : Handle} {hs ps : List Handle} :
      (mark s h).run m = .ok (false, mid) → Gives s mid hs ps m' → Gives s m (h :: hs) ps m'

/-- Objects are taken off the worklist and traced until none is left. Noted are those that are
pushed meanwhile, and those that are traced. -/
inductive Drains (s : Scan) : Marking → List Handle → List Handle → Marking → Prop
  | done {m : Marking} : m.worklist = [] → Drains s m [] [] m
  | traced {m mid m' : Marking} {h : Handle} {c : Cell} {rest ps qs ts : List Handle} :
      m.worklist = h :: rest → m.arena.get? h = some c →
      Gives s { m with worklist := rest } (c.edges s.withNames) ps mid → Drains s mid qs ts m' →
      Drains s m (ps ++ qs) (h :: ts) m'

variable {s : Scan} {m m' : Marking} {hs ps ts : List Handle}

theorem Gives.run (hg : Gives s m hs ps m') : (markAll s hs).run m = .ok ((), m') := by
  induction hg with
  | nil => rfl
  | pushed hmark _ ih => exact run_bind.mpr ⟨_, _, hmark, ih⟩
  | passed hmark _ ih => exact run_bind.mpr ⟨_, _, hmark, ih⟩

theorem Drains.run (hd : Drains s m ps ts m') {fuel : Nat} (hfuel : ts.length ≤ fuel) :
    (drainWithin s fuel).run m = .ok ((), m') := by
  induction hd generalizing fuel with
  | done hempty =>
    cases fuel with
    | zero =>
      simp only [drainWithin, run_get_bind, hempty]
      rfl
    | succ fuel =>
      simp only [drainWithin, run_get_bind, hempty]
      rfl
  | traced hwork hc hgives _ ih =>
    cases fuel with
    | zero => exact absurd hfuel (Nat.not_succ_le_zero _)
    | succ fuel =>
      simp only [drainWithin, run_get_bind, hwork]
      refine run_bind.mpr ⟨(), _, run_modify.mpr rfl,
        run_bind.mpr ⟨(), _, ?_, ih (Nat.le_of_succ_le_succ hfuel)⟩⟩
      exact run_bind.mpr ⟨_, _, MarkM.run_cell.mpr ⟨hc, rfl⟩, hgives.run⟩

end MarkM

/-- What a marking does that pushes some objects. -/
structure Marking.Pushes (s : Scan) (m : Marking) (ps : List Handle) (m' : Marking) : Prop where
  books : m'.arena.books = m.arena.books
  cells : ∀ h, m'.arena.cellAt? h =
    if h ∈ ps then (m.arena.cellAt? h).map MarkM.marked else m.arena.cellAt? h
  opened : ∀ h ∈ ps, m.arena.Open s h
  once : ps.Nodup
  counted : m'.marked = m.marked + ps.length

namespace Marking.Pushes

open Arena MarkM

variable {s : Scan} {m mid m' : Marking} {ps qs : List Handle} {h : Handle} {c : Cell}

theorem refl (s : Scan) (m : Marking) : m.Pushes s [] m :=
  ⟨rfl, fun _ => (if_neg List.not_mem_nil).symm, nofun, .nil, rfl⟩

theorem requeue {worklist : List Handle} (hp : { m with worklist }.Pushes s ps m') :
    m.Pushes s ps m' :=
  ⟨hp.books, hp.cells, hp.opened, hp.once, hp.counted⟩

theorem get? (hp : m.Pushes s ps m') (h : Handle) : m'.arena.get? h =
    if h ∈ ps then (m.arena.get? h).map MarkM.marked else m.arena.get? h := by
  simp only [Arena.get?, hp.cells]
  split
  · cases m.arena.cellAt? h with
    | none => rfl
    | some c =>
      simp only [Option.map_some, Option.filter_some]
      have hfree : (MarkM.marked c).isFree = c.isFree := rfl
      rw [hfree]
      split <;> rfl
  · rfl

theorem same (hp : m.Pushes s ps m') : SameBut Cell.unmarked m.arena m'.arena := by
  refine ⟨hp.books, fun h => ?_⟩
  rw [hp.cells]
  split
  · rw [Option.map_map]
    rfl
  · rfl

theorem marks (hp : m.Pushes s ps m') : m'.arena.Marks h ↔ m.arena.Marks h ∨ h ∈ ps := by
  unfold Marks
  rw [hp.get?]
  by_cases hh : h ∈ ps
  · obtain ⟨c, hc⟩ := (hp.opened h hh).get?
    simp [hh, hc, MarkM.marked, Cell.mapFlags, Cell.flags]
  · simp [hh]

theorem opened_iff (hp : m.Pushes s ps m') :
    m'.arena.Open s h ↔ m.arena.Open s h ∧ h ∉ ps := by
  have hcovered : m'.arena.Covered s h ↔ m.arena.Covered s h :=
    ⟨hp.same.alike.symm.covered, hp.same.alike.covered⟩
  rw [open_iff, open_iff, hcovered, hp.marks, not_or, and_assoc]

theorem contains (hp : m.Pushes s ps m') : m'.arena.contains h = m.arena.contains h := by
  rw [Arena.contains, Arena.contains, hp.get?]
  split
  · exact Option.isSome_map
  · rfl

theorem followable (hp : m.Pushes s ps m') : m'.arena.Followable h ↔ m.arena.Followable h := by
  rw [Followable, Followable, hp.contains]

theorem edges (hp : m.Pushes s ps m') (hc : m'.arena.get? h = some c) :
    ∃ d, m.arena.get? h = some d ∧ d.edges s.withNames = c.edges s.withNames := by
  obtain ⟨d, hd, hdc⟩ := hp.same.alike.symm.core hc
  exact ⟨d, hd, Cell.edges_of_core hdc _⟩

theorem even (hp : m.Pushes s ps m') (he : m.arena.Even) : m'.arena.Even := by
  have hshape := hp.same.shape.symm
  exact ⟨few_eq_of_shape hshape ▸ he.few, sized_of_shape hshape he.sized⟩

theorem trans (hp : m.Pushes s ps mid) (hq : mid.Pushes s qs m') : m.Pushes s (ps ++ qs) m' := by
  refine ⟨hq.books.trans hp.books, fun h => ?_, fun h hh => ?_, ?_, ?_⟩
  · rw [hq.cells, hp.cells]
    by_cases hqs : h ∈ qs
    · have hps := (hp.opened_iff.mp (hq.opened h hqs)).2
      rw [if_pos hqs, if_neg hps, if_pos (List.mem_append_right _ hqs)]
    · simp only [List.mem_append, hqs, or_false, if_false]
  · rcases List.mem_append.mp hh with hps | hqs
    · exact hp.opened h hps
    · exact (hp.opened_iff.mp (hq.opened h hqs)).1
  · refine List.nodup_append.mpr ⟨hp.once, hq.once, fun h hps k hqs hhk => ?_⟩
    exact (hp.opened_iff.mp (hq.opened k hqs)).2 (hhk ▸ hps)
  · rw [hq.counted, hp.counted, List.length_append, Nat.add_assoc]

end Marking.Pushes

namespace MarkM

open Arena

variable {s : Scan} {m m' : Marking} {h : Handle} {hs : List Handle}

theorem mark_ends (he : m.arena.Even) (hf : m.arena.Followable h) :
    (∃ m', (mark s h).run m = .ok (true, m') ∧ m.Pushes s [h] m' ∧ m'.worklist = h :: m.worklist) ∨
      (mark s h).run m = .ok (false, m) ∧ ¬ m.arena.Open s h := by
  by_cases hno : h = .noObject
  · subst hno
    refine .inr ⟨rfl, fun ho => ?_⟩
    obtain ⟨c, hc⟩ := ho.get?
    exact he.not_noObject (get?_eq_some.mp hc).1 rfl
  · obtain ⟨c, hc⟩ := contains_iff.mp (hf.resolve_left hno)
    have htest : h.isNoObject = false := by simpa [Handle.isNoObject] using hno
    have hfind : (updateCell h id).run m = .ok ((), m) :=
      run_updateCell.mpr ⟨⟨c, hc⟩, by rw [setCell_id]⟩
    have hread : (cell h).run m = .ok (c, m) := run_cell.mpr ⟨hc, rfl⟩
    by_cases hkept : (c.header.flags.marked || s.spares c.header) = true
    · refine .inr ⟨?_, ?_⟩
      · unfold mark
        rw [htest]
        refine run_bind.mpr ⟨(), m, hfind, run_bind.mpr ⟨c, m, hread, ?_⟩⟩
        simp only [hkept, if_true]
        rfl
      · rintro ⟨d, hd, hmark, hspares⟩
        obtain rfl := Option.some.inj (hc.symm.trans hd)
        rw [show c.header.flags.marked = false from hmark, hspares] at hkept
        exact absurd hkept Bool.false_ne_true
    · refine .inl ⟨{ arena := m.arena.setCell h marked, worklist := h :: m.worklist,
                     marked := m.marked + 1 }, ?_, ?_, rfl⟩
      · unfold mark
        rw [htest]
        refine run_bind.mpr ⟨(), m, hfind, run_bind.mpr ⟨c, m, hread, ?_⟩⟩
        simp only [hkept, Bool.false_eq_true, if_false]
        exact run_bind.mpr ⟨(), _, run_updateCell.mpr ⟨⟨c, hc⟩, rfl⟩, rfl⟩
      · rw [Bool.not_eq_true, Bool.or_eq_false_iff] at hkept
        refine ⟨books_setCell, fun k => ?_, ?_, List.nodup_singleton h, rfl⟩
        · simp only [cellAt?_setCell, List.mem_singleton]
        · rintro k hk
          obtain rfl := List.mem_singleton.mp hk
          exact ⟨c, hc, hkept.1, hkept.2⟩

theorem gives (he : m.arena.Even) (hf : ∀ h ∈ hs, m.arena.Followable h) :
    ∃ ps m', Gives s m hs ps m' ∧ m.Pushes s ps m' ∧ m'.worklist = ps.reverse ++ m.worklist ∧
      ps ⊆ hs ∧ ∀ h ∈ hs, ¬ m'.arena.Open s h := by
  induction hs generalizing m with
  | nil => exact ⟨[], m, .nil, .refl s m, rfl, List.nil_subset _, nofun⟩
  | cons h hs ih =>
    have hrest : ∀ k ∈ hs, m.arena.Followable k := fun k hk => hf k (.tail _ hk)
    rcases mark_ends (s := s) he (hf h (.head _)) with ⟨mid, hmark, hone, hwork⟩ | ⟨hmark, hclosed⟩
    · obtain ⟨ps, m', hgives, hp, hwork', hsub, hnone⟩ :=
        ih (hone.even he) fun k hk => hone.followable.mpr (hrest k hk)
      refine ⟨h :: ps, m', .pushed hmark hgives, hone.trans hp, ?_, ?_, ?_⟩
      · rw [hwork', hwork, List.reverse_cons, List.append_assoc]
        rfl
      · exact List.cons_subset_cons h hsub
      · intro k hk
        rcases List.mem_cons.mp hk with rfl | hk
        · exact fun ho => (hone.opened_iff.mp (hp.opened_iff.mp ho).1).2 (.head _)
        · exact hnone k hk
    · obtain ⟨ps, m', hgives, hp, hwork', hsub, hnone⟩ := ih he hrest
      refine ⟨ps, m', .passed hmark hgives, hp, hwork', List.subset_cons_of_subset h hsub, ?_⟩
      intro k hk
      rcases List.mem_cons.mp hk with rfl | hk
      · exact fun ho => hclosed (hp.opened_iff.mp ho).1
      · exact hnone k hk

theorem drains {K : Handle → Prop} (he : m.arena.Even) (hwithin : ∀ h ∈ m.worklist, K h)
    (hlive : ∀ {h}, K h → m.arena.contains h = true)
    (hedges : ∀ {h c k}, K h → m.arena.get? h = some c → k ∈ c.edges s.withNames →
      m.arena.Followable k ∧ (m.arena.Open s k → K k)) (room : Nat)
    (hroom : ∀ ps : List Handle, ps.Nodup → (∀ h ∈ ps, m.arena.Open s h) →
      m.worklist.length + ps.length ≤ room) :
    ∃ ps ts m', Drains s m ps ts m' ∧ m.Pushes s ps m' ∧ m'.worklist = [] ∧
      ts.Perm (m.worklist ++ ps) ∧ (∀ h ∈ ps, K h) ∧
      ∀ {h c k}, h ∈ ts → m.arena.get? h = some c → k ∈ c.edges s.withNames →
        ¬ m'.arena.Open s k := by
  induction room generalizing m with
  | zero =>
    have hempty := List.eq_nil_of_length_eq_zero (Nat.le_zero.mp (hroom [] .nil nofun))
    exact ⟨[], [], m, .done hempty, .refl s m, hempty, by rw [hempty]; rfl, nofun, nofun⟩
  | succ room ih =>
    cases hwork : m.worklist with
    | nil => exact ⟨[], [], m, .done hwork, .refl s m, hwork, .refl _, nofun, nofun⟩
    | cons h rest =>
      have hK : K h := hwithin h (hwork ▸ .head _)
      obtain ⟨c, hc⟩ := contains_iff.mp (hlive hK)
      obtain ⟨ps, mid, hgives, hp, hwork', hsub, hnone⟩ :=
        gives (m := { m with worklist := rest }) he fun k hk => (hedges hK hc hk).1
      -- what was pushed is on the worklist now, and takes no room any more
      obtain ⟨qs, ts, m', hdrains, hq, hempty, hperm, hqs, htraced⟩ := ih (m := mid) (hp.even he)
        (fun k hk => by
          rw [hwork', List.mem_append, List.mem_reverse] at hk
          rcases hk with hk | hk
          · exact (hedges hK hc (hsub hk)).2 (hp.opened k hk)
          · exact hwithin k (hwork ▸ .tail _ hk))
        (fun hk => hp.contains.trans (hlive hk))
        (fun hk hd hx => by
          obtain ⟨d, hd', hsame⟩ := hp.edges hd
          obtain ⟨hf, hin⟩ := hedges hk hd' (hsame ▸ hx)
          exact ⟨hp.followable.mpr hf, fun ho => hin (hp.opened_iff.mp ho).1⟩)
        (fun qs honce hopen => by
          have hboth := hroom (ps ++ qs)
            (List.nodup_append.mpr ⟨hp.once, honce, fun x hx y hy hxy =>
              (hp.opened_iff.mp (hopen y hy)).2 (hxy ▸ hx)⟩)
            fun x hx => (List.mem_append.mp hx).elim (hp.opened x)
              fun hx => (hp.opened_iff.mp (hopen x hx)).1
          rw [hwork, List.length_cons, List.length_append] at hboth
          rw [hwork', List.length_append, List.length_reverse]
          change ps.length + rest.length + qs.length ≤ room
          omega)
      refine ⟨ps ++ qs, h :: ts, m', .traced hwork hc hgives hdrains, (hp.trans hq).requeue, hempty,
        ?_, ?_, ?_⟩
      · have hmove : (ps.reverse ++ rest ++ qs).Perm (rest ++ (ps ++ qs)) := by
          rw [← List.append_assoc]
          have hswap := ((List.reverse_perm ps).append_right rest).trans List.perm_append_comm
          exact hswap.append_right qs
        rw [hwork'] at hperm
        exact (hperm.trans hmove).cons h
      · intro k hk
        rcases List.mem_append.mp hk with hk | hk
        · exact (hedges hK hc (hsub hk)).2 (hp.opened k hk)
        · exact hqs k hk
      · intro x d k hx hd hk
        rcases List.mem_cons.mp hx with rfl | hx
        · obtain rfl := Option.some.inj (hc.symm.trans hd)
          exact fun ho => hnone k hk (hq.opened_iff.mp ho).1
        · obtain ⟨e, he', hed⟩ := hp.same.alike.core hd
          exact htraced hx he' (Cell.edges_of_core hed s.withNames ▸ hk)

theorem drain_ends {K : Handle → Prop} (he : m.arena.Even) (hwithin : ∀ h ∈ m.worklist, K h)
    (hlive : ∀ {h}, K h → m.arena.contains h = true)
    (hedges : ∀ {h c k}, K h → m.arena.get? h = some c → k ∈ c.edges s.withNames →
      m.arena.Followable k ∧ (m.arena.Open s k → K k)) :
    ∃ ps ts m', Drains s m ps ts m' ∧ (drain s).run m = .ok ((), m') ∧ m.Pushes s ps m' ∧
      m'.worklist = [] ∧ ts.Perm (m.worklist ++ ps) ∧ (∀ h ∈ ps, K h) ∧
      ∀ {h c k}, h ∈ ts → m.arena.get? h = some c → k ∈ c.edges s.withNames →
        ¬ m'.arena.Open s k := by
  have hroom : ∀ ps : List Handle, ps.Nodup → (∀ h ∈ ps, m.arena.Open s h) →
      ps.length ≤ m.arena.capacity := fun ps honce hopen =>
    he.length_le_capacity honce fun h hh => (hopen h hh).get?.imp fun _ hc => (get?_eq_some.mp hc).1
  obtain ⟨ps, ts, m', hdrains, hp, hempty, hperm, hps, htraced⟩ :=
    drains he hwithin hlive hedges (m.worklist.length + m.arena.capacity)
      fun ps honce hopen => Nat.add_le_add_left (hroom ps honce hopen) _
  refine ⟨ps, ts, m', hdrains, ?_, hp, hempty, hperm, hps, htraced⟩
  rw [drain, run_get_bind]
  refine hdrains.run ?_
  rw [hperm.length_eq, List.length_append]
  exact Nat.add_le_add_left (hroom ps hp.once hp.opened) _

/-- Giving handles to a marking and following its worklist ends. Just the objects that open paths
lead to are pushed and traced, each once, and they have marks then. Nothing else changes. -/
theorem marks_opened (he : m.arena.Even) (hempty : m.worklist = [])
    (hgiven : ∀ h ∈ hs, m.arena.Followable h)
    (hedges : ∀ {h c k}, m.arena.Opened s hs h → m.arena.get? h = some c →
      k ∈ c.edges s.withNames → m.arena.Followable k) :
    ∃ given mid drained traced last, Gives s m hs given mid ∧ Drains s mid drained traced last ∧
      (do markAll s hs; drain s : MarkM Unit).run m = .ok ((), last) ∧
      m.Pushes s (given ++ drained) last ∧ traced.Perm (given ++ drained) ∧
      (∀ h, h ∈ given ++ drained ↔ m.arena.Opened s hs h) ∧
      (∀ h, last.arena.Marks h ↔ m.arena.Marks h ∨ m.arena.Opened s hs h) ∧
      last.worklist = [] := by
  obtain ⟨given, mid, hgives, hp, hwork, hsub, hnone⟩ := gives (s := s) he hgiven
  rw [hempty, List.append_nil] at hwork
  have hstart : ∀ h ∈ given, m.arena.Opened s hs h := fun h hh => .start (hsub hh) (hp.opened h hh)
  obtain ⟨drained, traced, last, hdrains, hdrain, hq, hend, hperm, hin, htraced⟩ :=
    drain_ends (s := s) (m := mid) (K := m.arena.Opened s hs) (hp.even he)
      (fun h hh => hstart h (List.mem_reverse.mp (hwork ▸ hh)))
      (fun hh => hp.contains.trans (contains_iff.mpr hh.open.get?))
      (fun hh hc hk => by
        obtain ⟨d, hd, hsame⟩ := hp.edges hc
        rw [← hsame] at hk
        exact ⟨hp.followable.mpr (hedges hh hd hk),
          fun ho => .edge hh hd hk (hp.opened_iff.mp ho).1⟩)
  have hboth := hp.trans hq
  have htracedPerm : traced.Perm (given ++ drained) := by
    refine hperm.trans (List.Perm.append_right _ ?_)
    rw [hwork]
    exact List.reverse_perm given
  have hiff : ∀ h, h ∈ given ++ drained ↔ m.arena.Opened s hs h := by
    refine fun h => ⟨fun hh => (List.mem_append.mp hh).elim (hstart h) (hin h), fun hh => ?_⟩
    -- an object that the last arena has open would have been pushed where the path came to it
    have hpushed : ∀ k, m.arena.Open s k → ¬ last.arena.Open s k → k ∈ given ++ drained :=
      fun k ho hno => by_contra fun hk => hno (hboth.opened_iff.mpr ⟨ho, hk⟩)
    induction hh with
    | start hh ho => exact hpushed _ ho fun hlast => hnone _ hh (hq.opened_iff.mp hlast).1
    | edge _ hc hk ho ih =>
      obtain ⟨d, hd, hdc⟩ := hp.same.alike.core hc
      rw [← Cell.edges_of_core hdc] at hk
      exact hpushed _ ho (htraced (htracedPerm.mem_iff.mpr ih) hd hk)
  refine ⟨given, mid, drained, traced, last, hgives, hdrains, ?_, hboth, htracedPerm, hiff,
    fun h => ?_, hend⟩
  · exact run_bind.mpr ⟨(), mid, hgives.run, hdrain⟩
  · rw [hboth.marks, hiff]

/-- Two pairs that refer to each other and to themselves, and one that refers to them. -/
def ring : Arena :=
  let nil : Cell :=
    { header := { kind := .nil, flags := { permanent := true } }, payload := .nil }
  let pair (car cdr : Handle) : Cell :=
    { header := { kind := .pair }, payload := .pair car cdr .nil }
  { segments := #[⟨.fixed, #[nil, pair (.pack 0 2) (.pack 0 1), pair (.pack 0 1) (.pack 0 2),
      pair (.pack 0 1) (.pack 0 2)], 4⟩]
    freeLists := .replicate 7 [], usages := .replicate 7 {}, segmentCells := 4 }

/-- One of them is given, and both get marks. -/
theorem marks_opened_ring : ∃ last,
    (do markAll ⟨.full, true⟩ [.pack 0 1, .noObject]; drain ⟨.full, true⟩ : MarkM Unit).run
      { arena := ring } = .ok ((), last) ∧
    last.arena.Marks (.pack 0 2) ∧ ¬ last.arena.Marks (.pack 0 3) := by
  have hedges : ∀ {h c k}, h = .pack 0 1 ∨ h = .pack 0 2 → ring.get? h = some c →
      k ∈ c.edges true → k = .nil ∨ k = .pack 0 1 ∨ k = .pack 0 2 := by
    rintro h c k (rfl | rfl) hc hk
    · obtain rfl := Option.some.inj hc
      revert k
      decide
    · obtain rfl := Option.some.inj hc
      revert k
      decide
  have hopened : ∀ {h}, ring.Opened ⟨.full, true⟩ [.pack 0 1, .noObject] h →
      h = .pack 0 1 ∨ h = .pack 0 2 := by
    intro h ho
    induction ho with
    | start hh ho =>
      rcases List.mem_cons.mp hh with rfl | hh
      · exact .inl rfl
      · obtain rfl := List.mem_singleton.mp hh
        obtain ⟨c, hc⟩ := ho.get?
        cases hc
    | edge _ hc hk ho ih =>
      rcases hedges ih hc hk with rfl | hk
      · obtain ⟨d, hd, -, hspares⟩ := ho
        obtain rfl := Option.some.inj hd
        cases hspares
      · exact hk
  have hfollow : ∀ k, k = .nil ∨ k = .pack 0 1 ∨ k = .pack 0 2 → ring.Followable k := by
    rintro k (rfl | rfl | rfl)
    · exact .inr rfl
    · exact .inr rfl
    · exact .inr rfl
  have heven : ring.Even := by
    refine ⟨by decide, fun i s hs => ?_⟩
    obtain ⟨hi, rfl⟩ := Array.getElem?_eq_some_iff.mp hs
    obtain rfl : i = 0 := Nat.lt_one_iff.mp hi
    rfl
  have hgiven : ∀ h ∈ [.pack 0 1, .noObject], ring.Followable h := by
    intro h hh
    rcases List.mem_cons.mp hh with rfl | hh
    · exact hfollow _ (.inr (.inl rfl))
    · exact .inl (List.mem_singleton.mp hh)
  obtain ⟨-, -, -, -, last, -, -, hrun, -, -, -, hmarks, -⟩ :=
    marks_opened (s := ⟨.full, true⟩) (m := { arena := ring }) heven rfl hgiven
      fun ho hc hk => hfollow _ (hedges (hopened ho) hc hk)
  refine ⟨last, hrun, (hmarks _).mpr (.inr ?_), fun hthird => ?_⟩
  · have hfirst : ring.Opened ⟨.full, true⟩ [.pack 0 1, .noObject] (.pack 0 1) :=
      .start (.head _) ⟨_, rfl, rfl, rfl⟩
    exact .edge hfirst rfl (.tail _ (.head _)) ⟨_, rfl, rfl, rfl⟩
  · rcases (hmarks _).mp hthird with ⟨c, hc, hmark⟩ | ho
    · obtain rfl := Option.some.inj hc
      cases hmark
    · exact absurd (hopened ho) (by decide)

end MarkM

end ManagedHeap
