import ManagedHeap.Proofs.WeakFixpoint
import ManagedHeap.Proofs.StringSearches
import ManagedHeap.Proofs.MemoryShortage

/-!
# When a collection returns

A collection looks into what its roots name and into what the records of the chain refer to, and
from there on slots lead to live objects. So it returns just if these are alive. Neither the
worklist nor the passes over the records run out of steps.
-/

namespace ManagedHeap

namespace Arena

variable {a b : Arena} {s : Scan} {h k : Handle} {c : Cell}

/-- The slots of the objects that are not permanent lead to live objects. -/
structure Closed (a : Arena) : Prop where
  tidy : a.Tidy
  edges : ∀ {h c k}, a.get? h = some c → c.flags.permanent = false → k ∈ c.edges true →
    a.contains k = true

theorem ready_setCell {g : Cell → Cell} (hc : a.get? h = some c) (hlive : (g c).isFree = false)
    (hflag : (g c).flags.readyToFinalize = c.flags.readyToFinalize) :
    (a.setCell h g).Ready k ↔ a.Ready k := by
  unfold Ready
  by_cases hk : k = h
  · subst hk
    simp [get?_setCell_self hc hlive, hc, hflag]
  · rw [get?_setCell_ne hk]

theorem Covered.not_permanent (hs : a.Covered s h) (hc : a.get? h = some c) :
    c.flags.permanent = false := by
  obtain ⟨d, hd, hspares⟩ := hs
  obtain rfl := Option.some.inj (hc.symm.trans hd)
  simp only [Scan.spares, Bool.or_eq_false_iff] at hspares
  exact hspares.1

theorem SameBut.contains (hab : Alike a b) (hlive : a.contains h = true) :
    b.contains h = true := by
  obtain ⟨c, hc⟩ := contains_iff.mp hlive
  obtain ⟨d, hd, -⟩ := hab.core hc
  exact contains_of_get? hd

theorem SameBut.followable (hab : Alike a b) (hf : a.Followable h) : b.Followable h :=
  hf.imp_right hab.contains

theorem Settled.followable (hs : a.Settled s h) : a.Followable h := by
  rcases hs with hno | ⟨c, hc, -⟩ | ⟨c, hc, -⟩
  · exact .inl hno
  · exact .inr (contains_of_get? hc)
  · exact .inr (contains_of_get? hc)

theorem Closed.followable (ha : a.Closed) (hc : a.get? h = some c)
    (hperm : c.flags.permanent = false) {withNames : Bool} (hk : k ∈ c.edges withNames) :
    a.Followable k := by
  have hsubset : c.edges withNames ⊆ c.edges true := by
    have hchildren : c.payload.children withNames ⊆ c.payload.children true := by
      cases withNames with
      | true => exact List.Subset.refl _
      | false => cases c.payload <;> simp [Payload.children]
    unfold Cell.edges
    split
    · exact hchildren
    · exact List.cons_subset_cons _ hchildren
  exact .inr (ha.edges hc hperm (hsubset hk))

theorem Closed.alike (ha : a.Closed) (hab : Alike a b) : b.Closed := by
  refine ⟨hab.tidy Cell.isFree_core ha.tidy, fun hd hperm hk => ?_⟩
  obtain ⟨c, hc, hcd⟩ := hab.symm.core hd
  rw [← Cell.permanent_of_core hcd] at hperm
  exact hab.contains (ha.edges hc hperm (Cell.edges_of_core hcd true ▸ hk))

end Arena

/-- A marking of this arena, in which just covered objects have marks. -/
structure Marking.Of (s : Scan) (a : Arena) (m : Marking) : Prop where
  alike : Alike a m.arena
  covered : ∀ {h}, m.arena.Marks h → a.Covered s h
  queued : ∀ h ∈ m.worklist, m.arena.Marks h
  ready : ∀ {h}, m.arena.Ready h ↔ a.Ready h

namespace Marking.Of

open Arena

variable {s : Scan} {a : Arena} {m m' : Marking} {h k : Handle} {ps : List Handle} {d : Cell}
  {g : Cell → Cell}

theorem start (hunmarked : ∀ {h}, ¬ a.Marks h) : ({ arena := a } : Marking).Of s a :=
  ⟨.refl _ _, fun hm => absurd hm hunmarked, nofun, .rfl⟩

theorem pushes (hm : m.Of s a) (hp : m.Pushes s ps m')
    (hwork : ∀ h ∈ m'.worklist, h ∈ ps ∨ h ∈ m.worklist) : m'.Of s a := by
  refine ⟨hm.alike.trans hp.same.alike, fun hmarks => ?_, fun h hh => ?_, hp.ready.trans hm.ready⟩
  · rcases hp.marks.mp hmarks with hold | hnew
    · exact hm.covered hold
    · exact hm.alike.symm.covered (hp.opened _ hnew).covered
  · exact hp.marks.mpr ((hwork h hh).symm.imp_left (hm.queued h))

theorem closed (hm : m.Of s a) (ha : a.Closed) : m.arena.Closed := ha.alike hm.alike

theorem even (hm : m.Of s a) (ha : a.Closed) : m.arena.Even := (hm.closed ha).tidy.even

end Marking.Of

namespace MarkM

open Arena

variable {s : Scan} {a : Arena} {m m' : Marking} {h k r : Handle} {hs ps rs : List Handle}
  {c : Cell} {f : WeakFields}

theorem ends_markAll (hs : List Handle) (ha : a.Closed) (hm : m.Of s a) (hgiven : ∀ h ∈ hs, a.Followable h) :
    ∃ m', (markAll s hs).run m = .ok (⟨⟩, m') ∧ m'.Of s a := by
  obtain ⟨ps, m', hgives, hp, hwork, -, -⟩ :=
    gives (s := s) (hm.even ha) fun h hh => hm.alike.followable (hgiven h hh)
  refine ⟨m', hgives.run, hm.pushes hp fun h hh => ?_⟩
  rw [hwork, List.mem_append, List.mem_reverse] at hh
  exact hh

theorem ends_drain (ha : a.Closed) (hm : m.Of s a) :
    ∃ m', (drain s).run m = .ok (⟨⟩, m') ∧ m'.Of s a ∧ m'.worklist = [] := by
  obtain ⟨ps, ts, m', -, hrun, hp, hempty, -, -, -⟩ :=
    drain_ends (s := s) (K := m.arena.Covered s) (hm.even ha)
      (fun h hh => hm.alike.covered (hm.covered (hm.queued h hh)))
      (fun ⟨c, hc, _⟩ => contains_of_get? hc)
      fun hcovered hc hk => ⟨(hm.closed ha).followable hc (hcovered.not_permanent hc) hk, Open.covered⟩
  refine ⟨m', hrun, hm.pushes hp fun h hh => ?_, hempty⟩
  rw [hempty] at hh
  exact absurd hh List.not_mem_nil

theorem ends_markEdges (ha : a.Closed) (hm : m.Of s a) (hc : a.get? h = some c)
    (hperm : c.flags.permanent = false) :
    ∃ m', (markEdges s h).run m = .ok (⟨⟩, m') ∧ m'.Of s a := by
  obtain ⟨d, hd, hdc⟩ := hm.alike.core hc
  obtain ⟨m', hrun, hm'⟩ := ends_markAll (d.edges s.withNames) ha hm fun k hk =>
    ha.followable hc hperm (Cell.edges_of_core hdc s.withNames ▸ hk)
  exact ⟨m', run_bind.mpr ⟨d, m, run_cell.mpr ⟨hd, rfl⟩, hrun⟩, hm'⟩

theorem ends_markRemembered (ha : a.Closed) (hm : m.Of s a)
    (hown : ∀ h ∈ hs, ∀ c, a.get? h = some c → c.flags.permanent = false) :
    ∃ m', (markRemembered s hs).run m = .ok (⟨⟩, m') ∧ m'.Of s a := by
  induction hs generalizing m with
  | nil => exact ⟨m, rfl, hm⟩
  | cons h hs ih =>
    have hrest := fun {m : Marking} (hm : m.Of s a) => ih hm fun k hk => hown k (List.mem_cons_of_mem _ hk)
    rw [markRemembered, run_get_bind]
    cases hd : m.arena.get? h with
    | none => exact hrest hm
    | some d =>
      by_cases hcovers : s.level.covers d.header.generation = true
      · simp only [hcovers, Bool.not_true, Bool.false_eq_true, if_false]
        exact hrest hm
      · obtain ⟨c, hc, -⟩ := hm.alike.symm.core hd
        obtain ⟨mid, hedges, hmid⟩ :=
          ends_markEdges ha hm hc (hown h List.mem_cons_self c hc)
        obtain ⟨m', hrun, hm'⟩ := hrest hmid
        simp only [hcovers, Bool.not_false, if_true]
        exact ⟨m', run_bind.mpr ⟨⟨⟩, mid, hedges, hrun⟩, hm'⟩

theorem ends_markRoots {roots remembered : List Handle} (ha : a.Closed) (hm : m.Of s a)
    (hroots : ∀ h ∈ roots, a.Followable h)
    (hown : ∀ h ∈ remembered, ∀ c, a.get? h = some c → c.flags.permanent = false) :
    ∃ m', (markRoots s roots remembered).run m = .ok (⟨⟩, m') ∧ m'.Of s a := by
  obtain ⟨m₁, h₁, hm₁⟩ := ends_markAll _ ha hm hroots
  obtain ⟨m₂, h₂, hm₂, -⟩ := ends_drain ha hm₁
  obtain ⟨m₃, h₃, hm₃⟩ := ends_markRemembered ha hm₂ hown
  obtain ⟨m₄, h₄, hm₄, -⟩ := ends_drain ha hm₃
  exact ⟨m₄, run_bind.mpr ⟨⟨⟩, m₁, h₁, run_bind.mpr ⟨⟨⟩, m₂, h₂, run_bind.mpr ⟨⟨⟩, m₃, h₃, h₄⟩⟩⟩,
    hm₄⟩

theorem ends_markHeld {tasks : Tasks} (ha : a.Closed) (hm : m.Of s a) :
    ∃ m', (markHeld s tasks hs).run m = .ok (⟨⟩, m') ∧ m'.Of s a := by
  induction hs generalizing m with
  | nil => exact ⟨m, rfl, hm⟩
  | cons h hs ih =>
    rw [markHeld, run_get_bind]
    by_cases hlive : m.arena.contains h = true
    · obtain ⟨d, hd⟩ := contains_iff.mp hlive
      let note : Cell → Cell := Cell.mapFlags fun fs =>
        { fs with beingComputed := tasks.isPending h, inUseByTask := tasks.isInUse h }
      have hfree := (get?_eq_some.mp hd).2
      have hnoted : ({ m with arena := m.arena.setCell h note } : Marking).Of s a := by
        refine ⟨hm.alike.trans (.setCell hd rfl), fun hmarks => hm.covered ?_, fun k hk => ?_, ?_⟩
        · exact (marks_setCell hd hfree rfl).mp hmarks
        · exact (marks_setCell hd hfree rfl).mpr (hm.queued k hk)
        · exact (ready_setCell hd hfree rfl).trans hm.ready
      obtain ⟨b, qs, mid, hmark, hp, hwork, -, -, -, -⟩ := mark_settles (s := s) (hnoted.even ha)
        (hnoted.alike.followable (.inr (hm.alike.symm.contains hlive)))
      have hmid := hnoted.pushes hp fun k hk => by
        rw [hwork, List.mem_append, List.mem_reverse] at hk
        exact hk
      obtain ⟨m', hrun, hm'⟩ := ih hmid
      simp only [hlive, if_true]
      exact ⟨m', run_bind.mpr ⟨⟨⟩, _, run_updateCell.mpr ⟨⟨d, hd⟩, rfl⟩,
        run_bind.mpr ⟨b, mid, hmark, hrun⟩⟩, hm'⟩
    · simp only [hlive, Bool.false_eq_true, if_false]
      exact ih hm

theorem ends_markTasks (tasks : Tasks) (ha : a.Closed) (hm : m.Of s a) :
    ∃ m', (markTasks s tasks).run m = .ok (⟨⟩, m') ∧ m'.Of s a := by
  obtain ⟨m₁, h₁, hm₁⟩ := ends_markHeld ha hm
  obtain ⟨m₂, h₂, hm₂, -⟩ := ends_drain ha hm₁
  exact ⟨m₂, run_bind.mpr ⟨⟨⟩, m₁, h₁, h₂⟩, hm₂⟩

theorem ends_flagReady (rs : List Handle) (htidy : m.arena.Tidy) (hrs : ∀ r ∈ rs, ∃ f, m.arena.Record r f ∧
    (m.arena.Ready r ∨ m.arena.contains f.key = true)) :
    ∃ n m', (flagReady s rs).run m = .ok (n, m') := by
  induction rs generalizing m with
  | nil => exact ⟨0, m, rfl⟩
  | cons r rs ih =>
    obtain ⟨f, hf, hkey⟩ := hrs r List.mem_cons_self
    obtain ⟨n, mid, hfirst⟩ : ∃ n mid, (flagRecord s r).run m = .ok (n, mid) := by
      obtain ⟨c, hc, -⟩ := id hf
      have hread : (weakFields r).run m = .ok (f, m) := run_weakFields.mpr ⟨hf, rfl⟩
      have hcell : (cell r).run m = .ok (c, m) := run_cell.mpr ⟨hc, rfl⟩
      by_cases hflag : c.flags.readyToFinalize = true
      · refine ⟨0, m, run_bind.mpr ⟨f, m, hread, run_bind.mpr ⟨c, m, hcell, ?_⟩⟩⟩
        simp only [hflag, if_true]
        rfl
      · obtain ⟨alive, htest, -⟩ := isMarked_ends (s := s)
          (hkey.resolve_left fun hready => hflag ((run_ready hc).mpr hready))
        cases alive with
        | true =>
          refine ⟨0, m, run_bind.mpr ⟨f, m, hread, run_bind.mpr ⟨c, m, hcell, ?_⟩⟩⟩
          simp only [hflag, Bool.false_eq_true, if_false]
          exact run_bind.mpr ⟨true, m, htest, rfl⟩
        | false =>
          let flag : Cell → Cell := Cell.mapFlags fun fs => { fs with readyToFinalize := true }
          refine ⟨1, { m with arena := m.arena.setCell r flag },
            run_bind.mpr ⟨f, m, hread, run_bind.mpr ⟨c, m, hcell, ?_⟩⟩⟩
          simp only [hflag, Bool.false_eq_true, if_false]
          exact run_bind.mpr ⟨false, m, htest,
            run_bind.mpr ⟨⟨⟩, _, run_updateCell.mpr ⟨⟨c, hc⟩, rfl⟩, rfl⟩⟩
    obtain ⟨hsame, -, -, -, hready⟩ := Marking.Traces.flagRecord htidy hfirst
    have halike := hsame.alike_of_unready
    obtain ⟨n', m', hrest⟩ := ih (hsame.tidy (fun _ => rfl) htidy) fun x hx => by
      obtain ⟨g, hg, hkey⟩ := hrs x (List.mem_cons_of_mem _ hx)
      exact ⟨g, halike.record hg, hkey.imp (fun h => hready.mpr (.inl h)) halike.contains⟩
    rw [flagReady_cons]
    exact ⟨n + n', m', run_bind.mpr ⟨n, mid, hfirst, run_bind.mpr ⟨n', m', hrest, rfl⟩⟩⟩

theorem ends_keepReady (rs : List Handle) (ha : a.Closed) (hm : m.Of s a)
    (hrs : ∀ r ∈ rs, ∃ f, a.Record r f ∧ ∀ k ∈ f.watched, a.Followable k) :
    ∃ m', (keepReady s rs).run m = .ok (⟨⟩, m') ∧ m'.Of s a := by
  induction rs generalizing m with
  | nil => exact ⟨m, rfl, hm⟩
  | cons r rs ih =>
    obtain ⟨f, hf, hwatched⟩ := hrs r List.mem_cons_self
    have hrest := fun {m : Marking} (hm : m.Of s a) => ih hm fun k hk => hrs k (List.mem_cons_of_mem _ hk)
    obtain ⟨c, hc, -⟩ := id (hm.alike.record hf)
    have hcell : (cell r).run m = .ok (c, m) := run_cell.mpr ⟨hc, rfl⟩
    rw [keepReady]
    by_cases hflag : c.flags.readyToFinalize = true
    · obtain ⟨mid, hmark, hmid⟩ := ends_markAll _ ha hm hwatched
      obtain ⟨m', hrun, hm'⟩ := hrest hmid
      refine ⟨m', run_bind.mpr ⟨c, m, hcell, ?_⟩, hm'⟩
      simp only [hflag, if_true]
      exact run_bind.mpr ⟨f, m, run_weakFields.mpr ⟨hm.alike.record hf, rfl⟩,
        run_bind.mpr ⟨⟨⟩, mid, hmark, hrun⟩⟩
    · obtain ⟨m', hrun, hm'⟩ := hrest hm
      refine ⟨m', run_bind.mpr ⟨c, m, hcell, ?_⟩, hm'⟩
      simp only [hflag, Bool.false_eq_true, if_false]
      exact hrun

theorem contains_of_flagReady {n : Nat} (htidy : m.arena.Tidy)
    (hrun : (flagReady s rs).run m = .ok (n, m')) (hr : r ∈ rs) (hf : m.arena.Record r f)
    (hnot : ¬ m.arena.Ready r) : m.arena.contains f.key = true := by
  induction rs generalizing m m' n with
  | nil => cases hr
  | cons x rs ih =>
    simp only [flagReady_cons, run_bind, run_pure] at hrun
    obtain ⟨_, mid, hfirst, _, _, hrest, -, -⟩ := hrun
    by_cases hx : r = x
    · subst hx
      simp only [flagRecord, run_bind, run_weakFields, run_cell] at hfirst
      obtain ⟨g, _, ⟨hg, rfl⟩, c, _, ⟨hc, rfl⟩, hfirst⟩ := hfirst
      obtain rfl := hf.unique hg
      have hflag : ¬ c.flags.readyToFinalize = true := fun h => hnot ((run_ready hc).mp h)
      simp only [hflag, Bool.false_eq_true, if_false, run_bind, isMarked, run_cell] at hfirst
      obtain ⟨-, -, ⟨d, -, ⟨hd, -⟩, -⟩, -⟩ := hfirst
      exact contains_of_get? hd
    · obtain ⟨hsame, -, -, -, hready⟩ := Marking.Traces.flagRecord htidy hfirst
      have halike := hsame.alike_of_unready
      refine halike.symm.contains (ih (hsame.tidy (fun _ => rfl) htidy) hrest
        ((List.mem_cons.mp hr).resolve_left hx) (halike.record hf) fun hmid => ?_)
      exact (hready.mp hmid).elim hnot fun h => hx h.1

theorem ends_resolveWeak {chain : WeakChain} (ha : a.Closed) (hm : m.Of s a)
    (hchain : a.weakRecords chain = .ok rs)
    (hwatched : ∀ r ∈ rs, ∀ f, a.Record r f → ∀ k ∈ f.watched, a.Followable k)
    (hkeys : ∀ r ∈ rs, ∀ f, a.Record r f → ¬ a.Ready r → a.contains f.key = true) :
    ∃ n m', (resolveWeak s chain).run m = .ok (n, m') := by
  have hrecords : ∀ r ∈ rs, ∃ f, a.Record r f := fun r hr => record_of_weakRecords hchain hr
  have hback : ∀ {r f}, m.arena.Record r f → a.Record r f := hm.alike.symm.record
  have hg : m.Guarded s rs {h | a.Covered s h} := by
    refine ⟨hm.even ha, hm.queued, ⟨hm.covered, fun _ => hm.alike.symm.covered,
      fun _ _ _ _ => hm.alike.symm.covered, fun _ _ _ _ _ => hm.alike.symm.covered⟩,
      fun hcovered _ hc hk => ?_, fun hr hf hnot => ?_, fun hr hf _ _ => ?_⟩
    · exact (hm.closed ha).followable hc ((hm.alike.covered hcovered).not_permanent hc) hk
    · exact hm.alike.contains (hkeys _ hr _ (hback hf) fun hready => hnot (hm.ready.mpr hready))
    · exact ⟨hm.alike.followable (hwatched _ hr _ (hback hf) _ (.tail _ (.head _))),
        hm.alike.followable (hwatched _ hr _ (hback hf) _ (.tail _ (.tail _ (.head _))))⟩
  obtain ⟨-, -, ps, last, -, -, -, hsettle, hp, hempty, -⟩ :=
    hg.settles_least fun r hr => (hrecords r hr).imp fun _ => hm.alike.record
  rw [resolveWeak_settled (weakRecords_congr hm.alike.record hchain) hsettle]
  have hlast : last.Of s a := hm.pushes hp fun h hh => by
    rw [hempty] at hh
    exact nomatch hh
  obtain ⟨n, mid, hflag⟩ := ends_flagReady (s := s) rs (hlast.closed ha).tidy fun r hr => by
    obtain ⟨f, hf⟩ := hrecords r hr
    refine ⟨f, hlast.alike.record hf, or_iff_not_imp_left.mpr fun hnot => hlast.alike.contains ?_⟩
    exact hkeys r hr f hf fun hready => hnot (hlast.ready.mpr hready)
  obtain ⟨hsame, hwork, -, -, -⟩ := Marking.Traces.flagReady (hlast.closed ha).tidy hflag
  have halike := hlast.alike.trans hsame.alike_of_unready
  -- what is ready has changed, so the rest is seen from here
  have hmid : mid.Of s mid.arena := by
    refine ⟨.refl _ _, fun hmarks => halike.covered ?_, fun h hh => ?_, .rfl⟩
    · exact hlast.covered (hsame.marks_of_unready.mp hmarks)
    · exact hsame.marks_of_unready.mpr (hlast.queued h (hwork ▸ hh))
  obtain ⟨m₁, hkeep, hm₁⟩ := ends_keepReady rs (ha.alike halike) hmid fun r hr => by
    obtain ⟨f, hf⟩ := hrecords r hr
    exact ⟨f, halike.record hf, fun k hk => halike.followable (hwatched r hr f hf k hk)⟩
  obtain ⟨m₂, hdrain, -, -⟩ := ends_drain (ha.alike halike) hm₁
  exact ⟨n, m₂, run_bind.mpr ⟨n, mid, hflag, run_bind.mpr ⟨⟨⟩, m₁, hkeep,
    run_bind.mpr ⟨⟨⟩, m₂, hdrain, rfl⟩⟩⟩⟩

end MarkM

/-- What a collection looks into is alive: the roots, and what the records of the chain refer
to. -/
structure Heap.Collectable (heap : Heap) (records : List Handle) : Prop where
  roots : ∀ h ∈ heap.rootList, heap.arena.Followable h
  symbols : ∀ h ∈ heap.symbols.handles, heap.arena.contains h = true
  watched : ∀ r ∈ records, ∀ f, heap.arena.Record r f →
    ∀ k ∈ f.watched, heap.arena.Followable k
  keys : ∀ r ∈ records, ∀ f, heap.arena.Record r f → ¬ heap.arena.Ready r →
    heap.arena.contains f.key = true

namespace HeapM

open Arena

variable {heap heap' : Heap} {level : Level} {reason : Reason} {records : List Handle}
  {o : Outcome}

theorem unmarked_cleared {cleared : Arena} (hs : heap.Sound)
    (hab : SameBut Cell.cleared heap.arena cleared) : ∀ {h}, ¬ cleared.Marks h := by
  rintro h ⟨d, hd, hmarked⟩
  obtain ⟨c, hc, hcd⟩ := hab.symm.ofCleared hd
  have hno := (hs.proper hc).unmarked
  rw [Cell.flags, Cell.header_of_cleared hcd] at hno
  rw [Cell.flags, hno] at hmarked
  cases hmarked

theorem ends_clearLookupCaches (hs : List Handle) (heap : Heap)
    (hlive : ∀ h ∈ hs, heap.arena.contains h = true) :
    ∃ heap', (clearLookupCaches hs).run heap = .ok (⟨⟩, heap') := by
  induction hs generalizing heap with
  | nil => exact ⟨heap, rfl⟩
  | cons h hs ih =>
    obtain ⟨c, hc⟩ := contains_iff.mp (hlive h List.mem_cons_self)
    obtain ⟨heap', hrest⟩ := ih { heap with arena := heap.arena.setCell h Cell.cleared } fun k hk => by
      change (heap.arena.setCell h Cell.cleared).contains k = true
      rw [contains_setCell (f := Cell.cleared) fun _ => rfl]
      exact hlive k (List.mem_cons_of_mem _ hk)
    rw [clearLookupCaches_cons]
    exact ⟨heap', run_bind.mpr ⟨⟨⟩, _, ends_updateCell hc, hrest⟩⟩

theorem ends_marking {α : Type} {act : MarkM α} {a : α} {m : Marking}
    (hact : act.run { arena := heap.arena } = .ok (a, m)) :
    (marking act).run heap = .ok ((a, m.marked), { heap with arena := m.arena }) := by
  replace hact : act { arena := heap.arena } = .ok (a, m) := hact
  refine run_onArena.mpr ⟨m.arena, ?_, rfl⟩
  rw [hact]

theorem contains_of_clearLookupCaches {hs : List Handle} {u : PUnit}
    (hrun : (clearLookupCaches hs).run heap = .ok (u, heap')) :
    ∀ h ∈ hs, heap.arena.contains h = true := by
  induction hs generalizing heap with
  | nil => exact nofun
  | cons h hs ih =>
    simp only [clearLookupCaches_cons, run_bind, run_updateCell] at hrun
    obtain ⟨_, _, ⟨⟨c, hc⟩, rfl⟩, hrun⟩ := hrun
    refine List.forall_mem_cons.mpr ⟨contains_of_get? hc, fun k hk => ?_⟩
    have hlive := ih hrun k hk
    rwa [show ({ heap with arena := heap.arena.setCell h Cell.cleared } : Heap).arena.contains k =
      heap.arena.contains k from contains_setCell fun _ => rfl] at hlive

theorem ends_markAll (level : Level) (tasks : Tasks) (collecting : Bool) (counters : Counters) (hs : heap.Sound)
    (hchain : heap.arena.weakRecords heap.weak = .ok records) (hc : heap.Collectable records) :
    ∃ n heap', (markAll level).run { heap with tasks, collecting, counters } = .ok (n, heap') := by
  obtain ⟨mid, hclear⟩ := ends_clearLookupCaches heap.symbols.handles
    { heap with tasks, collecting, counters } hc.symbols
  obtain ⟨arena, rfl, hbooks, hcells⟩ := run_clearLookupCaches hclear
  have hab : SameBut Cell.cleared heap.arena arena := cleared_sameBut hbooks hcells
  have hlive : ∀ {h}, heap.arena.contains h = true → arena.contains h = true := fun h => by
    obtain ⟨c, hc⟩ := contains_iff.mp h
    obtain ⟨d, hd, -⟩ := hab.ofCleared hc
    exact contains_of_get? hd
  have hfollowable : ∀ {h}, heap.arena.Followable h → arena.Followable h := fun h => h.imp_right hlive
  have hperm : ∀ {c d : Cell}, d.cleared = c.cleared → d.flags.permanent = c.flags.permanent :=
    fun h => congrArg (fun h : Header => h.flags.permanent) (Cell.header_of_cleared h)
  have hclosed : arena.Closed := by
    refine ⟨hab.tidy (fun _ => rfl) hs.tidy, fun hd hown hk => ?_⟩
    obtain ⟨c, hc, hcd⟩ := hab.symm.ofCleared hd
    obtain ⟨e, he⟩ := hs.closed hc ((hperm hcd).trans hown) (Cell.edges_of_cleared hcd true ▸ hk)
    exact hlive (contains_of_get? he)
  have hrecord : ∀ {r f}, arena.Record r f → heap.arena.Record r f := hab.symm.record_cleared
  obtain ⟨m₁, h₁, hm₁⟩ := MarkM.ends_markRoots (s := heap.scan level) hclosed
    (Marking.Of.start (unmarked_cleared hs hab)) (fun h hh => hfollowable (hc.roots h hh))
    (fun h hh d hd => by
      obtain ⟨c, hc, hcd⟩ := hab.symm.ofCleared hd
      obtain ⟨c', hc', hlisted⟩ := hs.listed.mp (Array.mem_toList_iff.mp hh)
      obtain rfl := Option.some.inj (hc.symm.trans hc')
      rw [← hperm hcd]
      by_contra hown
      exact nomatch hlisted.symm.trans ((hs.proper hc).unlisted (by simpa using hown)))
  obtain ⟨m₂, h₂, hm₂⟩ := MarkM.ends_markTasks tasks hclosed hm₁
  obtain ⟨n, m, h₃⟩ := MarkM.ends_resolveWeak hclosed hm₂
    (weakRecords_congr hab.record_cleared hchain)
    (fun r hr f hf k hk => hfollowable (hc.watched r hr f (hrecord hf) k hk))
    (fun r hr f hf hnot => hlive (hc.keys r hr f (hrecord hf) fun hready =>
      hnot (hab.ready_cleared hready)))
  refine ⟨(n, m.marked), { heap with tasks, collecting, counters, arena := m.arena }, ?_⟩
  rw [markAll, run_get_bind]
  exact run_bind.mpr ⟨⟨⟩, _, hclear, run_bind.mpr ⟨heap.rootList, _, rfl,
    ends_marking (run_bind.mpr ⟨⟨⟩, m₁, h₁, run_bind.mpr ⟨⟨⟩, m₂, h₂, h₃⟩⟩)⟩⟩

theorem ends_pruneRemembered (hs : List Handle) (heap : Heap) :
    ∃ kept heap', (pruneRemembered hs).run heap = .ok (kept, heap') := by
  induction hs generalizing heap with
  | nil => exact ⟨[], heap, rfl⟩
  | cons h hs ih =>
    rw [pruneRemembered, run_get_bind]
    cases hc : heap.arena.get? h with
    | none => exact ih heap
    | some c =>
      dsimp only
      split
      · obtain ⟨kept, heap', hrun⟩ := ih heap
        exact ⟨h :: kept, heap', run_bind.mpr ⟨kept, heap', hrun, rfl⟩⟩
      · obtain ⟨kept, heap', hrun⟩ := ih { heap with arena := heap.arena.setCell h _ }
        exact ⟨kept, heap', run_bind.mpr ⟨⟨⟩, _, ends_updateCell hc, hrun⟩⟩

theorem ends_collect (hs : heap.Sound) (hf : heap.CacheExact) (hidle : heap.collecting = false)
    (hchain : heap.arena.weakRecords heap.weak = .ok records) (hc : heap.Collectable records) :
    ∃ o heap', (collect level reason).run heap = .ok (o, heap') := by
  let opened : Heap := { heap with
    collecting := true, counters := { heap.counters with phase := .quiescing } }
  obtain ⟨waits, hquiesce⟩ := run_quiesce level opened
  let quiet : Heap := { opened with
    tasks := opened.quietTasks level
    counters := { opened.counters with taskWaits := waits, phase := .marking } }
  obtain ⟨⟨n, k⟩, marked, hmark⟩ := ends_markAll level quiet.tasks true quiet.counters hs hchain hc
  obtain ⟨cleared, m, hbooks, hcells, hmarking, hk, rfl⟩ := run_markAll hmark
  obtain ⟨freed, swept, hsweep, -⟩ := ends_sweep level
    { heap with
      arena := m.arena, tasks := quiet.tasks, collecting := true
      counters := { quiet.counters with phase := .sweeping } }
    (sweeps_marked hs hf hbooks hcells hmarking)
  obtain ⟨kept, pruned, hprune⟩ := ends_pruneRemembered swept.remembered.toList swept
  let outcome : Outcome := { level, reason, marked := k, freed, newlyReady := n }
  have hlisted : pruned.arena.weakRecords pruned.weak = .ok records := by
    obtain ⟨rs, hcol⟩ : ∃ rs, Collected level rs heap
        { pruned with remembered := kept.toArray, collecting := false } outcome :=
      collected_of_phases hs hbooks hcells hmarking hsweep hprune (by rw [← hk])
    obtain rfl := Except.ok.inj (hcol.chain.symm.trans hchain)
    exact hcol.chain_after
  let Lists (heap : Heap) : Prop := heap.arena.weakRecords heap.weak = .ok records
  have haside : ∀ {g : Heap → Heap}, (∀ heap, (g heap).arena = heap.arena) →
      (∀ heap, (g heap).weak = heap.weak) → Ends Lists (modify g) fun _ => Lists :=
    fun harena hweak heap h => ⟨⟨⟩, _, rfl, by
      change (_ : Arena).weakRecords _ = _
      rw [harena, hweak]
      exact h⟩
  have hstats : Ends Lists stats fun _ => Lists := fun heap h =>
    ⟨_, heap, run_bind.mpr ⟨_, heap, ends_pendingFinalizerCount h, rfl⟩, h⟩
  suffices hends : Ends (· = heap) (collect level reason) fun _ _ => True by
    obtain ⟨o, heap', hrun, -⟩ := hends heap rfl
    exact ⟨o, heap', hrun⟩
  unfold collect
  refine .bind (Q := fun now s => now = heap ∧ s = heap) (.get fun s hs => ⟨hs, hs⟩) fun now => ?_
  split
  · rename_i hrunning
    rintro _ ⟨rfl, rfl⟩
    exact absurd (hidle.symm.trans hrunning) Bool.false_ne_true
  refine .bind (Q := fun _ s => s = { heap with collecting := true })
    (fun s hs => ⟨⟨⟩, _, rfl, by rw [hs.2]⟩) fun _ => ?_
  refine .bind (Q := fun _ s => s = { heap with collecting := true }) (.get fun _ => id)
    fun before => ?_
  refine .bind (Q := fun _ s => s = opened) (fun s hs => ⟨⟨⟩, _, rfl, by rw [hs]⟩) fun _ => ?_
  refine .bind (Q := fun _ s => s = { opened with
      tasks := opened.quietTasks level
      counters := { opened.counters with taskWaits := waits } })
    (fun s hs => ⟨⟨⟩, _, hs ▸ hquiesce, rfl⟩) fun _ => ?_
  refine .bind (Q := fun _ s => s = quiet) (fun s hs => ⟨⟨⟩, _, rfl, by rw [hs]⟩) fun _ => ?_
  refine .bind (Q := fun _ s => s = { quiet with arena := m.arena })
    (fun s hs => ⟨(n, k), _, by rw [hs]; exact hmark, rfl⟩) fun result => ?_
  refine .bind (Q := fun _ s => s = { quiet with
      arena := m.arena, counters := { quiet.counters with phase := .sweeping } })
    (fun s hs => ⟨⟨⟩, _, rfl, by rw [hs]⟩) fun _ => ?_
  refine .bind (Q := fun _ s => s = swept)
    (fun s hs => ⟨freed, swept, by rw [hs]; exact hsweep, rfl⟩) fun _ => ?_
  refine .bind (Q := fun now s => now = swept ∧ s = swept) (.get fun s hs => ⟨hs, hs⟩) fun now => ?_
  refine .bind (Q := fun _ => Lists) ?_ fun _ => .bind (haside (fun _ => rfl) fun _ => rfl) fun _ =>
    .bind (haside (fun _ => rfl) fun _ => rfl) fun _ =>
    .bind (haside (fun _ => rfl) fun _ => rfl) fun _ =>
    .bind (haside (fun _ => rfl) fun _ => rfl) fun _ =>
    .bind (Q := fun _ => Lists) (.get fun _ => id) fun now => ?_
  · rintro _ ⟨rfl, rfl⟩
    exact ⟨kept, pruned, hprune, hlisted⟩
  split
  · exact .bind hstats fun _ => .bind (Q := fun _ => Lists) (.get fun _ => id) fun _ =>
      .bind (haside (fun _ => rfl) fun _ => rfl) fun _ =>
      .bind (haside (fun _ => rfl) fun _ => rfl) fun _ => .pure fun _ _ => trivial
  · exact .bind (haside (fun _ => rfl) fun _ => rfl) fun _ => .pure fun _ _ => trivial

theorem collectable_of_run (hs : heap.Sound)
    (hrun : (collect level reason).run heap = .ok (o, heap')) :
    ∃ records, heap.arena.weakRecords heap.weak = .ok records ∧ heap.Collectable records := by
  have hsymbols : ∀ h ∈ heap.symbols.handles, heap.arena.contains h = true := by
    have hstart := hrun
    simp only [collect, run_bind, run_get] at hstart
    obtain ⟨_, _, ⟨rfl, rfl⟩, hstart⟩ := hstart
    split at hstart
    · simp only [run_bind, run_throw, false_and, exists_false] at hstart
    simp only [setPhase, run_bind, run_get, run_modify] at hstart
    obtain ⟨_, _, rfl, _, _, ⟨rfl, rfl⟩, _, _, rfl, _, _, hquiesce, _, _, rfl, _, _, hmark, -⟩ := hstart
    rw [ends_quiesce] at hquiesce
    obtain ⟨-, rfl⟩ := Prod.mk.inj (Except.ok.inj hquiesce)
    simp only [markAll, run_bind, run_get] at hmark
    obtain ⟨_, _, ⟨rfl, rfl⟩, _, _, hclear, -⟩ := hmark
    have hlive := contains_of_clearLookupCaches hclear
    exact hlive
  obtain ⟨-, cleared, m, -, -, -, -, hbooks, hcells, hmark, -⟩ := run_collect hrun
  have hab : SameBut Cell.cleared heap.arena cleared := cleared_sameBut hbooks hcells
  have hunmarked : ∀ {h}, ¬ cleared.Marks h := unmarked_cleared hs hab
  have htidy : cleared.Tidy := hab.tidy (fun _ => rfl) hs.tidy
  obtain ⟨records, mid, hchain, hdecided, hfinish, hroots⟩ :=
    MarkM.run_decided htidy hunmarked hmark
  have hf := MarkM.run_finish hdecided hfinish
  have hback : ∀ {h}, cleared.contains h = true → heap.arena.contains h = true := fun h => by
    obtain ⟨d, hd⟩ := contains_iff.mp h
    obtain ⟨c, hc, -⟩ := hab.symm.ofCleared hd
    exact contains_of_get? hc
  have hsettled : ∀ {h} {m : Marking}, Alike cleared m.arena → m.arena.Settled (heap.scan level) h →
      heap.arena.Followable h := fun halike h =>
    (halike.symm.followable h.followable).imp_right hback
  refine ⟨records, weakRecords_congr (fun hr => hab.symm.record_cleared hr) hchain,
    fun h hh => hsettled hdecided.traces.alike (hroots h hh), hsymbols,
    fun r hr f hrec k hk => hsettled hf.alike (hf.fields hr (hab.record_cleared hrec) hk),
    fun r hr f hrec hnot => ?_⟩
  simp only [MarkM.finish, run_bind] at hfinish
  obtain ⟨_, _, hflag, -⟩ := hfinish
  have halike := hdecided.traces.alike
  refine hback (halike.symm.contains (MarkM.contains_of_flagReady (s := heap.scan level)
    (halike.tidy Cell.isFree_core htidy) hflag hr (halike.record (hab.record_cleared hrec)) ?_))
  exact fun hready => hnot (hab.symm.ready_cleared (hdecided.ready.mp hready))

end HeapM

end ManagedHeap
