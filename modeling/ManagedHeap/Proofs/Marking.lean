import ManagedHeap.Proofs.ArenaCells

/-!
# Marking to the end of the worklist

While the worklist is not empty, what is marked lies within any set that is closed
under the followed edges and contains the starting points. Once it is empty, the
marks are themselves closed. Both together make the marks the least such set.
-/

namespace ManagedHeap

def Cell.core (c : Cell) : Cell :=
  c.mapFlags fun fs =>
    { fs with marked := false, beingComputed := false, inUseByTask := false,
              readyToFinalize := false }

/-- A cell without its mark. -/
def Cell.unmarked (c : Cell) : Cell := c.mapFlags fun fs => { fs with marked := false }

abbrev Alike : Arena → Arena → Prop := Arena.SameBut Cell.core

namespace Arena

variable {a b : Arena} {s : Scan} {h : Handle} {c d : Cell}

def Marks (a : Arena) (h : Handle) : Prop := ∃ c, a.get? h = some c ∧ c.flags.marked = true

def markedAt (a : Arena) (h : Handle) : Bool :=
  match a.get? h with
  | some c => c.flags.marked
  | none => false

theorem markedAt_iff : a.markedAt h = true ↔ a.Marks h := by
  unfold markedAt Marks
  cases a.get? h with
  | none => simp
  | some c => simp

def Ready (a : Arena) (h : Handle) : Prop :=
  ∃ c, a.get? h = some c ∧ c.flags.readyToFinalize = true

theorem not_ready (hc : a.get? h = some c) (hf : c.flags.readyToFinalize = false) :
    ¬ a.Ready h := by
  rintro ⟨d, hd, hready⟩
  rw [hc, Option.some.injEq] at hd
  rw [← hd, hf] at hready
  exact nomatch hready

/-- A live object that a collection keeps whether or not it is marked. -/
def Spared (s : Scan) (a : Arena) (h : Handle) : Prop :=
  ∃ c, a.get? h = some c ∧ s.spares c.header = true

/-- A live object that has to be marked to be kept. -/
def Covered (s : Scan) (a : Arena) (h : Handle) : Prop :=
  ∃ c, a.get? h = some c ∧ s.spares c.header = false

def Settled (s : Scan) (a : Arena) (h : Handle) : Prop :=
  h = .noObject ∨ a.Marks h ∨ Spared s a h

theorem not_covered_of_spared (hs : Spared s a h) : ¬ Covered s a h := by
  rintro ⟨d, hd, hcovered⟩
  obtain ⟨c, hc, hspared⟩ := hs
  rw [hc, Option.some.injEq] at hd
  rw [hd, hcovered] at hspared
  exact nomatch hspared

end Arena

namespace Cell

variable {c d : Cell}

theorem isFree_core (c : Cell) : c.core.isFree = c.isFree := rfl

theorem generation_of_core (he : d.core = c.core) :
    d.header.generation = c.header.generation :=
  (congrArg (fun c : Cell => c.header.generation) he :)

theorem payload_of_core (he : d.core = c.core) : d.payload = c.payload :=
  (congrArg Cell.payload he :)

theorem attrib_of_core (he : d.core = c.core) : d.attrib = c.attrib :=
  (congrArg Cell.attrib he :)

theorem cached_of_core (he : d.core = c.core) : d.flags.cached = c.flags.cached :=
  (congrArg (fun c : Cell => c.header.flags.cached) he :)

theorem permanent_of_core (he : d.core = c.core) : d.flags.permanent = c.flags.permanent :=
  (congrArg (fun c : Cell => c.header.flags.permanent) he :)

theorem edges_of_core (he : d.core = c.core) (withNames : Bool) :
    d.edges withNames = c.edges withNames := by
  simp only [edges, cached_of_core he, attrib_of_core he, payload_of_core he]

theorem spares_of_core (he : d.core = c.core) (s : Scan) :
    s.spares d.header = s.spares c.header := by
  simp only [Scan.spares, generation_of_core he]
  rw [show d.header.flags.permanent = c.header.flags.permanent from permanent_of_core he]

end Cell

namespace Arena.SameBut

variable {a b : Arena} {s : Scan} {h : Handle} {c : Cell}

theorem core (hab : Alike a b) (hc : a.get? h = some c) :
    ∃ d, b.get? h = some d ∧ d.core = c.core :=
  hab.get? Cell.isFree_core hc

theorem alike (hab : Arena.SameBut Cell.unmarked a b) : Alike a b := by
  refine ⟨hab.books, ?_⟩
  intro h
  have hcell := congrArg (Option.map Cell.core) (hab.cells h)
  rw [Option.map_map, Option.map_map] at hcell
  exact hcell

theorem ready (hab : Arena.SameBut Cell.unmarked a b) (hr : a.Ready h) : b.Ready h := by
  obtain ⟨c, hc, hready⟩ := hr
  obtain ⟨d, hd, hdc⟩ := hab.get? (fun _ => rfl) hc
  have hsame : d.flags.readyToFinalize = c.flags.readyToFinalize :=
    (congrArg (fun c : Cell => c.header.flags.readyToFinalize) hdc :)
  exact ⟨d, hd, hsame.trans hready⟩

theorem spared (hab : Alike a b) (hs : a.Spared s h) : b.Spared s h := by
  obtain ⟨c, hc, hspares⟩ := hs
  obtain ⟨d, hd, hdc⟩ := hab.core hc
  exact ⟨d, hd, (Cell.spares_of_core hdc s).trans hspares⟩

theorem covered (hab : Alike a b) (hs : a.Covered s h) : b.Covered s h := by
  obtain ⟨c, hc, hspares⟩ := hs
  obtain ⟨d, hd, hdc⟩ := hab.core hc
  exact ⟨d, hd, (Cell.spares_of_core hdc s).trans hspares⟩

end Arena.SameBut

namespace MarkM

open Arena

variable {s : Scan} {m m' : Marking} {h : Handle} {b : Bool}

/-- A cell with its mark. -/
def marked (c : Cell) : Cell := c.mapFlags fun fs => { fs with marked := true }

theorem run_mark (hrun : (mark s h).run m = .ok (b, m')) :
    (b = false ∧ m' = m ∧ m.arena.Settled s h) ∨
    (b = true ∧ ∃ c, m.arena.get? h = some c ∧ c.flags.marked = false ∧
      s.spares c.header = false ∧
      m' = { arena := m.arena.setCell h marked, worklist := h :: m.worklist,
             marked := m.marked + 1 }) := by
  simp only [mark] at hrun
  split at hrun
  · rename_i hno
    obtain ⟨rfl, rfl⟩ := run_pure.mp hrun
    exact .inl ⟨rfl, rfl, .inl (by simpa [Handle.isNoObject] using hno)⟩
  · simp only [run_bind, run_updateCell, run_cell, setCell_id] at hrun
    obtain ⟨_, _, ⟨-, rfl⟩, c, _, ⟨hc, rfl⟩, hrun⟩ := hrun
    split at hrun
    · rename_i hkept
      obtain ⟨rfl, rfl⟩ := run_pure.mp hrun
      rw [Bool.or_eq_true] at hkept
      refine .inl ⟨rfl, rfl, .inr ?_⟩
      rcases hkept with hmarked | hspares
      · exact .inl ⟨c, hc, hmarked⟩
      · exact .inr ⟨c, hc, hspares⟩
    · rename_i hcovered
      simp only [run_bind, run_updateCell, run_modify, run_pure] at hrun
      obtain ⟨_, _, ⟨-, rfl⟩, _, _, rfl, rfl, rfl⟩ := hrun
      rw [Bool.not_eq_true, Bool.or_eq_false_iff] at hcovered
      exact .inr ⟨rfl, c, hc, hcovered.1, hcovered.2, rfl⟩

end MarkM

namespace Arena

variable {a b : Arena} {s : Scan} {h k : Handle} {c : Cell} {f : Cell → Cell}

theorem marks_setCell (hc : a.get? h = some c) (hlive : (f c).isFree = false)
    (hmark : (f c).flags.marked = c.flags.marked) : (a.setCell h f).Marks k ↔ a.Marks k := by
  unfold Marks
  by_cases hk : k = h
  · subst hk
    simp [get?_setCell_self hc hlive, hc, hmark]
  · rw [get?_setCell_ne hk]

theorem marks_setCell_marked (hc : a.get? h = some c) :
    (a.setCell h MarkM.marked).Marks k ↔ k = h ∨ a.Marks k := by
  unfold Marks
  by_cases hk : k = h
  · subst hk
    have hself : (a.setCell k MarkM.marked).get? k = some (MarkM.marked c) :=
      get?_setCell_self hc (get?_eq_some.mp hc).2
    simp [hself, MarkM.marked, Cell.mapFlags, Cell.flags]
  · simp [get?_setCell_ne hk, hk]

end Arena

/-- What the following of edges does to a marking: it adds marks. -/
structure Marking.Grows (m m' : Marking) : Prop where
  same : Arena.SameBut Cell.unmarked m.arena m'.arena
  marks : ∀ {h}, m.arena.Marks h → m'.arena.Marks h

namespace Marking.Grows

variable {m m' m'' : Marking} {s : Scan} {h : Handle}

theorem refl (m : Marking) : m.Grows m := ⟨.refl _ _, id⟩

theorem trans (h₁ : m.Grows m') (h₂ : m'.Grows m'') : m.Grows m'' :=
  ⟨h₁.same.trans h₂.same, fun hm => h₂.marks (h₁.marks hm)⟩

theorem ready (hg : m.Grows m') : m'.arena.Ready h ↔ m.arena.Ready h :=
  ⟨hg.same.symm.ready, hg.same.ready⟩

theorem settled (hg : m.Grows m') (hs : m.arena.Settled s h) : m'.arena.Settled s h := by
  rcases hs with hno | hmarks | hspared
  · exact .inl hno
  · exact .inr (.inl (hg.marks hmarks))
  · exact .inr (.inr (hg.same.alike.spared hspared))

end Marking.Grows

/-- What a phase of the marking does that also notes what tasks hold. -/
structure Marking.Spreads (m m' : Marking) : Prop where
  alike : Alike m.arena m'.arena
  marks : ∀ {h}, m.arena.Marks h → m'.arena.Marks h
  ready : ∀ {h}, m'.arena.Ready h ↔ m.arena.Ready h

namespace Marking.Spreads

variable {m m' m'' : Marking} {s : Scan} {h : Handle}

theorem refl (m : Marking) : m.Spreads m := ⟨.refl _ _, id, Iff.rfl⟩

theorem trans (h₁ : m.Spreads m') (h₂ : m'.Spreads m'') : m.Spreads m'' :=
  ⟨h₁.alike.trans h₂.alike, fun hm => h₂.marks (h₁.marks hm), h₂.ready.trans h₁.ready⟩

theorem settled (hg : m.Spreads m') (hs : m.arena.Settled s h) : m'.arena.Settled s h := by
  rcases hs with hno | hmarks | hspared
  · exact .inl hno
  · exact .inr (.inl (hg.marks hmarks))
  · exact .inr (.inr (hg.alike.spared hspared))

end Marking.Spreads

theorem Marking.Grows.spreads {m m' : Marking} (hg : m.Grows m') : m.Spreads m' :=
  ⟨hg.same.alike, hg.marks, hg.ready⟩

def Scan.Follows (s : Scan) (a : Arena) (K : Handle → Prop) : Prop :=
  ∀ {h c k}, K h → a.get? h = some c → k ∈ c.edges s.withNames → a.Covered s k → K k

theorem countP_add_one {p q : Handle → Bool} {h : Handle} {l : List Handle} (hn : l.Nodup)
    (hm : h ∈ l) (hp : p h = false) (hq : ∀ k, q k = (k == h || p k)) :
    l.countP q = l.countP p + 1 := by
  induction l with
  | nil => exact absurd hm List.not_mem_nil
  | cons x l ih =>
    obtain ⟨hx, hn⟩ := List.nodup_cons.mp hn
    rw [List.countP_cons, List.countP_cons, hq x]
    by_cases hxh : x = h
    · subst hxh
      have hsame : l.countP q = l.countP p := by
        refine List.countP_congr ?_
        intro k hk
        have hne : (k == x) = false := by
          simp only [beq_eq_false_iff_ne, ne_eq]
          exact fun e => hx (e ▸ hk)
        rw [hq k, hne, Bool.false_or]
      simp [hsame, hp]
    · have hml : h ∈ l := (List.mem_cons.mp hm).resolve_left fun e => hxh e.symm
      have hne : (x == h) = false := by simpa using hxh
      rw [ih hn hml, hne, Bool.false_or]
      omega

/-- The invariant of a marking of `a` within `K`: the edges of every marked object have
been followed, unless it is on the worklist or its edges are `pending`. -/
structure Marking.Traces (s : Scan) (a : Arena) (K pending : Handle → Prop) (m : Marking) :
    Prop where
  tidy : a.Tidy
  alike : Alike a m.arena
  counted : m.marked = a.positions.countP m.arena.markedAt
  within : ∀ {h}, m.arena.Marks h → K h ∧ a.Covered s h
  queued : ∀ h ∈ m.worklist, m.arena.Marks h
  followed : ∀ {h c k}, m.arena.Marks h → h ∉ m.worklist → ¬ pending h → a.get? h = some c →
    k ∈ c.edges s.withNames → m.arena.Settled s k

namespace Marking.Traces

open Arena MarkM

variable {s : Scan} {a : Arena} {K pending : Handle → Prop} {m m' : Marking} {h : Handle}

theorem mark {b : Bool} (ht : m.Traces s a K pending) (hK : a.Covered s h → K h)
    (hrun : (MarkM.mark s h).run m = .ok (b, m')) :
    m'.Traces s a K pending ∧ m'.arena.Settled s h ∧ m.Grows m' := by
  rcases run_mark hrun with ⟨-, rfl, hsettled⟩ | ⟨-, c, hc, hunmarked, hspares, rfl⟩
  · exact ⟨ht, hsettled, .refl _⟩
  · have hcovered : a.Covered s h := ht.alike.symm.covered ⟨c, hc, hspares⟩
    have hgrows : m.Grows { arena := m.arena.setCell h MarkM.marked, worklist := h :: m.worklist,
                            marked := m.marked + 1 } := by
      refine ⟨.setCell hc rfl, ?_⟩
      intro k hk
      exact (marks_setCell_marked hc).mpr (.inr hk)
    have hself : (m.arena.setCell h MarkM.marked).Marks h := (marks_setCell_marked hc).mpr (.inl rfl)
    have hcount : a.positions.countP (m.arena.setCell h MarkM.marked).markedAt =
        a.positions.countP m.arena.markedAt + 1 := by
      obtain ⟨c₀, hc₀, -⟩ := hcovered
      have hold : m.arena.markedAt h = false := by
        rw [markedAt, hc]
        exact hunmarked
      refine countP_add_one (positions_nodup ht.tidy)
        ((mem_positions ht.tidy).mpr ⟨c₀, (get?_eq_some.mp hc₀).1⟩) hold ?_
      intro k
      rw [Bool.eq_iff_iff, markedAt_iff, marks_setCell_marked hc, Bool.or_eq_true, markedAt_iff,
        beq_iff_eq]
    refine ⟨⟨ht.tidy, ht.alike.trans hgrows.same.alike, ?_, ?_, ?_, ?_⟩, .inr (.inl hself),
      hgrows⟩
    · rw [hcount, ht.counted]
    · intro k hk
      rcases (marks_setCell_marked hc).mp hk with rfl | hk
      · exact ⟨hK hcovered, hcovered⟩
      · exact ht.within hk
    · intro k hk
      rcases List.mem_cons.mp hk with rfl | hk
      · exact hself
      · exact hgrows.marks (ht.queued k hk)
    · intro k d x hk hout hpending hd hx
      rw [List.mem_cons, not_or] at hout
      rcases (marks_setCell_marked hc).mp hk with rfl | hk
      · exact absurd rfl hout.1
      · exact hgrows.settled (ht.followed hk hout.2 hpending hd hx)

theorem markAll {u : PUnit} {hs : List Handle} (ht : m.Traces s a K pending)
    (hK : ∀ h ∈ hs, a.Covered s h → K h) (hrun : (MarkM.markAll s hs).run m = .ok (u, m')) :
    m'.Traces s a K pending ∧ (∀ h ∈ hs, m'.arena.Settled s h) ∧ m.Grows m' := by
  induction hs generalizing m with
  | nil =>
    obtain ⟨-, rfl⟩ := run_pure.mp hrun
    exact ⟨ht, nofun, .refl _⟩
  | cons h hs ih =>
    simp only [MarkM.markAll, run_bind] at hrun
    obtain ⟨_, mid, hmark, hrun⟩ := hrun
    obtain ⟨ht₁, hsettled, hg₁⟩ := ht.mark (hK h List.mem_cons_self) hmark
    obtain ⟨ht₂, hrest, hg₂⟩ := ih ht₁ (fun k hk => hK k (List.mem_cons_of_mem _ hk)) hrun
    refine ⟨ht₂, ?_, hg₁.trans hg₂⟩
    intro k hk
    rcases List.mem_cons.mp hk with rfl | hk
    · exact hg₂.settled hsettled
    · exact hrest k hk

theorem markEdges {u : PUnit} (ht : m.Traces s a K pending)
    (hK : ∀ {c k}, a.get? h = some c → k ∈ c.edges s.withNames → a.Covered s k → K k)
    (hrun : (MarkM.markEdges s h).run m = .ok (u, m')) :
    m'.Traces s a K pending ∧
      (∀ {c k}, a.get? h = some c → k ∈ c.edges s.withNames → m'.arena.Settled s k) ∧
      m.Grows m' := by
  simp only [MarkM.markEdges, run_bind, run_cell] at hrun
  obtain ⟨c, _, ⟨hc, rfl⟩, hrun⟩ := hrun
  obtain ⟨c₀, hc₀, hcore⟩ := ht.alike.symm.core hc
  rw [← Cell.edges_of_core hcore] at hrun
  obtain ⟨ht', hsettled, hg⟩ := ht.markAll (fun k hk => hK hc₀ hk) hrun
  refine ⟨ht', ?_, hg⟩
  intro d k hd hk
  rw [hc₀, Option.some.injEq] at hd
  exact hsettled k (hd ▸ hk)

theorem drainWithin {u : PUnit} {fuel : Nat} (ht : m.Traces s a K fun _ => False)
    (hK : s.Follows a K) (hrun : (MarkM.drainWithin s fuel).run m = .ok (u, m')) :
    m'.Traces s a K (fun _ => False) ∧ m'.worklist = [] ∧ m.Grows m' := by
  induction fuel generalizing m with
  | zero =>
    simp only [MarkM.drainWithin, run_bind, run_get] at hrun
    obtain ⟨_, _, ⟨rfl, rfl⟩, hrun⟩ := hrun
    split at hrun
    · exact (run_throw.mp hrun).elim
    · rename_i hempty
      obtain ⟨-, rfl⟩ := run_pure.mp hrun
      exact ⟨ht, by simpa using hempty, .refl _⟩
  | succ fuel ih =>
    simp only [MarkM.drainWithin, run_bind, run_get] at hrun
    obtain ⟨_, _, ⟨rfl, rfl⟩, hrun⟩ := hrun
    cases hwork : m.worklist with
    | nil =>
      rw [hwork] at hrun
      obtain ⟨-, rfl⟩ := run_pure.mp hrun
      exact ⟨ht, hwork, .refl _⟩
    | cons h rest =>
      simp only [hwork, run_bind, run_modify] at hrun
      obtain ⟨_, _, rfl, _, mid, hedges, hrun⟩ := hrun
      have hmarked := ht.queued h (hwork ▸ List.mem_cons_self)
      have hpop : ({ m with worklist := rest } : Marking).Traces s a K (· = h) := by
        refine ⟨ht.tidy, ht.alike, ht.counted, ht.within, ?_, ?_⟩
        · intro k hk
          exact ht.queued k (hwork ▸ List.mem_cons_of_mem _ hk)
        · intro k c x hk hout hpending hc hx
          refine ht.followed hk ?_ id hc hx
          rw [hwork, List.mem_cons, not_or]
          exact ⟨hpending, hout⟩
      have hin : K h := (ht.within hmarked).1
      obtain ⟨ht₁, hsettled, hg₁⟩ := hpop.markEdges (fun hc hk => hK hin hc hk) hedges
      have hdone : mid.Traces s a K fun _ => False := by
        refine ⟨ht₁.tidy, ht₁.alike, ht₁.counted, ht₁.within, ht₁.queued, ?_⟩
        intro k c x hk hout _ hc hx
        by_cases hkh : k = h
        · subst hkh
          exact hsettled hc hx
        · exact ht₁.followed hk hout hkh hc hx
      obtain ⟨ht₂, hempty, hg₂⟩ := ih hdone hrun
      have hg : m.Grows { m with worklist := rest } := ⟨.refl _ _, id⟩
      exact ⟨ht₂, hempty, hg.trans (hg₁.trans hg₂)⟩

theorem drain {u : PUnit} (ht : m.Traces s a K fun _ => False) (hK : s.Follows a K)
    (hrun : (MarkM.drain s).run m = .ok (u, m')) :
    m'.Traces s a K (fun _ => False) ∧ m'.worklist = [] ∧ m.Grows m' := by
  simp only [MarkM.drain, run_bind, run_get] at hrun
  obtain ⟨_, _, ⟨rfl, rfl⟩, hrun⟩ := hrun
  exact ht.drainWithin hK hrun

theorem markRemembered {u : PUnit} {hs : List Handle} (ht : m.Traces s a K pending)
    (hK : ∀ h ∈ hs, ∀ {c k}, a.get? h = some c → s.level.covers c.header.generation = false →
      k ∈ c.edges s.withNames → a.Covered s k → K k)
    (hrun : (MarkM.markRemembered s hs).run m = .ok (u, m')) :
    m'.Traces s a K pending ∧
      (∀ h ∈ hs, ∀ {c k}, a.get? h = some c → s.level.covers c.header.generation = false →
        k ∈ c.edges s.withNames → m'.arena.Settled s k) ∧
      m.Grows m' := by
  induction hs generalizing m with
  | nil =>
    obtain ⟨-, rfl⟩ := run_pure.mp hrun
    exact ⟨ht, nofun, .refl _⟩
  | cons h hs ih =>
    simp only [MarkM.markRemembered, run_bind, run_get] at hrun
    obtain ⟨_, _, ⟨rfl, rfl⟩, hrun⟩ := hrun
    have hone : ∃ mid, mid.Traces s a K pending ∧
        (∀ {c k}, a.get? h = some c → s.level.covers c.header.generation = false →
          k ∈ c.edges s.withNames → mid.arena.Settled s k) ∧
        m.Grows mid ∧ (MarkM.markRemembered s hs).run mid = .ok (u, m') := by
      cases hc : m.arena.get? h with
      | none =>
        rw [hc] at hrun
        refine ⟨m, ht, ?_, .refl _, hrun⟩
        intro c k hc₀
        obtain ⟨d, hd, -⟩ := ht.alike.core hc₀
        rw [hc] at hd
        exact nomatch hd
      | some c =>
        obtain ⟨c₀, hc₀, hcore⟩ := ht.alike.symm.core hc
        have hgen := Cell.generation_of_core hcore
        simp only [hc] at hrun
        split at hrun
        · rename_i huncovered
          simp only [run_bind] at hrun
          obtain ⟨_, mid, hedges, hrun⟩ := hrun
          have hout : s.level.covers c₀.header.generation = false := by
            rw [hgen]
            simpa using huncovered
          obtain ⟨ht₁, hsettled, hg₁⟩ := ht.markEdges
            (fun hd hk => by
              rw [hc₀, Option.some.injEq] at hd
              subst hd
              exact hK h List.mem_cons_self hc₀ hout hk) hedges
          exact ⟨mid, ht₁, fun hd _ hk => hsettled hd hk, hg₁, hrun⟩
        · rename_i hcovered
          refine ⟨m, ht, ?_, .refl _, hrun⟩
          intro d k hd hout
          rw [hc₀, Option.some.injEq] at hd
          subst hd
          rw [hgen] at hout
          simp only [hout, Bool.not_false, not_true_eq_false] at hcovered
    obtain ⟨mid, ht₁, hsettled, hg₁, hrun⟩ := hone
    obtain ⟨ht₂, hrest, hg₂⟩ := ih ht₁ (fun k hk => hK k (List.mem_cons_of_mem _ hk)) hrun
    refine ⟨ht₂, ?_, hg₁.trans hg₂⟩
    intro k hk c x hc hout hx
    rcases List.mem_cons.mp hk with rfl | hk
    · exact hg₂.settled (hsettled hc hout hx)
    · exact hrest k hk hc hout hx

def taskFlags (tasks : Tasks) (hs : List Handle) (h : Handle) (fs : Flags) : Flags :=
  if h ∈ hs then { beingComputed := tasks.isPending h, inUseByTask := tasks.isInUse h }
  else fs.task

theorem noteHeld {tasks : Tasks} {c : Cell} (ht : m.Traces s a K pending)
    (hc : m.arena.get? h = some c)
    (hm : m' = { m with arena := m.arena.setCell h (Cell.mapFlags fun fs =>
      { fs with beingComputed := tasks.isPending h, inUseByTask := tasks.isInUse h }) }) :
    m'.Traces s a K pending ∧ m.Spreads m' ∧
      ∀ {k c d}, m.arena.get? k = some c → m'.arena.get? k = some d →
        d.flags.task = taskFlags tasks [h] k c.flags := by
  let note : Cell → Cell := Cell.mapFlags fun fs =>
    { fs with beingComputed := tasks.isPending h, inUseByTask := tasks.isInUse h }
  change m' = { m with arena := m.arena.setCell h note } at hm
  subst hm
  have hlive : (note c).isFree = false := (get?_eq_some.mp hc).2
  have hmarks : ∀ {k}, (m.arena.setCell h note).Marks k ↔ m.arena.Marks k :=
    marks_setCell hc hlive rfl
  have hsame : Alike m.arena (m.arena.setCell h note) := .setCell hc rfl
  have hspreads : m.Spreads { m with arena := m.arena.setCell h note } := by
    refine ⟨hsame, hmarks.mpr, ?_⟩
    intro k
    unfold Ready
    by_cases hk : k = h
    · subst hk
      simp only [get?_setCell_self hc hlive, hc, Option.some.injEq, exists_eq_left']
      rfl
    · rw [get?_setCell_ne hk]
  refine ⟨⟨ht.tidy, ht.alike.trans hsame, ?_, fun hk => ht.within (hmarks.mp hk), ?_, ?_⟩,
    hspreads, ?_⟩
  · rw [ht.counted]
    refine List.countP_congr ?_
    intro k _
    rw [markedAt_iff, markedAt_iff, hmarks]
  · intro k hk
    exact hmarks.mpr (ht.queued k hk)
  · intro k d x hk hout hpending hd hx
    exact hspreads.settled (ht.followed (hmarks.mp hk) hout hpending hd hx)
  · intro k d e hd he
    unfold taskFlags
    by_cases hk : k = h
    · subst hk
      rw [get?_setCell_self hc hlive, Option.some.injEq] at he
      rw [if_pos (List.mem_singleton.mpr rfl), ← he]
      rfl
    · rw [get?_setCell_ne hk, hd, Option.some.injEq] at he
      rw [if_neg (fun hm => hk (List.mem_singleton.mp hm)), he]

theorem markHeld {u : PUnit} {tasks : Tasks} {hs : List Handle} (ht : m.Traces s a K pending)
    (hK : ∀ h ∈ hs, a.Covered s h → K h)
    (hrun : (MarkM.markHeld s tasks hs).run m = .ok (u, m')) :
    m'.Traces s a K pending ∧ (∀ h ∈ hs, (∃ c, a.get? h = some c) → m'.arena.Settled s h) ∧
      m.Spreads m' ∧
      ∀ {h c d}, m.arena.get? h = some c → m'.arena.get? h = some d →
        d.flags.task = taskFlags tasks hs h c.flags := by
  induction hs generalizing m with
  | nil =>
    obtain ⟨-, rfl⟩ := run_pure.mp hrun
    refine ⟨ht, nofun, .refl _, ?_⟩
    intro h c d hc hd
    rw [hc, Option.some.injEq] at hd
    rw [hd]
    rfl
  | cons h hs ih =>
    simp only [MarkM.markHeld, run_bind, run_get] at hrun
    obtain ⟨_, _, ⟨rfl, rfl⟩, hrun⟩ := hrun
    have hone : ∃ mid, mid.Traces s a K pending ∧
        ((∃ c, a.get? h = some c) → mid.arena.Settled s h) ∧ m.Spreads mid ∧
        (∀ {k c d}, m.arena.get? k = some c → mid.arena.get? k = some d →
          d.flags.task = taskFlags tasks [h] k c.flags) ∧
        (MarkM.markHeld s tasks hs).run mid = .ok (u, m') := by
      split at hrun
      · simp only [run_bind, run_updateCell] at hrun
        obtain ⟨_, noted, ⟨⟨c, hc⟩, hnoted⟩, _, mid, hmark, hrun⟩ := hrun
        obtain ⟨ht₁, hspreads, htask⟩ := ht.noteHeld hc hnoted
        obtain ⟨ht₂, hsettled, hg⟩ := ht₁.mark (hK h List.mem_cons_self) hmark
        refine ⟨mid, ht₂, fun _ => hsettled, hspreads.trans hg.spreads, ?_, hrun⟩
        intro k c d hc hd
        obtain ⟨e, he, hed⟩ := hg.same.symm.get? (fun _ => rfl) hd
        rw [← htask hc he]
        exact (congrArg (fun c : Cell => c.header.flags.task) hed :).symm
      · rename_i hdead
        refine ⟨m, ht, ?_, .refl _, ?_, hrun⟩
        · rintro ⟨c, hc⟩
          obtain ⟨d, hd, -⟩ := ht.alike.core hc
          exact absurd (contains_of_get? hd) hdead
        · intro k c d hc hd
          rw [hc, Option.some.injEq] at hd
          have hne : k ∉ [h] := by
            rw [List.mem_singleton]
            rintro rfl
            exact hdead (contains_of_get? hc)
          rw [taskFlags, if_neg hne, hd]
    obtain ⟨mid, ht₁, hsettled, hg₁, htask₁, hrun⟩ := hone
    obtain ⟨ht₂, hrest, hg₂, htask₂⟩ := ih ht₁ (fun k hk => hK k (List.mem_cons_of_mem _ hk)) hrun
    refine ⟨ht₂, ?_, hg₁.trans hg₂, ?_⟩
    · intro k hk hlive
      rcases List.mem_cons.mp hk with rfl | hk
      · exact hg₂.settled (hsettled hlive)
      · exact hrest k hk hlive
    · intro k c d hc hd
      obtain ⟨e, he, -⟩ := hg₁.alike.core hc
      rw [htask₂ he hd]
      unfold taskFlags
      by_cases hk : k ∈ hs
      · rw [if_pos hk, if_pos (List.mem_cons_of_mem _ hk)]
      · rw [if_neg hk, htask₁ hc he]
        unfold taskFlags
        simp only [List.mem_cons, List.not_mem_nil, or_false, hk]

end Marking.Traces

end ManagedHeap
