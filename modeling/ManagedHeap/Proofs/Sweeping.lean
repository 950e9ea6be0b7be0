import ManagedHeap.Proofs.StringChains

/-!
# The sweep

The sweep visits every position once. A covered object that is marked, or that the
string cache keeps as the name of a symbol, moves to the next generation; every other
covered object gives its cell back. Nothing else changes but the links of cached strings.
-/

namespace ManagedHeap

namespace Cell

def stays (c : Cell) : Bool :=
  c.flags.marked || (c.kind == .charString && c.flags.cached && c.flags.symbolName)

def promoted (tasks : Tasks) (target : Generation) (h : Handle) (c : Cell) : Cell :=
  let c := c.mapFlags fun fs =>
    { fs with
      marked := false, beingComputed := tasks.isPending h, inUseByTask := tasks.isInUse h }
  { c with header := { c.header with generation := target } }

theorem header_unlinked (c : Cell) : c.unlinked.header = c.header := by
  unfold unlinked
  split <;> rfl

end Cell

namespace Level

/-- The sweep decides about the cell: it holds a covered object. -/
def sweeps (level : Level) (c : Cell) : Bool :=
  !c.isFree && !c.flags.permanent && level.covers c.header.generation

def frees (level : Level) (c : Cell) : Bool := level.sweeps c && !c.stays

def swept (level : Level) (tasks : Tasks) (h : Handle) (c : Cell) : Cell :=
  if level.sweeps c then
    if c.stays then c.promoted tasks level.promotionTarget h else {}
  else c

variable {level : Level} {tasks : Tasks} {h : Handle} {c d : Cell}

theorem sweeps_congr (he : d.header = c.header) : level.sweeps d = level.sweeps c := by
  simp only [sweeps, Cell.isFree, Cell.flags, he]

theorem stays_congr (he : d.header = c.header) : d.stays = c.stays := by
  simp only [Cell.stays, Cell.kind, Cell.flags, he]

theorem frees_congr (he : d.header = c.header) : level.frees d = level.frees c := by
  simp only [frees, sweeps_congr he, stays_congr he]

theorem swept_of_not_sweeps (hs : level.sweeps c = false) : level.swept tasks h c = c := by
  rw [swept, if_neg (by simp [hs])]

theorem swept_of_stays (hs : level.sweeps c = true) (hk : c.stays = true) :
    level.swept tasks h c = c.promoted tasks level.promotionTarget h := by
  rw [swept, if_pos hs, if_pos hk]

theorem swept_of_frees (hf : level.frees c = true) : level.swept tasks h c = {} := by
  simp only [frees, Bool.and_eq_true, Bool.not_eq_eq_eq_not, Bool.not_true] at hf
  rw [swept, if_pos hf.1, if_neg (by simp [hf.2])]

theorem unlinked_swept (c : Cell) :
    (level.swept tasks h c).unlinked = level.swept tasks h c.unlinked := by
  simp only [swept, sweeps_congr (Cell.header_unlinked c), stays_congr (Cell.header_unlinked c)]
  split
  · split
    · cases hcached : c.header.flags.cached <;>
        simp [Cell.unlinked, Cell.promoted, Cell.mapFlags, Cell.flags, hcached]
    · rfl
  · rfl

theorem swept_live (hlive : (level.swept tasks h c).isFree = false) :
    c.isFree = false ∧ level.frees c = false := by
  cases hf : level.frees c with
  | true =>
    rw [swept_of_frees hf] at hlive
    exact nomatch hlive
  | false =>
    refine ⟨?_, rfl⟩
    cases hfree : c.isFree with
    | false => rfl
    | true =>
      have hs : level.sweeps c = false := by simp [sweeps, hfree]
      rw [swept_of_not_sweeps hs, hfree] at hlive
      exact nomatch hlive

theorem swept_isFree (hlive : c.isFree = false) (hf : level.frees c = false) :
    (level.swept tasks h c).isFree = false := by
  cases hs : level.sweeps c with
  | false =>
    rw [swept_of_not_sweeps hs]
    exact hlive
  | true =>
    have hk : c.stays = true := by simpa [frees, hs] using hf
    rw [swept_of_stays hs hk]
    exact hlive

end Level

namespace HeapM

variable {heap heap' : Heap} {h : Handle} {u : PUnit}

theorem run_promote {source target : Generation} {chunks : Nat}
    (hrun : (promote h source target chunks).run heap = .ok (u, heap')) :
    (∃ c, heap.arena.get? h = some c) ∧ heap' = { heap with
      arena := heap.arena.setCell h (Cell.promoted heap.tasks target h)
      generations := (heap.generations.modify source fun u =>
        { objects := u.objects - 1, bigChunks := u.bigChunks - chunks }).modify target fun u =>
        { objects := u.objects + 1, bigChunks := u.bigChunks + chunks } } := by
  simp only [promote, run_bind, run_get, run_updateCell, run_modify] at hrun
  obtain ⟨_, _, ⟨rfl, rfl⟩, _, _, ⟨hlive, rfl⟩, rfl⟩ := hrun
  exact ⟨hlive, rfl⟩

theorem run_reclaim {kind : Kind} {generation : Generation} {chunks : Nat}
    (hrun : (reclaim h kind generation chunks).run heap = .ok (u, heap')) :
    ∃ arena, heap.arena.release h = .ok arena ∧ heap' = { heap with
      arena
      generations := heap.generations.modify generation fun u =>
        { objects := u.objects - 1, bigChunks := u.bigChunks - chunks }
      journal := heap.journal.noteFreed h kind } := by
  simp only [reclaim, run_bind, run_modify, run_onArena] at hrun
  obtain ⟨_, _, rfl, _, _, ⟨arena, hrelease, rfl⟩, rfl⟩ := hrun
  refine ⟨arena, ?_, rfl⟩
  cases hr : heap.arena.release h with
  | error e => simp [hr, Except.map] at hrelease
  | ok a =>
    simp only [hr, Except.map, Except.ok.injEq, Prod.mk.injEq, true_and] at hrelease
    rw [hrelease]

end HeapM

/-- What the sweep relies on. -/
structure Heap.Sweepable (heap : Heap) : Prop where
  tidy : heap.arena.Tidy
  nilLive : ∃ c, heap.arena.get? .nil = some c ∧ c.flags.permanent = true
  strings : ∀ {h c}, heap.arena.get? h = some c → c.flags.cached = true → c.kind = .charString
  chained : ∃ on, Chained heap.arena heap.strings.buckets.toList on

def Arena.dies (a : Arena) (level : Level) (h : Handle) : Bool := (a.cellAt? h).any level.frees

def Arena.loses (a : Arena) (level : Level) (g : Generation) (h : Handle) : Bool :=
  (a.cellAt? h).any fun c => level.frees c && c.header.generation == g

/-- What a sweep over some positions makes of a heap. -/
structure Swept (level : Level) (seen : List Handle) (start heap : Heap) : Prop where
  rest : ∃ arena strings generations journal,
    heap = { start with arena, strings, generations, journal }
  ready : heap.Sweepable
  shape : heap.arena.shape = start.arena.shape
  visited : ∀ h ∈ seen, (heap.arena.cellAt? h).map Cell.unlinked =
    (start.arena.cellAt? h).map fun c => level.swept start.tasks h c.unlinked
  ahead : ∀ h, h ∉ seen →
    (heap.arena.cellAt? h).map Cell.unlinked = (start.arena.cellAt? h).map Cell.unlinked
  free : ∀ n, heap.arena.freeList n =
    (seen.filter fun h => start.arena.dies level h && start.arena.classAt? h == some n).reverse ++
      start.arena.freeList n

namespace Swept

variable {level : Level} {seen seen' : List Handle} {start mid heap : Heap} {h : Handle}

theorem refl (hs : heap.Sweepable) : Swept level [] heap heap :=
  ⟨⟨_, _, _, _, rfl⟩, hs, rfl, nofun, fun _ _ => rfl, fun _ => by simp⟩

theorem any_ahead {p : Cell → Bool} (hp : ∀ {c d : Cell}, d.header = c.header → p d = p c)
    (hs : Swept level seen start heap) (hh : h ∉ seen) :
    (heap.arena.cellAt? h).any p = (start.arena.cellAt? h).any p := by
  have hany : ∀ o : Option Cell, o.any p = (o.map Cell.unlinked).any p := by
    intro o
    cases o with
    | none => rfl
    | some c => exact (hp (Cell.header_unlinked c)).symm
  rw [hany, hs.ahead h hh, ← hany]

theorem trans (h₁ : Swept level seen start mid) (h₂ : Swept level seen' mid heap)
    (hnew : ∀ h ∈ seen', h ∉ seen) : Swept level (seen ++ seen') start heap := by
  obtain ⟨arena₁, strings₁, generations₁, journal₁, hmid⟩ := h₁.rest
  obtain ⟨arena₂, strings₂, generations₂, journal₂, hheap⟩ := h₂.rest
  have htasks : mid.tasks = start.tasks := by rw [hmid]
  refine ⟨⟨arena₂, strings₂, generations₂, journal₂, by rw [hheap, hmid]⟩, h₂.ready,
    h₂.shape.trans h₁.shape, ?_, ?_, ?_⟩
  · intro h hh
    by_cases hlate : h ∈ seen'
    · have hcell := congrArg (Option.map (level.swept start.tasks h)) (h₁.ahead h (hnew h hlate))
      rw [Option.map_map, Option.map_map] at hcell
      rw [h₂.visited h hlate, htasks]
      exact hcell
    · rw [h₂.ahead h hlate]
      exact h₁.visited h ((List.mem_append.mp hh).resolve_right hlate)
  · intro h hh
    rw [List.mem_append, not_or] at hh
    exact (h₂.ahead h hh.2).trans (h₁.ahead h hh.1)
  · intro n
    have hsame : (seen'.filter fun h => mid.arena.dies level h && mid.arena.classAt? h == some n) =
        seen'.filter fun h => start.arena.dies level h && start.arena.classAt? h == some n := by
      refine List.filter_congr ?_
      intro h hh
      rw [Arena.dies, h₁.any_ahead Level.frees_congr (hnew h hh),
        Arena.classAt?_eq_of_shape h₁.shape]
      rfl
    rw [h₂.free n, h₁.free n, hsame, List.filter_append, List.reverse_append, List.append_assoc]

open Arena

theorem skip (hs : heap.Sweepable) (hskip : (heap.arena.cellAt? h).any level.sweeps = false) :
    Swept level [h] heap heap := by
  refine ⟨⟨_, _, _, _, rfl⟩, hs, rfl, ?_, fun _ _ => rfl, ?_⟩
  · rintro k hk
    obtain rfl := List.mem_singleton.mp hk
    cases hc : heap.arena.cellAt? k with
    | none => rfl
    | some c =>
      rw [hc, Option.any_some] at hskip
      have hskip' : level.sweeps c.unlinked = false :=
        (Level.sweeps_congr (Cell.header_unlinked c)).trans hskip
      rw [Option.map_some, Option.map_some, Level.swept_of_not_sweeps hskip']
  · intro n
    have hdies : heap.arena.dies level h = false := by
      cases hc : heap.arena.cellAt? h with
      | none => rw [dies, hc, Option.any_none]
      | some c =>
        rw [hc, Option.any_some] at hskip
        rw [dies, hc, Option.any_some, Level.frees, hskip, Bool.false_and]
    rw [List.filter_singleton, hdies, Bool.false_and]
    rfl

theorem ne_nil {c : Cell} (hs : heap.Sweepable) (hc : heap.arena.cellAt? h = some c)
    (hsweeps : level.sweeps c = true) : h ≠ .nil := by
  rintro rfl
  obtain ⟨d, hd, hperm⟩ := hs.nilLive
  rw [(get?_eq_some.mp hd).1, Option.some.injEq] at hc
  rw [← hc] at hsweeps
  simp [Level.sweeps, hperm] at hsweeps

theorem promote {c : Cell} {chunks : Nat} {u : PUnit} (hs : heap.Sweepable)
    (hc : heap.arena.cellAt? h = some c) (hsweeps : level.sweeps c = true)
    (hstays : c.stays = true)
    (hrun : (HeapM.promote h c.header.generation level.promotionTarget chunks).run heap =
      .ok (u, mid)) : Swept level [h] heap mid := by
  obtain ⟨⟨c', hget⟩, rfl⟩ := HeapM.run_promote hrun
  obtain ⟨hat, hlive⟩ := get?_eq_some.mp hget
  rw [hc, Option.some.injEq] at hat
  subst hat
  let f : Cell → Cell := Cell.promoted heap.tasks level.promotionTarget h
  have hself : (heap.arena.setCell h f).get? h = some (f c) := get?_setCell_self hget hlive
  have hother : ∀ {k d}, (heap.arena.setCell h f).get? k = some d → ∃ e,
      heap.arena.get? k = some e ∧ d.flags.cached = e.flags.cached ∧ d.kind = e.kind := by
    intro k d hd
    by_cases hk : k = h
    · subst hk
      rw [hself, Option.some.injEq] at hd
      subst hd
      exact ⟨c, hget, rfl, rfl⟩
    · exact ⟨d, (get?_setCell_ne hk).symm.trans hd, rfl, rfl⟩
  refine ⟨⟨_, _, _, _, rfl⟩, ⟨hs.tidy.setCell hget, ?_, ?_, ?_⟩, shape_setCell, ?_, ?_, ?_⟩
  · obtain ⟨d, hd, hperm⟩ := hs.nilLive
    exact ⟨d, (get?_setCell_ne (ne_nil hs hc hsweeps).symm).trans hd, hperm⟩
  · intro k d hd hcached
    obtain ⟨e, he, hflag, hkind⟩ := hother hd
    exact hkind.trans (hs.strings he (hflag.symm.trans hcached))
  · obtain ⟨on, hon⟩ := hs.chained
    refine ⟨on, hon.congr ?_⟩
    intro k _ d hd hcached
    by_cases hk : k = h
    · subst hk
      rw [hget, Option.some.injEq] at hd
      subst hd
      exact ⟨f c, hself, hcached, rfl⟩
    · exact ⟨d, (get?_setCell_ne hk).trans hd, hcached, rfl⟩
  · intro k hk
    obtain rfl := List.mem_singleton.mp hk
    rw [cellAt?_setCell, if_pos rfl, hc, Option.map_some, Option.map_some, Option.map_some,
      ← Level.unlinked_swept, Level.swept_of_stays hsweeps hstays]
  · intro k hk
    rw [cellAt?_setCell, if_neg fun e => hk (List.mem_singleton.mpr e)]
  · intro n
    rw [List.filter_singleton, dies, hc, Option.any_some, Level.frees, hstays, Bool.not_true,
      Bool.and_false, Bool.false_and]
    rfl

theorem reclaim {c : Cell} {arena : Arena} {strings : StringCache} {on : Handle → Prop}
    {chunks : Nat} {u : PUnit} (hs : heap.Sweepable)
    (hc : heap.arena.cellAt? h = some c) (hfrees : level.frees c = true)
    (hrelinks : Relinks heap.arena arena) (hon : Chained arena strings.buckets.toList on)
    (hout : ¬ on h)
    (hrun : (HeapM.reclaim h c.header.kind c.header.generation chunks).run
      { heap with arena, strings } = .ok (u, mid)) : Swept level [h] heap mid := by
  obtain ⟨a', hrelease, rfl⟩ := HeapM.run_reclaim hrun
  obtain ⟨-, ⟨n, hn, hlists⟩, hshape, hcells⟩ := release_eq_ok hrelease
  have hsweeps : level.sweeps c = true := by
    rw [Level.frees, Bool.and_eq_true] at hfrees
    exact hfrees.1
  have hget : ∀ {k}, k ≠ h → a'.get? k = arena.get? k := by
    intro k hk
    simp only [get?, hcells, if_neg hk]
  have hgone : ∀ {d}, a'.get? h ≠ some d := by
    intro d hd
    obtain ⟨hat, hlive⟩ := get?_eq_some.mp hd
    rw [hcells, if_pos rfl] at hat
    obtain ⟨_, -, rfl⟩ := Option.map_eq_some_iff.mp hat
    cases hlive
  refine ⟨⟨_, _, _, _, rfl⟩, ⟨?_, ?_, ?_, on, ?_⟩, hshape.trans hrelinks.shape, ?_, ?_, ?_⟩
  · exact (hrelinks.tidy Cell.isFree_unlinked hs.tidy).release hrelease
  · obtain ⟨d, hd, hperm⟩ := hs.nilLive
    obtain ⟨e, he, hed⟩ := hrelinks.unlinked hd
    refine ⟨e, (hget (ne_nil hs hc hsweeps).symm).trans he, ?_⟩
    rwa [Cell.flags, Cell.header_of_unlinked hed]
  · intro k d hd hcached
    have hk : k ≠ h := fun e => hgone (e ▸ hd)
    obtain ⟨e, he, hed⟩ := hrelinks.symm.unlinked ((hget hk).symm.trans hd)
    have hheader := Cell.header_of_unlinked hed
    rw [Cell.kind, ← hheader]
    refine hs.strings he ?_
    rwa [Cell.flags, hheader]
  · refine hon.congr ?_
    intro k hk d hd hcached
    have hne : k ≠ h := fun e => hout (e ▸ hk)
    exact ⟨d, (hget hne).trans hd, hcached, rfl⟩
  · intro k hk
    obtain rfl := List.mem_singleton.mp hk
    obtain ⟨d, hd, hdc⟩ := hrelinks.cellAt? hc
    have hfrees' : level.frees c.unlinked = true :=
      (Level.frees_congr (Cell.header_unlinked c)).trans hfrees
    change Option.map Cell.unlinked (a'.cellAt? k) = _
    rw [hcells, if_pos rfl, hd, hc, Option.map_some, Option.map_some, Option.map_some,
      Level.swept_of_frees hfrees']
    rfl
  · intro k hk
    change Option.map Cell.unlinked (a'.cellAt? k) = _
    rw [hcells, if_neg fun e => hk (List.mem_singleton.mpr e)]
    exact hrelinks.cells k
  · intro i
    have hclass : heap.arena.classAt? h = some n := by
      rw [classAt?_eq_of_shape hrelinks.shape.symm]
      exact hn
    have hold : ∀ i, arena.freeList i = heap.arena.freeList i := by
      intro i
      simp only [freeList, freeLists_of_books hrelinks.books]
    change a'.freeList i = _
    rw [hlists i, hold i, hold n, List.filter_singleton, dies, hc, Option.any_some, hfrees,
      Bool.true_and, hclass]
    by_cases hi : i = n
    · subst hi
      simp
    · have hne : (some n == some i) = false := by simpa using fun e => hi e.symm
      rw [if_neg hi, hne]
      rfl

theorem cell_cases {large : Bool} {lost : Option Generation} (hs : heap.Sweepable)
    (hrun : (HeapM.sweepCell level large h).run heap = .ok (lost, mid)) :
    (lost = none ∧ mid = heap ∧ (heap.arena.cellAt? h).any level.sweeps = false) ∨
    (∃ c u, heap.arena.get? h = some c ∧ level.sweeps c = true ∧ c.stays = true ∧ lost = none ∧
      (HeapM.promote h c.header.generation level.promotionTarget
        (HeapM.bigChunksOf large c)).run heap = .ok (u, mid)) ∨
    ∃ c arena strings on u, heap.arena.get? h = some c ∧ level.frees c = true ∧
      lost = some c.header.generation ∧ Relinks heap.arena arena ∧
      Chained arena strings.buckets.toList on ∧ ¬ on h ∧
      (HeapM.reclaim h c.header.kind c.header.generation (HeapM.bigChunksOf large c)).run
        { heap with arena, strings } = .ok (u, mid) := by
  simp only [HeapM.sweepCell, run_bind, run_get] at hrun
  obtain ⟨_, _, ⟨rfl, rfl⟩, hrun⟩ := hrun
  cases hc : heap.arena.cellAt? h with
  | none =>
    rw [hc] at hrun
    obtain ⟨rfl, rfl⟩ := run_pure.mp hrun
    exact .inl ⟨rfl, rfl, rfl⟩
  | some c =>
    simp only [hc] at hrun
    split at hrun
    · rename_i hskip
      obtain ⟨rfl, rfl⟩ := run_pure.mp hrun
      refine .inl ⟨rfl, rfl, ?_⟩
      simp only [Bool.or_eq_true, Bool.not_eq_eq_eq_not, Bool.not_true] at hskip
      rw [Option.any_some]
      rcases hskip with (hfree | hperm) | hcovers
      · simp [Level.sweeps, Cell.isFree, hfree]
      · simp [Level.sweeps, Cell.flags, hperm]
      · simp [Level.sweeps, hcovers]
    · rename_i hcovered
      have hsweeps : level.sweeps c = true := by
        simpa [Level.sweeps, Cell.isFree, Cell.flags, and_assoc] using hcovered
      have hlive : c.isFree = false := by
        simp only [Level.sweeps, Bool.and_eq_true, Bool.not_eq_eq_eq_not, Bool.not_true] at hsweeps
        exact hsweeps.1.1
      have hget := get?_eq_some.mpr ⟨hc, hlive⟩
      -- the two ways on: the object stays, or its cell goes back
      suffices hends : (c.stays = true ∧
          (do HeapM.promote h c.header.generation level.promotionTarget (HeapM.bigChunksOf large c)
              return none : HeapM (Option Generation)).run heap = .ok (lost, mid)) ∨
          ∃ arena strings on, c.stays = false ∧ Relinks heap.arena arena ∧
            Chained arena strings.buckets.toList on ∧ ¬ on h ∧
            (do HeapM.reclaim h c.header.kind c.header.generation (HeapM.bigChunksOf large c)
                return some c.header.generation : HeapM (Option Generation)).run
              { heap with arena, strings } = .ok (lost, mid) by
        right
        simp only [run_bind, run_pure] at hends
        rcases hends with ⟨hstays, u, _, hpromote, rfl, rfl⟩ |
          ⟨arena, strings, on, hdead, hrelinks, hon, hout, u, _, hreclaim, rfl, rfl⟩
        · exact .inl ⟨c, u, hget, hsweeps, hstays, rfl, hpromote⟩
        · refine .inr ⟨c, arena, strings, on, u, hget, ?_, rfl, hrelinks, hon, hout, hreclaim⟩
          rw [Level.frees, hsweeps, hdead]
          rfl
      obtain ⟨on, hon⟩ := hs.chained
      split at hrun
      · rename_i hmarked
        simp only [pure_bind] at hrun
        exact .inl ⟨by simp [Cell.stays, Cell.flags, hmarked], hrun⟩
      · rename_i hmarked
        simp only [HeapM.mayRelease] at hrun
        split at hrun
        · rename_i hstring
          simp only [run_bind] at hrun
          obtain ⟨released, _, hevict, hrun⟩ := hrun
          rcases HeapM.run_evictString (ne_nil hs hc hsweeps) hget hon hevict with
            ⟨hsym, rfl, rfl⟩ | ⟨hsym, rfl, arena, strings, rfl, hrelinks, hon'⟩
          · exact .inl ⟨by simp [Cell.stays, hstring.1, hstring.2, hsym], hrun⟩
          · refine .inr ⟨arena, strings, _, ?_, hrelinks, hon', fun hh => hh.2 rfl, hrun⟩
            simp only [Cell.stays, Cell.flags] at hsym ⊢
            simp [hmarked, hsym]
        · rename_i hstring
          simp only [pure_bind] at hrun
          have huncached : c.flags.cached = false := by
            by_contra hcached
            rw [Bool.not_eq_false] at hcached
            exact hstring ⟨hs.strings hget hcached, hcached⟩
          have hout : ¬ on h := by
            intro hh
            obtain ⟨-, d, hd, hcached⟩ := hon.cached hh
            rw [hget, Option.some.injEq] at hd
            rw [← hd, huncached] at hcached
            cases hcached
          refine .inr ⟨heap.arena, heap.strings, on, ?_, .refl _ _, hon, hout, hrun⟩
          have hmark : c.flags.marked = false := by simpa [Cell.flags] using hmarked
          simp [Cell.stays, hmark, huncached]

theorem cell {large : Bool} {lost : Option Generation} (hs : heap.Sweepable)
    (hrun : (HeapM.sweepCell level large h).run heap = .ok (lost, mid)) :
    Swept level [h] heap mid ∧ ∀ g, lost = some g ↔ heap.arena.loses level g h = true := by
  have hloses : ∀ {c}, heap.arena.get? h = some c → ∀ g, heap.arena.loses level g h = true ↔
      level.frees c = true ∧ c.header.generation = g := by
    intro c hc g
    rw [loses, (get?_eq_some.mp hc).1, Option.any_some, Bool.and_eq_true, beq_iff_eq]
  rcases cell_cases hs hrun with ⟨rfl, rfl, hskip⟩ | ⟨c, u, hc, hsweeps, hstays, rfl, hpromote⟩ |
    ⟨c, arena, strings, on, u, hc, hfrees, rfl, hrelinks, hon, hout, hreclaim⟩
  · refine ⟨skip hs hskip, fun g => ?_⟩
    rw [loses]
    cases hc : mid.arena.cellAt? h with
    | none => simp
    | some c =>
      rw [hc, Option.any_some] at hskip
      simp [Level.frees, hskip]
  · refine ⟨promote hs (get?_eq_some.mp hc).1 hsweeps hstays hpromote, fun g => ?_⟩
    rw [hloses hc, Level.frees, hstays]
    simp
  · refine ⟨reclaim hs (get?_eq_some.mp hc).1 hfrees hrelinks hon hout hreclaim, fun g => ?_⟩
    rw [hloses hc, Option.some.injEq]
    exact (and_iff_right hfrees).symm

theorem countP_loses {hs : List Handle} {g : Generation} (hs₀ : Swept level seen start heap)
    (hnew : ∀ k ∈ hs, k ∉ seen) :
    hs.countP (heap.arena.loses level g) = hs.countP (start.arena.loses level g) := by
  refine List.countP_congr ?_
  intro k hk
  rw [loses, hs₀.any_ahead (fun he => by rw [Level.frees_congr he, he]) (hnew k hk)]
  rfl

theorem offsets {large : Bool} {segment : Nat} {os : List Nat} {freed freed' : PerGeneration Nat}
    (hs : heap.Sweepable) (honce : (os.map (Handle.pack segment)).Nodup)
    (hrun : (HeapM.sweepOffsets level large segment os freed).run heap = .ok (freed', mid)) :
    Swept level (os.map (Handle.pack segment)) heap mid ∧
      ∀ g, freed'.get g =
        freed.get g + (os.map (Handle.pack segment)).countP (heap.arena.loses level g) := by
  induction os generalizing heap freed with
  | nil =>
    obtain ⟨rfl, rfl⟩ := run_pure.mp hrun
    exact ⟨.refl hs, fun g => rfl⟩
  | cons o os ih =>
    simp only [HeapM.sweepOffsets, run_bind] at hrun
    obtain ⟨lost, next, hcell, hrun⟩ := hrun
    obtain ⟨hone, hlost⟩ := cell hs hcell
    rw [List.map_cons, List.nodup_cons] at honce
    obtain ⟨hrest, hcount⟩ := ih hone.ready honce.2 hrun
    have hnew : ∀ k ∈ os.map (Handle.pack segment), k ∉ [Handle.pack segment o] := by
      intro k hk hko
      obtain rfl := List.mem_singleton.mp hko
      exact honce.1 hk
    refine ⟨hone.trans hrest hnew, ?_⟩
    intro g
    rw [hcount g, hone.countP_loses hnew, List.map_cons, List.countP_cons]
    cases lost with
    | none =>
      have hno : ¬ heap.arena.loses level g (Handle.pack segment o) = true :=
        fun h => nomatch (hlost g).mpr h
      rw [if_neg hno, Nat.add_zero]
    | some k =>
      simp only [PerGeneration.get_modify]
      by_cases hg : g = k
      · subst hg
        rw [if_pos rfl, if_pos ((hlost g).mp rfl)]
        omega
      · have hno : ¬ heap.arena.loses level g (Handle.pack segment o) = true := by
          intro h
          have hk := (hlost g).mpr h
          rw [Option.some.injEq] at hk
          exact hg hk.symm
        rw [if_neg hg, if_neg hno]
        omega

theorem segments {is : List Nat} {freed freed' : PerGeneration Nat} (hs : heap.Sweepable)
    (honce : (is.flatMap heap.arena.column).Nodup)
    (hrun : (HeapM.sweepSegments level is freed).run heap = .ok (freed', mid)) :
    Swept level (is.flatMap heap.arena.column) heap mid ∧
      ∀ g, freed'.get g =
        freed.get g + (is.flatMap heap.arena.column).countP (heap.arena.loses level g) := by
  induction is generalizing heap freed with
  | nil =>
    obtain ⟨rfl, rfl⟩ := run_pure.mp hrun
    exact ⟨.refl hs, fun g => rfl⟩
  | cons i is ih =>
    simp only [HeapM.sweepSegments, run_bind, run_get] at hrun
    obtain ⟨_, _, ⟨rfl, rfl⟩, hrun⟩ := hrun
    rw [List.flatMap_cons] at honce ⊢
    cases hi : heap.arena.segments[i]? with
    | none =>
      have hcolumn : heap.arena.column i = [] := by simp [column, hi]
      rw [hi] at hrun
      rw [hcolumn, List.nil_append] at honce ⊢
      exact ih hs honce hrun
    | some s =>
      have hcolumn : heap.arena.column i = (List.range s.cells.size).map (Handle.pack i) := by
        simp [column, hi]
      simp only [hi, run_bind] at hrun
      obtain ⟨freed₁, next, hoffsets, hrun⟩ := hrun
      obtain ⟨hleft, hright, hdisjoint⟩ := List.nodup_append.mp honce
      rw [hcolumn] at hleft hdisjoint ⊢
      obtain ⟨hone, hcount₁⟩ := offsets hs hleft hoffsets
      have hsame : next.arena.column = heap.arena.column := column_of_shape hone.shape
      rw [← hsame] at hright
      obtain ⟨hrest, hcount₂⟩ := ih hone.ready hright hrun
      rw [hsame] at hrest hcount₂
      have hnew : ∀ k ∈ is.flatMap heap.arena.column,
          k ∉ (List.range s.cells.size).map (Handle.pack i) :=
        fun k hk hk' => hdisjoint k hk' k hk rfl
      refine ⟨hone.trans hrest hnew, ?_⟩
      intro g
      rw [hcount₂ g, hcount₁ g, hone.countP_loses hnew, List.countP_append]
      omega

theorem all {freed : PerGeneration Nat} (hs : heap.Sweepable)
    (hrun : (HeapM.sweep level).run heap = .ok (freed, mid)) :
    Swept level heap.arena.positions heap mid ∧
      ∀ g, freed.get g = heap.arena.positions.countP (heap.arena.loses level g) := by
  simp only [HeapM.sweep, run_bind, run_get] at hrun
  obtain ⟨_, _, ⟨rfl, rfl⟩, hrun⟩ := hrun
  obtain ⟨hswept, hcount⟩ := segments hs (positions_nodup hs.tidy) hrun
  refine ⟨hswept, ?_⟩
  intro g
  have hzero : (PerGeneration.replicate 0).get g = 0 := by cases g <;> rfl
  rw [hcount g, hzero, Nat.zero_add]
  rfl

theorem get? {d : Cell} (hs : Swept level start.arena.positions start heap)
    (ht : start.arena.Tidy) (hd : heap.arena.get? h = some d) :
    ∃ c, start.arena.get? h = some c ∧ level.frees c = false ∧
      d.unlinked = (level.swept start.tasks h c).unlinked := by
  obtain ⟨hat, hlive⟩ := get?_eq_some.mp hd
  by_cases hmem : h ∈ start.arena.positions
  · have hcell := hs.visited h hmem
    rw [hat, Option.map_some] at hcell
    obtain ⟨c, hc, hcd⟩ := Option.map_eq_some_iff.mp hcell.symm
    rw [← Level.unlinked_swept] at hcd
    have hkept : (level.swept start.tasks h c).isFree = false := by
      rw [← Cell.isFree_unlinked, hcd, Cell.isFree_unlinked, hlive]
    obtain ⟨hfree, hfrees⟩ := Level.swept_live hkept
    exact ⟨c, get?_eq_some.mpr ⟨hc, hfree⟩, hfrees, hcd.symm⟩
  · have hcell := hs.ahead h hmem
    rw [hat, Option.map_some] at hcell
    obtain ⟨c, hc, -⟩ := Option.map_eq_some_iff.mp hcell.symm
    exact absurd ((mem_positions ht).mpr ⟨c, hc⟩) hmem

theorem kept {c : Cell} (hs : Swept level start.arena.positions start heap)
    (ht : start.arena.Tidy) (hc : start.arena.get? h = some c) (hfrees : level.frees c = false) :
    ∃ d, heap.arena.get? h = some d ∧ d.unlinked = (level.swept start.tasks h c).unlinked := by
  obtain ⟨hat, hlive⟩ := get?_eq_some.mp hc
  have hcell := hs.visited h ((mem_positions ht).mpr ⟨c, hat⟩)
  rw [hat, Option.map_some] at hcell
  obtain ⟨d, hd, hdc⟩ := Option.map_eq_some_iff.mp hcell
  rw [← Level.unlinked_swept] at hdc
  refine ⟨d, get?_eq_some.mpr ⟨hd, ?_⟩, hdc⟩
  rw [← Cell.isFree_unlinked, hdc, Cell.isFree_unlinked]
  exact Level.swept_isFree hlive hfrees

end Swept

end ManagedHeap
