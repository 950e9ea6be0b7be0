import ManagedHeap.Proofs.Collection

/-!
# The invariant across a collection

From a sound heap a collection keeps, with every object, everything that the object has an
edge to, also where it does not look: below objects that it does not cover, and behind the
names of symbols that it does not follow. So no edge dangles afterwards.
-/

namespace ManagedHeap

namespace Cell

variable {c d : Cell} {name value internal lastEnv : Handle}

theorem name_mem_edges (hp : c.payload = .symbol name value internal lastEnv) :
    name ∈ c.edges true := by
  have hchild : name ∈ c.payload.children true := by
    rw [hp]
    exact List.mem_cons_self
  unfold edges
  split
  · exact hchild
  · exact List.mem_cons_of_mem _ hchild

theorem symbol_of_lasting (he : d.lasting = c.lasting)
    (hp : d.payload = .symbol name value internal lastEnv) :
    ∃ lastEnv', c.payload = .symbol name value internal lastEnv' := by
  have hforget := forgetting_of_lasting he
  rw [hp] at hforget
  cases hc : c.payload <;> simp_all [Payload.forgetting]

end Cell

namespace Level

variable {level : Level} {c : Cell}

theorem covers_of_sweeps (hs : level.sweeps c = true) :
    c.header.generation.index ≤ level.index := by
  simp only [sweeps, covers, Bool.and_eq_true, decide_eq_true_eq] at hs
  exact hs.2

theorem lt_of_not_sweeps (hlive : c.isFree = false) (hperm : c.flags.permanent = false)
    (hs : level.sweeps c = false) : level.index < c.header.generation.index := by
  simp only [sweeps, covers, hlive, hperm, Bool.not_false, Bool.true_and,
    decide_eq_false_iff_not] at hs
  omega

theorem index_promotionTarget (level : Level) :
    level.promotionTarget.index = min (level.index + 1) 2 := by
  cases level <;> rfl

theorem generation_index_le (g : Generation) : g.index ≤ 2 := by
  cases g <;> decide

theorem eq_old_of_index {g : Generation} (hg : 2 ≤ g.index) : g = .old := by
  cases g
  case old => rfl
  all_goals exact absurd hg (by decide)

end Level

namespace Heap

/-- A set of objects that a marking from the usual starting points stays within. -/
structure ClosedUnderMarking (heap : Heap) (level : Level) (records : List Handle) (M : Handle → Prop) :
    Prop where
  start : ∀ {h}, heap.Start level records h → heap.arena.Covered (heap.scan level) h → M h
  follows : (heap.scan level).Follows heap.arena M

def Saves (heap : Heap) (level : Level) (M : Handle → Prop) (h : Handle) (c : Cell) : Prop :=
  level.sweeps c = false ∨ M h ∨ ((heap.scan level).withNames = false ∧ c.IsName)

/-- What a collection has marked once it is settled which keys are alive. -/
def Retains (heap : Heap) (level : Level) (records : List Handle) : Handle → Prop :=
  Retained (heap.scan level) heap.arena (heap.Start level records) records

theorem closedUnderMarking_retains (heap : Heap) (level : Level) (records : List Handle) :
    heap.ClosedUnderMarking level records (heap.Retains level records) :=
  ⟨.seed, Retained.follows⟩

theorem closedUnderMarking_lingers (heap : Heap) (level : Level) (records : List Handle) :
    heap.ClosedUnderMarking level records (heap.Lingers level records) :=
  ⟨fun hstart hcovered => .retained (.seed hstart hcovered),
    fun hl hc hk hcovered => .edge hl hc hk hcovered⟩

end Heap

namespace Heap.ClosedUnderMarking

open Arena

variable {level : Level} {records : List Handle} {heap : Heap} {M : Handle → Prop}
  {h k : Handle} {c d : Cell}

theorem saves_start (hM : heap.ClosedUnderMarking level records M) (hc : heap.arena.get? h = some c)
    (hstart : heap.Start level records h) : heap.Saves level M h c := by
  cases hs : level.sweeps c with
  | false => exact .inl hs
  | true =>
    refine .inr (.inl (hM.start hstart ⟨c, hc, ?_⟩))
    exact (Scan.sweeps_iff (s := heap.scan level) (get?_eq_some.mp hc).2).mp hs

theorem saves_followed (hM : heap.ClosedUnderMarking level records M) (hh : M h)
    (hc : heap.arena.get? h = some c) (hk : k ∈ c.edges (heap.scan level).withNames)
    (hd : heap.arena.get? k = some d) : heap.Saves level M k d := by
  cases hs : level.sweeps d with
  | false => exact .inl hs
  | true =>
    refine .inr (.inl (hM.follows hh hc hk ⟨d, hd, ?_⟩))
    exact (Scan.sweeps_iff (s := heap.scan level) (get?_eq_some.mp hd).2).mp hs

theorem saves_anchored (hs : heap.Sound) (hd : heap.arena.get? k = some d)
    (hanchored : d.Anchored) (hnames : (heap.scan level).withNames = false) :
    heap.Saves level M k d := by
  rcases hanchored with hold | ⟨hcached, hname⟩
  · left
    have hlevel : level.index < heap.config.nameMarkLevel := by
      simpa [Heap.scan] using hnames
    have hmax := hs.names
    simp only [Level.sweeps, Level.covers, hold, Generation.index, Bool.and_eq_false_iff,
      decide_eq_false_iff_not]
    omega
  · exact .inr (.inr ⟨hnames, (hs.proper hd).cached hcached, hcached, hname⟩)

theorem edges_names (withNames : Bool) (hk : k ∈ c.edges true) :
    k ∈ c.edges withNames ∨ withNames = false ∧
      ∃ value internal lastEnv, c.payload = .symbol k value internal lastEnv := by
  cases withNames with
  | true => exact .inl hk
  | false =>
    unfold Cell.edges at hk ⊢
    have hchild : k ∈ c.payload.children true → k ∈ c.payload.children false ∨
        ∃ value internal lastEnv, c.payload = .symbol k value internal lastEnv := by
      intro hk
      cases hp : c.payload with
      | symbol name value internal lastEnv =>
        simp only [hp, Payload.children, if_true, List.mem_cons, List.not_mem_nil, or_false] at hk
        rcases hk with rfl | hk
        · exact .inr ⟨_, _, _, rfl⟩
        · left
          simpa [Payload.children] using hk
      | _ =>
        rw [hp] at hk
        exact .inl hk
    by_cases hcached : c.flags.cached = true
    · rw [if_pos hcached] at hk ⊢
      rcases hchild hk with hk | hk
      · exact .inl hk
      · exact .inr ⟨rfl, hk⟩
    · rw [if_neg hcached] at hk ⊢
      rcases List.mem_cons.mp hk with rfl | hk
      · exact .inl List.mem_cons_self
      · rcases hchild hk with hk | hk
        · exact .inl (List.mem_cons_of_mem _ hk)
        · exact .inr ⟨rfl, hk⟩

theorem saves_edge (hM : heap.ClosedUnderMarking level records M) (hs : heap.Sound)
    (hc : heap.arena.get? h = some c) (hperm : c.flags.permanent = false)
    (hkept : level.sweeps c = false ∨ M h ∨ c.IsName) (hk : k ∈ c.edges true)
    (hd : heap.arena.get? k = some d) : heap.Saves level M k d := by
  rcases edges_names (heap.scan level).withNames hk with
    hfollowed | ⟨hnames, value, internal, lastEnv, hpayload⟩
  · rcases hkept with hout | hmarked | ⟨-, hcached, -⟩
    · cases hsweeps : level.sweeps d with
      | false => exact .inl hsweeps
      | true =>
        -- an old object with an edge to a covered one is remembered
        have hlt : d.header.generation.index < c.header.generation.index := by
          have hle := Level.covers_of_sweeps hsweeps
          have hgt := Level.lt_of_not_sweeps (get?_eq_some.mp hc).2 hperm hout
          omega
        have hflag := hs.barred hc hperm hk hd hlt
        have hmem : h ∈ heap.remembered.toList :=
          Array.mem_toList_iff.mpr (hs.listed.mpr ⟨c, hc, hflag⟩)
        refine hM.saves_start hd (.inr (.inr (.inr ⟨h, hmem, c, hc, ?_, hfollowed⟩)))
        simpa [Level.sweeps, (get?_eq_some.mp hc).2, hperm, Heap.scan] using hout
    · exact hM.saves_followed hmarked hc hfollowed hd
    · rw [(hs.proper hc).edges_of_cached hcached] at hk
      exact absurd hk List.not_mem_nil
  · rcases hs.named hc hperm hpayload with rfl | ⟨n, hn, hanchored⟩
    · rw [hc, Option.some.injEq] at hd
      subst hd
      exact hkept.imp_right (Or.imp_right fun hname => ⟨hnames, hname⟩)
    · rw [hd, Option.some.injEq] at hn
      exact saves_anchored hs hd (hn ▸ hanchored) hnames

end Heap.ClosedUnderMarking

namespace Collected

open Arena

variable {level : Level} {records : List Handle} {heap heap' : Heap} {o : Outcome}
  {h k : Handle} {c d : Cell}

theorem keeps_of_saves (hsaves : heap.Saves level (heap.Lingers level records) h c) :
    heap.Keeps level records h c :=
  hsaves.imp_right (Or.imp_right And.right)

theorem keeps_of_start (hc : heap.arena.get? h = some c) (hstart : heap.Start level records h) :
    heap.Keeps level records h c :=
  keeps_of_saves ((heap.closedUnderMarking_lingers level records).saves_start hc hstart)

theorem keeps_edge (hs : heap.Sound) (hc : heap.arena.get? h = some c)
    (hperm : c.flags.permanent = false) (hkeeps : heap.Keeps level records h c)
    (hk : k ∈ c.edges true) (hd : heap.arena.get? k = some d) : heap.Keeps level records k d :=
  keeps_of_saves ((heap.closedUnderMarking_lingers level records).saves_edge hs hc hperm hkeeps hk hd)

theorem promoted_le {x y : Cell} (hcd : c.Survives level x) (hde : d.Survives level y)
    (hsweeps : level.sweeps c = true) (hlive : d.isFree = false)
    (hsettled : d.flags.permanent = true → d.header.generation = .old) :
    x.header.generation.index ≤ y.header.generation.index := by
  have hx := hcd.generation
  have hy := hde.generation
  rw [hsweeps, if_pos rfl] at hx
  rw [hx]
  cases hd : level.sweeps d with
  | true =>
    rw [hd, if_pos rfl] at hy
    exact Nat.le_of_eq (by rw [hy])
  | false =>
    rw [hd, if_neg Bool.false_ne_true] at hy
    rw [hy, Level.index_promotionTarget]
    cases hperm : d.flags.permanent with
    | true =>
      rw [hsettled hperm]
      exact Nat.min_le_right _ _
    | false =>
      have hlt := Level.lt_of_not_sweeps hlive hperm hd
      omega

theorem index_le {x : Cell} (hsurvives : c.Survives level x) :
    c.header.generation.index ≤ x.header.generation.index := by
  rw [hsurvives.generation]
  split
  · rename_i hsweeps
    have hle := Level.covers_of_sweeps hsweeps
    have htwo := Level.generation_index_le c.header.generation
    rw [Level.index_promotionTarget]
    omega
  · exact Nat.le_refl _

theorem edge_survives (hcol : Collected level records heap heap' o) (hs : heap.Sound)
    {x : Cell} (hx : heap'.arena.get? h = some x) (hperm : x.flags.permanent = false)
    (hk : k ∈ x.edges true) :
    ∃ c d y, heap.arena.get? h = some c ∧ heap.arena.get? k = some d ∧ k ∈ c.edges true ∧
      c.flags.permanent = false ∧ c.Survives level x ∧ heap'.arena.get? k = some y ∧
      d.Survives level y := by
  obtain ⟨c, hc, hkeeps⟩ := hcol.came hx
  have hcx := hcol.same hc hx
  rw [Cell.edges_of_lasting hcx.lasting] at hk
  rw [Cell.permanent_of_lasting hcx.lasting] at hperm
  obtain ⟨d, hd⟩ := hs.closed hc hperm hk
  obtain ⟨y, hy⟩ := hcol.stayed hd (keeps_edge hs hc hperm hkeeps hk hd)
  exact ⟨c, d, y, hc, hd, hk, hperm, hcx, hy, hcol.same hd hy⟩

theorem anchored {x : Cell} (hsurvives : c.Survives level x) (ha : c.Anchored) : x.Anchored := by
  rcases ha with hold | ⟨hcached, hname⟩
  · left
    refine Level.eq_old_of_index ?_
    have hle := index_le hsurvives
    rw [hold] at hle
    exact hle
  · right
    rw [Cell.cached_of_lasting hsurvives.lasting, Cell.symbolName_of_lasting hsurvives.lasting]
    exact ⟨hcached, hname⟩

theorem permanent (hcol : Collected level records heap heap' o)
    (hc : heap.arena.get? h = some c) (hperm : c.flags.permanent = true) :
    ∃ x, heap'.arena.get? h = some x ∧ x.flags.permanent = true := by
  have hsweeps : level.sweeps c = false := by simp [Level.sweeps, hperm]
  obtain ⟨x, hx⟩ := hcol.stayed hc (.inl hsweeps)
  exact ⟨x, hx, (Cell.permanent_of_lasting (hcol.same hc hx).lasting).trans hperm⟩

theorem remembered_of_younger (hcol : Collected level records heap heap' o) (hs : heap.Sound)
    {x y : Cell} (hx : heap'.arena.get? h = some x) (hperm : x.flags.permanent = false)
    (hk : k ∈ x.edges true) (hy : heap'.arena.get? k = some y)
    (hlt : y.header.generation.index < x.header.generation.index) :
    x.flags.remembered = true := by
  obtain ⟨c, d, y', hc, hd, hkc, hpermc, hcx, hy', hdy⟩ := hcol.edge_survives hs hx hperm hk
  rw [hy, Option.some.injEq] at hy'
  subst hy'
  rw [hcol.remembered hc hx]
  constructor
  · cases hsweeps : level.sweeps c with
    | true =>
      have hle := promoted_le hcx hdy hsweeps (get?_eq_some.mp hd).2 (hs.proper hd).settled
      omega
    | false =>
      have hgeneration := hcx.generation
      rw [hsweeps, if_neg Bool.false_ne_true] at hgeneration
      refine hs.barred hc hpermc hkc hd ?_
      have hle := index_le hdy
      rw [hgeneration] at hlt
      omega
  · rw [HeapM.pointsYounger, List.any_eq_true]
    exact ⟨k, hk, by simpa [generationBelow, hy] using hlt⟩

end Collected

theorem PendingObjects.keys_modify (p : PendingObjects) (h : Handle) (f : TaskUse → TaskUse) :
    (p.modify h f).entries.map Prod.fst = p.entries.map Prod.fst := by
  simp only [modify, List.map_map]
  refine List.map_congr_left ?_
  intro e _
  simp only [Function.comp]
  split <;> rfl

theorem Tasks.keys_awaitAll (t : Tasks) (hs : List Handle) :
    (t.awaitAll hs).registry.entries.map Prod.fst = t.registry.entries.map Prod.fst := by
  induction hs generalizing t with
  | nil => rfl
  | cons h hs ih =>
    have hone : ((t.awaitOutput h).awaitInput h).registry.entries.map Prod.fst =
        t.registry.entries.map Prod.fst := by
      obtain ⟨scheduler, registry⟩ := t
      cases scheduler with
      | none => rfl
      | _ => exact (PendingObjects.keys_modify ..).trans (PendingObjects.keys_modify ..)
    exact (ih _).trans hone

theorem Heap.quietTasks_registered {heap : Heap} (level : Level)
    (hr : (heap.tasks.registry.entries.map Prod.fst).Nodup) :
    ((heap.quietTasks level).registry.entries.map Prod.fst).Nodup := by
  have hrelease : (heap.tasks.releaseCached.registry.entries.map Prod.fst).Nodup := by
    cases hscheduler : heap.tasks.scheduler with
    | registry =>
      simp only [Tasks.releaseCached, hscheduler, PendingObjects.releaseCached]
      exact hr.sublist (List.Sublist.map _ List.filter_sublist)
    | _ => simpa only [Tasks.releaseCached, hscheduler] using hr
  unfold quietTasks
  split
  · rw [Tasks.keys_awaitAll]
    exact hrelease
  · exact hrelease

theorem Collected.sound {level : Level} {records : List Handle} {heap heap' : Heap} {o : Outcome}
    (hcol : Collected level records heap heap' o) (hs : heap.Sound) : heap'.Sound := by
  obtain ⟨arena, generations, strategy, strings, remembered, counters, journal, hrest⟩ := hcol.rest
  refine ⟨?_, hcol.tidy, ?_, ?_, ?_, hcol.chained, ?_, ?_, ?_, ?_, ?_, ?_⟩
  · rw [hrest]
    exact hs.names
  · intro h x hx
    obtain ⟨c, hc, -⟩ := hcol.came hx
    have hcx := hcol.same hc hx
    have hp := hs.proper hc
    refine ⟨hcx.unmarked, Cell.suits_of_lasting hcx.lasting hp.suits, ?_, ?_, ?_⟩
    · rw [Cell.cached_of_lasting hcx.lasting, Cell.kind_of_lasting hcx.lasting]
      exact hp.cached
    · rw [Cell.permanent_of_lasting hcx.lasting]
      intro hperm
      have hsweeps : level.sweeps c = false := by simp [Level.sweeps, hperm]
      rw [hcx.generation, hsweeps, if_neg Bool.false_ne_true]
      exact hp.settled hperm
    · rw [Cell.permanent_of_lasting hcx.lasting]
      intro hperm
      rw [Bool.eq_false_iff, ne_eq, hcol.remembered hc hx, hp.unlisted hperm]
      exact fun h => Bool.false_ne_true h.1
  · obtain ⟨c, hc, hperm⟩ := hs.nilLive
    exact hcol.permanent hc hperm
  · obtain ⟨c, hc, hperm⟩ := hs.unboundLive
    exact hcol.permanent hc hperm
  · intro h x k hx hperm hk
    obtain ⟨-, -, y, -, -, -, -, -, hy, -⟩ := hcol.edge_survives hs hx hperm hk
    exact ⟨y, hy⟩
  · intro h x name value internal lastEnv hx hperm hpayload
    obtain ⟨c, d, y, hc, hd, -, hpermc, hcx, hy, hdy⟩ :=
      hcol.edge_survives hs hx hperm (Cell.name_mem_edges hpayload)
    obtain ⟨lastEnv', hpayloadc⟩ := Cell.symbol_of_lasting hcx.lasting hpayload
    refine (hs.named hc hpermc hpayloadc).imp_right ?_
    rintro ⟨n, hn, hanchored⟩
    rw [hd, Option.some.injEq] at hn
    exact ⟨y, hy, anchored hdy (hn ▸ hanchored)⟩
  · rw [hcol.list]
    exact hs.once.sublist List.filter_sublist
  · intro h
    rw [← Array.mem_toList_iff, hcol.list, List.mem_filter, Array.mem_toList_iff, hs.listed]
    constructor
    · rintro ⟨⟨c, hc, hflag⟩, hyoung⟩
      obtain ⟨x, hx, hyoung⟩ := Option.any_eq_true .. |>.mp hyoung
      exact ⟨x, hx, (hcol.remembered hc hx).mpr ⟨hflag, hyoung⟩⟩
    · rintro ⟨x, hx, hflag⟩
      obtain ⟨c, hc, -⟩ := hcol.came hx
      obtain ⟨hold, hyoung⟩ := (hcol.remembered hc hx).mp hflag
      exact ⟨⟨c, hc, hold⟩, by rw [hx]; exact hyoung⟩
  · intro h x k y hx hperm hk hy hlt
    exact hcol.remembered_of_younger hs hx hperm hk hy hlt
  · rw [hrest]
    exact Heap.quietTasks_registered level hs.registered

end ManagedHeap
