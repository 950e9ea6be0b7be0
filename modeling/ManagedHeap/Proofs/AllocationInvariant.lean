import ManagedHeap.Proofs.WriteInvariant

/-!
# Allocation and the weak chain keep the invariant

A fresh object refers to the permanent ones only. What an allocation was asked to keep
alive is alive afterwards, unless finalizers ran: then a full collection followed, and
everything but the fresh object is old.
-/

namespace ManagedHeap

def Heap.Fresh (heap : Heap) (kind : Kind) (h : Handle) : Prop :=
  ∃ c, heap.arena.get? h = some c ∧ c.header = { kind, refcount := c.header.refcount }

def Heap.Holds (heap : Heap) (pins : List Handle) : Prop :=
  ∀ p ∈ pins, p ∈ heap.roots.transient ∧
    ∃ c, heap.arena.get? p = some c ∧ c.flags.cached = true

def Heap.Spared (heap : Heap) (pins : List Handle) (h : Handle) : Prop :=
  ∀ p ∈ pins, ∀ d, heap.arena.get? p = some d →
    p = h ∨ d.header.generation = .old ∨ d.flags.cached = true

def Heap.Aged (heap : Heap) : Prop :=
  ∀ {h c}, heap.arena.get? h = some c → c.header.generation = .old

theorem Collected.old_of_full {records : List Handle} {heap heap' : Heap} {o : Outcome}
    {h : Handle} {d : Cell} (hcol : Collected .full records heap heap' o) (hs : heap.Sound)
    (hd : heap'.arena.get? h = some d) : d.header.generation = .old := by
  obtain ⟨c, hc, -⟩ := hcol.came hd
  rw [(hcol.same hc hd).generation]
  split
  · rfl
  · rename_i hsweeps
    refine (hs.proper hc).settled ?_
    by_contra hperm
    have hlt := Level.lt_of_not_sweeps (Arena.get?_eq_some.mp hc).2 (by simpa using hperm)
      (by simpa using hsweeps)
    have hle := Level.generation_index_le c.header.generation
    exact absurd (Nat.lt_of_lt_of_le hlt hle) (Nat.lt_irrefl 2)

namespace HeapM

open Arena

variable {heap heap' : Heap} {h : Handle} {kind : Kind} {pins : List Handle}

theorem run_claim {n : NodeClass} {payload : Payload} {chunks : Nat} {r : Option Handle}
    (hrun : (claimCell? n kind payload chunks).run heap = .ok (r, heap')) :
    (r = none ∧ heap' = heap) ∨ ∃ h arena, r = some h ∧
      heap.arena.claim? n { kind } payload = some (h, arena) ∧
      heap' = { heap with
        arena
        generations := heap.generations.modify .young fun u =>
          { objects := u.objects + 1, bigChunks := u.bigChunks + chunks }
        strategy := heap.strategy.noteAllocation
        journal := heap.journal.record (.claimed h kind) } := by
  simp only [claimCell?, run_bind, run_onArena] at hrun
  obtain ⟨claimed, mid, ⟨arena, hclaim, rfl⟩, hrun⟩ := hrun
  cases hc : heap.arena.claim? n { kind } payload with
  | none =>
    simp only [hc, Except.ok.injEq, Prod.mk.injEq] at hclaim
    obtain ⟨rfl, rfl⟩ := hclaim
    obtain ⟨rfl, rfl⟩ := run_pure.mp hrun
    exact .inl ⟨rfl, rfl⟩
  | some p =>
    obtain ⟨h, b⟩ := p
    simp only [hc, Except.ok.injEq, Prod.mk.injEq] at hclaim
    obtain ⟨rfl, rfl⟩ := hclaim
    simp only [run_bind, run_modify, run_pure] at hrun
    obtain ⟨_, _, rfl, rfl, rfl⟩ := hrun
    exact .inr ⟨h, _, rfl, rfl, rfl⟩

theorem claimCell?_cases {n : NodeClass} {payload : Payload} {chunks : Nat} {r : Option Handle}
    (hrun : (claimCell? n kind payload chunks).run heap = .ok (r, heap')) :
    (r = none ∧ heap' = heap) ∨ ∃ h arena generations strategy, r = some h ∧
      heap.arena.claim? n { kind } payload = some (h, arena) ∧
      heap' = { heap with
        arena, generations, strategy, journal := heap.journal.record (.claimed h kind) } := by
  rcases run_claim hrun with hnone | ⟨h, arena, rfl, hclaim, rfl⟩
  · exact .inl hnone
  · exact .inr ⟨h, arena, _, _, rfl, hclaim, rfl⟩

theorem freeList_of_claim {n : NodeClass} {payload : Payload} {chunks : Nat}
    (hrun : (claimCell? n kind payload chunks).run heap = .ok (none, heap')) :
    heap'.arena.freeList n = [] := by
  simp only [claimCell?, run_bind, run_onArena] at hrun
  obtain ⟨claimed, mid, ⟨arena, hclaim, rfl⟩, hrun⟩ := hrun
  cases hfree : heap.arena.freeList n with
  | nil =>
    simp only [claim?, hfree, Except.ok.injEq, Prod.mk.injEq] at hclaim
    obtain ⟨rfl, rfl⟩ := hclaim
    obtain ⟨-, rfl⟩ := run_pure.mp hrun
    exact hfree
  | cons h rest =>
    simp only [claim?, hfree, Except.ok.injEq, Prod.mk.injEq] at hclaim
    obtain ⟨rfl, rfl⟩ := hclaim
    simp only [run_bind, run_pure] at hrun
    obtain ⟨_, _, -, hnone, -⟩ := hrun
    cases hnone

theorem run_growth {n : NodeClass} {r : Bool} (hrun : (grow n).run heap = .ok (r, heap')) :
    (r = false ∧ heap' = heap) ∨
      (r = true ∧ ∀ limit, heap.config.maxCells = some limit →
        heap.arena.capacity + heap.arena.segmentCells ≤ limit) ∧
      ∃ i arena event, heap.arena.addSegment? n = some (i, arena) ∧
        heap' = { heap with arena, journal := heap.journal.note event } := by
  simp only [grow, run_bind, run_get] at hrun
  obtain ⟨_, _, ⟨rfl, rfl⟩, hrun⟩ := hrun
  rcases run_ite.mp hrun with ⟨-, hrun⟩ | ⟨hwithin, hrun⟩
  · obtain ⟨rfl, rfl⟩ := run_pure.mp hrun
    exact .inl ⟨rfl, rfl⟩
  · have hroom : ∀ limit, heap.config.maxCells = some limit →
        heap.arena.capacity + heap.arena.segmentCells ≤ limit := by
      intro limit hlimit
      simpa [hlimit] using hwithin
    simp only [run_bind, run_onArena] at hrun
    obtain ⟨added, _, ⟨arena, hadd, rfl⟩, hrun⟩ := hrun
    cases hsegment : heap.arena.addSegment? n with
    | none =>
      simp only [hsegment, Except.ok.injEq, Prod.mk.injEq] at hadd
      obtain ⟨rfl, rfl⟩ := hadd
      obtain ⟨rfl, rfl⟩ := run_pure.mp hrun
      exact .inl ⟨rfl, rfl⟩
    | some p =>
      simp only [hsegment, Except.ok.injEq, Prod.mk.injEq] at hadd
      obtain ⟨rfl, rfl⟩ := hadd
      simp only [note, run_bind, run_modify, run_pure] at hrun
      obtain ⟨_, _, rfl, rfl, rfl⟩ := hrun
      exact .inr ⟨⟨rfl, hroom⟩, p.1, p.2, _, rfl, rfl⟩

theorem grow_cases {n : NodeClass} {r : Bool} (hrun : (grow n).run heap = .ok (r, heap')) :
    heap' = heap ∨ ∃ i arena event, heap.arena.addSegment? n = some (i, arena) ∧
      heap' = { heap with arena, journal := heap.journal.note event } :=
  (run_growth hrun).imp And.right And.right

/-- The big chunks that a request takes. -/
def chunksFor (kind : Kind) (length : Nat) : Nat :=
  if (NodeClass.forRequest kind length).isLarge then vectorChunks kind length else 0

theorem run_take {length : Nat} {reserved : Bool} {r : Except Bool Handle}
    (hrun : (takeOrGrow kind length reserved).run heap = .ok (r, heap')) :
    ((∃ b, r = .error b) ∧ heap' = heap) ∨
      (∀ limit, heap.config.maxVectorChunks = some limit →
        chunksFor kind length = 0 ∨ heap.bigChunksLive + chunksFor kind length ≤ limit) ∧
      ∃ mid, (mid = heap ∨
          ∃ room, (grow (NodeClass.forRequest kind length)).run heap = .ok (room, mid)) ∧
        ∃ payload claimed, Payload.forKind? kind length = some payload ∧
          (claimCell? (NodeClass.forRequest kind length) kind payload (chunksFor kind length)).run
            mid = .ok (claimed, heap') ∧
          ((claimed = none ∧ r = .error false) ∨ ∃ h, claimed = some h ∧ r = .ok h) := by
  simp only [takeOrGrow, run_bind, run_get] at hrun
  obtain ⟨_, _, ⟨rfl, rfl⟩, hrun⟩ := hrun
  change StateT.run (ite _ _ _) _ = _ at hrun
  rcases run_ite.mp hrun with ⟨-, hrun⟩ | ⟨hfits, hrun⟩
  · obtain ⟨rfl, rfl⟩ := run_pure.mp hrun
    exact .inl ⟨⟨_, rfl⟩, rfl⟩
  · have hspare : ∀ limit, heap.config.maxVectorChunks = some limit →
        chunksFor kind length = 0 ∨ heap.bigChunksLive + chunksFor kind length ≤ limit := by
      intro limit hlimit
      simp only [hlimit, Bool.not_eq_true', Bool.not_eq_false, Bool.or_eq_true,
        decide_eq_true_eq] at hfits
      exact hfits
    cases hp : Payload.forKind? kind length with
    | none =>
      rw [hp] at hrun
      obtain ⟨rfl, rfl⟩ := run_pure.mp hrun
      exact .inl ⟨⟨_, rfl⟩, rfl⟩
    | some payload =>
      simp only [hp] at hrun
      -- with room for a cell, or without it
      have hroomed : ∀ {claim : Bool → HeapM (Except Bool Handle)} {full : Bool},
          (if full = true then claim true
            else grow (NodeClass.forRequest kind length) >>= claim).run heap = .ok (r, heap') →
          ∃ room mid, ((mid = heap ∨
            ∃ room, (grow (NodeClass.forRequest kind length)).run heap = .ok (room, mid)) ∧
            (room = false → mid = heap)) ∧ (claim room).run mid = .ok (r, heap') := by
        intro claim full hrun
        rcases run_ite.mp hrun with ⟨-, hrun⟩ | ⟨-, hrun⟩
        · exact ⟨true, heap, ⟨.inl rfl, fun _ => rfl⟩, hrun⟩
        · simp only [run_bind] at hrun
          obtain ⟨room, mid, hgrow, hrun⟩ := hrun
          refine ⟨room, mid, ⟨.inr ⟨room, hgrow⟩, fun hnone => ?_⟩, hrun⟩
          subst hnone
          rcases run_growth hgrow with ⟨-, hsame⟩ | ⟨⟨htrue, -⟩, -⟩
          · exact hsame
          · cases htrue
      obtain ⟨room, mid, hroom, hrun⟩ := hroomed hrun
      rcases run_ite.mp hrun with ⟨hfull, hrun⟩ | ⟨-, hrun⟩
      · obtain ⟨rfl, rfl⟩ := run_pure.mp hrun
        exact .inl ⟨⟨_, rfl⟩, hroom.2 (by simpa using hfull)⟩
      · simp only [run_bind] at hrun
        obtain ⟨claimed, last, hclaim, hrun⟩ := hrun
        refine .inr ⟨hspare, mid, hroom.1, payload, claimed, rfl, ?_⟩
        cases claimed with
        | none =>
          obtain ⟨rfl, rfl⟩ := run_pure.mp hrun
          exact ⟨hclaim, .inl ⟨rfl, rfl⟩⟩
        | some h =>
          obtain ⟨rfl, rfl⟩ := run_pure.mp hrun
          exact ⟨hclaim, .inr ⟨h, rfl, rfl⟩⟩

theorem takeOrGrow_cases {length : Nat} {reserved : Bool} {r : Except Bool Handle}
    (hrun : (takeOrGrow kind length reserved).run heap = .ok (r, heap')) :
    ∃ mid, (mid = heap ∨
        ∃ room, (grow (NodeClass.forRequest kind length)).run heap = .ok (room, mid)) ∧
      (((∃ b, r = .error b) ∧ heap' = mid) ∨
        ∃ payload chunks claimed, Payload.forKind? kind length = some payload ∧
          (claimCell? (NodeClass.forRequest kind length) kind payload chunks).run mid =
            .ok (claimed, heap') ∧
          ((claimed = none ∧ r = .error false) ∨ ∃ h, claimed = some h ∧ r = .ok h)) := by
  rcases run_take hrun with hnone | ⟨-, mid, hgrow, payload, claimed, hp, hclaim⟩
  · exact ⟨heap, .inl rfl, .inl hnone⟩
  · exact ⟨mid, hgrow, .inr ⟨payload, _, claimed, hp, hclaim⟩⟩

theorem capacity_takeOrGrow {length : Nat} {reserved b : Bool}
    (hrun : (takeOrGrow kind length reserved).run heap = .ok (.error b, heap')) :
    heap'.arena.capacity = heap.arena.capacity := by
  rcases run_take hrun with ⟨-, rfl⟩ | ⟨-, mid, hgrow, payload, claimed, -, hclaim, hr⟩
  · rfl
  · have hnone : claimed = none := by
      rcases hr with ⟨hnone, -⟩ | ⟨h, -, hok⟩
      · exact hnone
      · cases hok
    subst hnone
    have hempty := freeList_of_claim hclaim
    obtain rfl : heap' = mid := by
      rcases run_claim hclaim with ⟨-, hsame⟩ | ⟨h, arena, hsome, -⟩
      · exact hsame
      · cases hsome
    rcases hgrow with rfl | ⟨room, hgrow⟩
    · rfl
    · rcases grow_cases hgrow with rfl | ⟨i, arena, event, hsegment, rfl⟩
      · rfl
      · -- without cells for a new segment there is none to speak of
        obtain ⟨-, hsegments, hcells, hfree⟩ := addSegment?_eq_some hsegment
        change arena.freeList _ = [] at hempty
        rw [hfree, if_pos rfl] at hempty
        have hzero : heap.arena.segmentCells = 0 := by
          simpa using (List.append_eq_nil_iff.mp hempty).1
        change arena.capacity = _
        rw [capacity, capacity, hcells, hzero, Nat.mul_zero, Nat.mul_zero]

theorem kind_ne_free (hk : kind.isAllocatable = true) : kind ≠ .free := by
  rintro rfl
  exact nomatch hk

theorem run_fast {length : Nat} (hrun : (allocateFast kind length).run heap = .ok (h, heap')) :
    (h = .noObject ∧ heap' = heap) ∨
      (kind ≠ .free ∧ (NodeClass.forRequest kind length).isLarge = false ∧ ∃ payload claimed,
        Payload.forKind? kind length = some payload ∧
        (claimCell? (NodeClass.forRequest kind length) kind payload 0).run heap =
          .ok (claimed, heap') ∧ h = claimed.getD .noObject) := by
  simp only [allocateFast, run_bind, run_get] at hrun
  obtain ⟨_, _, ⟨rfl, rfl⟩, hrun⟩ := hrun
  rcases run_ite.mp hrun with ⟨-, hrun⟩ | ⟨hready, hrun⟩
  · obtain ⟨rfl, rfl⟩ := run_pure.mp hrun
    exact .inl ⟨rfl, rfl⟩
  · cases hp : Payload.forKind? kind length with
    | none =>
      rw [hp] at hrun
      obtain ⟨rfl, rfl⟩ := run_pure.mp hrun
      exact .inl ⟨rfl, rfl⟩
    | some payload =>
      simp only [Bool.or_eq_true, not_or, Bool.not_eq_true', Bool.not_eq_false] at hready
      simp only [hp, run_bind, run_pure] at hrun
      obtain ⟨claimed, mid, hclaim, rfl, rfl⟩ := hrun
      exact .inr ⟨kind_ne_free hready.1.1.1.2, by simpa using hready.1.2, payload, claimed, rfl,
        hclaim, rfl⟩

theorem run_fast_of_due {length : Nat}
    (hdue : heap.config.torture = true ∨ heap.strategy.countdownExpired = true) :
    (allocateFast kind length).run heap = .ok (.noObject, heap) := by
  simp only [allocateFast, run_bind, run_get]
  refine ⟨_, _, ⟨rfl, rfl⟩, run_ite.mpr (.inl ⟨?_, run_pure.mpr ⟨rfl, rfl⟩⟩)⟩
  rcases hdue with hdue | hdue <;> simp [hdue]

theorem allocateFast_cases {length : Nat}
    (hrun : (allocateFast kind length).run heap = .ok (h, heap')) :
    (h = .noObject ∧ heap' = heap) ∨ (kind ≠ .free ∧ ∃ payload claimed,
      Payload.forKind? kind length = some payload ∧
      (claimCell? (NodeClass.forRequest kind length) kind payload 0).run heap =
        .ok (claimed, heap') ∧ h = claimed.getD .noObject) :=
  (run_fast hrun).imp_right fun hclaim => ⟨hclaim.1, hclaim.2.2⟩

theorem get?_claim {n : NodeClass} {payload : Payload} {arena : Arena} (ht : heap.arena.Tidy)
    (hkind : kind ≠ .free) (hclaim : heap.arena.claim? n { kind } payload = some (h, arena)) :
    heap.arena.get? h = none ∧
      ∀ k, arena.get? k = if k = h then some { header := { kind }, payload } else heap.arena.get? k := by
  obtain ⟨-, -, hcells⟩ := claim?_eq_some hclaim
  obtain ⟨free, hfree, hisFree⟩ := ht.claim_free hclaim
  refine ⟨by simp [get?, hfree, hisFree], fun k => ?_⟩
  split
  · rename_i hk
    subst hk
    rw [get?_eq_some, hcells, if_pos rfl, hfree]
    refine ⟨rfl, ?_⟩
    simpa [Cell.isFree, Header.isFree] using hkind
  · rename_i hk
    simp only [get?, hcells, if_neg hk]

theorem run_claimCell? {n : NodeClass} {payload : Payload} {chunks : Nat} {r : Option Handle}
    (hs : heap.Sound) (hkind : kind ≠ .free) (hsuits : payload.suits kind = true)
    (hchildren : ∀ k ∈ payload.children true, k = .nil ∨ k = .unbound)
    (hname : ∀ {name value internal lastEnv}, payload = .symbol name value internal lastEnv →
      name = .nil)
    (hrun : (claimCell? n kind payload chunks).run heap = .ok (r, heap')) :
    heap'.Sound ∧ heap'.roots = heap.roots ∧
      (∀ {k c}, heap.arena.get? k = some c → heap'.arena.get? k = some c) ∧
      ((r = none ∧ ∀ k, heap'.arena.get? k = heap.arena.get? k) ∨
        ∃ h, r = some h ∧ heap'.Fresh kind h ∧
          ∀ {k c}, heap'.arena.get? k = some c → k = h ∨ heap.arena.get? k = some c) := by
  rcases claimCell?_cases hrun with ⟨rfl, rfl⟩ | ⟨h, arena, generations, strategy, rfl, hclaim, rfl⟩
  · exact ⟨hs, rfl, id, .inl ⟨rfl, fun _ => rfl⟩⟩
  · obtain ⟨hdead, hcells⟩ := get?_claim hs.tidy hkind hclaim
    refine ⟨(hs.claim hkind hsuits hchildren hname hclaim).aside rfl rfl rfl rfl rfl, rfl, ?_,
      .inr ⟨h, rfl, ⟨_, (hcells h).trans (if_pos rfl), rfl⟩, ?_⟩⟩
    · intro k c hk
      have hne : k ≠ h := by
        rintro rfl
        rw [hdead] at hk
        exact nomatch hk
      exact (hcells k).trans ((if_neg hne).trans hk)
    · intro k c hk
      by_cases hne : k = h
      · exact .inl hne
      · exact .inr (((hcells k).trans (if_neg hne)).symm.trans hk)

theorem run_grow {n : NodeClass} {r : Bool} (hs : heap.Sound)
    (hrun : (grow n).run heap = .ok (r, heap')) :
    heap'.Sound ∧ heap'.roots = heap.roots ∧ ∀ k, heap'.arena.get? k = heap.arena.get? k := by
  rcases grow_cases hrun with rfl | ⟨i, arena, event, hsegment, rfl⟩
  · exact ⟨hs, rfl, fun _ => rfl⟩
  · exact ⟨(hs.grow hsegment).aside rfl rfl rfl rfl rfl, rfl, fun _ => get?_addSegment hsegment⟩

theorem run_takeOrGrow {length : Nat} {reserved : Bool} {r : Except Bool Handle}
    (hs : heap.Sound) (hkind : kind ≠ .free)
    (hrun : (takeOrGrow kind length reserved).run heap = .ok (r, heap')) :
    heap'.Sound ∧ heap'.roots = heap.roots ∧
      (∀ {k c}, heap.arena.get? k = some c → heap'.arena.get? k = some c) ∧
      ∀ {h}, r = .ok h → heap'.Fresh kind h ∧
        ∀ {k c}, heap'.arena.get? k = some c → k = h ∨ heap.arena.get? k = some c := by
  obtain ⟨mid, hgrow, hlast⟩ := takeOrGrow_cases hrun
  obtain ⟨hmid, hroots, hsame⟩ : mid.Sound ∧ mid.roots = heap.roots ∧
      ∀ k, mid.arena.get? k = heap.arena.get? k := by
    rcases hgrow with rfl | ⟨room, hgrow⟩
    · exact ⟨hs, rfl, fun _ => rfl⟩
    · exact run_grow hs hgrow
  rcases hlast with ⟨⟨b, rfl⟩, rfl⟩ | ⟨payload, chunks, claimed, hp, hclaim, hr⟩
  · exact ⟨hmid, hroots, fun hk => (hsame _).trans hk, nofun⟩
  · obtain ⟨hlast, hroots', hkept, hcases⟩ := run_claimCell? hmid hkind
      (Payload.suits_forKind? hp) (fun k => Payload.children_forKind? hp)
      (Payload.name_of_forKind? hp) hclaim
    refine ⟨hlast, hroots'.trans hroots, fun hk => hkept ((hsame _).trans hk), ?_⟩
    intro g hg
    rcases hr with ⟨-, rfl⟩ | ⟨h, rfl, rfl⟩
    · exact nomatch hg
    · obtain rfl := Except.ok.inj hg
      rcases hcases with ⟨hnone, -⟩ | ⟨h', hsome, hfresh, honly⟩
      · exact nomatch hnone
      · obtain rfl := Option.some.inj hsome
        exact ⟨hfresh, fun hk => (honly hk).imp_right (hsame _).symm.trans⟩

theorem run_allocateFast {length : Nat} (hs : heap.Sound)
    (hrun : (allocateFast kind length).run heap = .ok (h, heap')) :
    heap'.Sound ∧ heap'.roots = heap.roots ∧
      (∀ {k c}, heap.arena.get? k = some c → heap'.arena.get? k = some c) ∧
      (h = .noObject ∨ (heap'.Fresh kind h ∧
        ∀ {k c}, heap'.arena.get? k = some c → k = h ∨ heap.arena.get? k = some c)) := by
  rcases allocateFast_cases hrun with ⟨rfl, rfl⟩ | ⟨hkind, payload, claimed, hp, hclaim, rfl⟩
  · exact ⟨hs, rfl, id, .inl rfl⟩
  · obtain ⟨hmid, hroots, hkept, hcases⟩ := run_claimCell? hs hkind
      (Payload.suits_forKind? hp) (fun k => Payload.children_forKind? hp)
      (Payload.name_of_forKind? hp) hclaim
    refine ⟨hmid, hroots, hkept, ?_⟩
    rcases hcases with ⟨rfl, -⟩ | ⟨g, rfl, hfresh, honly⟩
    · exact .inl rfl
    · exact .inr ⟨hfresh, honly⟩

theorem Safe.collect {level : Level} {reason : Reason} : Safe (collect level reason) := by
  intro heap o heap' hs hrun
  obtain ⟨records, hcol⟩ := collect_collected hs hrun
  exact hcol.sound hs

theorem collect_holds {level : Level} {reason : Reason} :
    Triple (fun heap => heap.Sound ∧ heap.Holds pins) (collect level reason)
      fun _ heap => heap.Sound ∧ heap.Holds pins := by
  rintro heap o heap' ⟨hs, hholds⟩ hrun
  obtain ⟨records, hcol⟩ := collect_collected hs hrun
  refine ⟨hcol.sound hs, ?_⟩
  intro p hp
  obtain ⟨hmem, c, hc, hcached⟩ := hholds p hp
  have hroots : heap'.roots = heap.roots := by
    obtain ⟨arena, generations, strategy, strings, remembered, counters, journal, rfl⟩ := hcol.rest
    rfl
  have hstart : heap.Start level records p := by
    left
    simp only [Heap.rootList, RootSet.handles, List.mem_append, Array.mem_toList_iff]
    tauto
  obtain ⟨d, hd⟩ := hcol.stayed hc (Collected.keeps_of_start hc hstart)
  refine ⟨hroots ▸ hmem, d, hd, ?_⟩
  rw [Cell.cached_of_lasting (hcol.same hc hd).lasting, hcached]

theorem takeOrGrow_holds {length : Nat} {reserved : Bool} (hkind : kind ≠ .free) :
    Triple (fun heap => heap.Sound ∧ heap.Holds pins) (takeOrGrow kind length reserved)
      fun r heap => (heap.Sound ∧ heap.Holds pins) ∧ ∀ h, r = .ok h → heap.Fresh kind h := by
  rintro heap r heap' ⟨hs, hholds⟩ hrun
  obtain ⟨hs', hroots, hkept, hfresh⟩ := run_takeOrGrow hs hkind hrun
  refine ⟨⟨hs', ?_⟩, fun h hr => (hfresh hr).1⟩
  intro p hp
  obtain ⟨hmem, c, hc, hcached⟩ := hholds p hp
  exact ⟨hroots ▸ hmem, c, hkept hc, hcached⟩

theorem escalate_holds {length : Nat} (hkind : kind ≠ .free) (levels : List Level)
    (reserved : Bool) :
    Triple (fun heap => heap.Sound ∧ heap.Holds pins) (escalate kind length reserved levels)
      fun r heap => (heap.Sound ∧ heap.Holds pins) ∧ ∀ h, r = .ok h → heap.Fresh kind h := by
  induction levels generalizing reserved with
  | nil => exact .pure fun heap hs => ⟨hs, nofun⟩
  | cons level deeper ih =>
    refine .bind collect_holds fun _ => .bind (takeOrGrow_holds hkind) fun r => ?_
    cases r with
    | ok h => exact .pure fun heap hs => hs
    | error reserved => exact (ih reserved).conseq (fun heap hs => hs.1) fun _ _ => id

theorem Safe.takeOrGrow {length : Nat} {reserved : Bool} (hkind : kind ≠ .free) :
    Safe (takeOrGrow kind length reserved) := by
  intro heap r heap' hs hrun
  exact (run_takeOrGrow hs hkind hrun).1

theorem collect_aged {reason : Reason} :
    Triple Heap.Sound (collect .full reason) fun _ heap => heap.Sound ∧ heap.Aged := by
  intro heap o heap' hs hrun
  obtain ⟨records, hcol⟩ := collect_collected hs hrun
  exact ⟨hcol.sound hs, fun hc => hcol.old_of_full hs hc⟩

theorem takeOrGrow_aged {length : Nat} {reserved : Bool} (hkind : kind ≠ .free) :
    Triple (fun heap => heap.Sound ∧ heap.Aged) (takeOrGrow kind length reserved)
      fun r heap => heap.Sound ∧ ∀ h, r = .ok h → heap.Fresh kind h ∧ heap.Spared pins h := by
  rintro heap r heap' ⟨hs, haged⟩ hrun
  obtain ⟨hs', -, -, htaken⟩ := run_takeOrGrow hs hkind hrun
  refine ⟨hs', ?_⟩
  intro h hr
  obtain ⟨hfresh, honly⟩ := htaken hr
  refine ⟨hfresh, ?_⟩
  intro p _ d hd
  rcases honly hd with rfl | hold
  · exact .inl rfl
  · exact .inr (.inl (haged hold))

end HeapM

end ManagedHeap
