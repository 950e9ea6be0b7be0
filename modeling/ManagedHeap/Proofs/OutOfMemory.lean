import ManagedHeap.Proofs.CollectionReports
import ManagedHeap.Proofs.FastPath

/-!
# Memory is short only where it is

An allocation gives up when it has collected fully, once more if finalizers were pending then,
and what it asks for cannot be had from the heap that the last full collection has left: its
elements cannot be stored, its chunks are too many, or no cell is free for it and no segment may
be added.
-/

namespace ManagedHeap

namespace Heap

/-- What is asked for cannot be had. -/
inductive Beyond (heap : Heap) (kind : Kind) (length : Nat) : Prop
  | elements (hnone : Payload.forKind? kind length = none)
  | chunks {limit : Nat} (hlimit : heap.config.maxVectorChunks = some limit)
      (hlarge : (NodeClass.forRequest kind length).isLarge = true)
      (hover : limit < heap.bigChunksLive + vectorChunks kind length)
  | cells (hfull : heap.arena.hasFree (NodeClass.forRequest kind length) = false)
      (hover : (∃ limit, heap.config.maxCells = some limit ∧
        limit < heap.arena.capacity + heap.arena.segmentCells) ∨
        maxSegments < heap.arena.segments.size)

/-- One heap comes from another one by collections alone. -/
inductive Collections : Heap → Heap → Prop
  | refl {heap : Heap} : Collections heap heap
  | head {heap mid heap' : Heap} {level : Level} {reason : Reason} {o : Outcome} :
      (HeapM.collect level reason).run heap = .ok (o, mid) → Collections mid heap' →
      Collections heap heap'

theorem Grounded.cells {heap : Heap} (hg : heap.Grounded) (hs : heap.Sound) :
    0 < heap.arena.segmentCells := by
  obtain ⟨c, hc, -⟩ := hg .nil (by simp)
  have hcell := (Arena.get?_eq_some.mp hc).1
  unfold Arena.cellAt? at hcell
  split at hcell
  · rename_i s hsegment
    rw [← hs.tidy.sized _ s hsegment]
    exact Nat.zero_lt_of_lt (Array.getElem?_eq_some_iff.mp hcell).1
  · cases hcell

theorem Beyond.congr {heap heap' : Heap} {kind : Kind} {length : Nat} (hb : heap.Beyond kind length)
    (hconfig : heap'.config = heap.config) (harena : heap'.arena = heap.arena)
    (hgenerations : heap'.generations = heap.generations) : heap'.Beyond kind length := by
  cases hb with
  | elements hnone => exact .elements hnone
  | chunks hlimit hlarge hover =>
    refine .chunks (hconfig ▸ hlimit) hlarge ?_
    rw [bigChunksLive, hgenerations]
    exact hover
  | cells hfull hover =>
    refine .cells (harena ▸ hfull) ?_
    rw [hconfig, harena]
    exact hover

end Heap

open HeapM

variable {heap heap' : Heap} {kind : Kind} {length : Nat}

namespace HeapM

theorem stays_of_grow {n : NodeClass} (hrun : (grow n).run heap = .ok (false, heap')) :
    heap' = heap ∧ ((∃ limit, heap.config.maxCells = some limit ∧
      limit < heap.arena.capacity + heap.arena.segmentCells) ∨
      maxSegments < heap.arena.segments.size) := by
  simp only [grow, run_bind, run_get] at hrun
  obtain ⟨_, _, ⟨rfl, rfl⟩, hrun⟩ := hrun
  rcases run_ite.mp hrun with ⟨hover, hrun⟩ | ⟨-, hrun⟩
  · obtain ⟨-, rfl⟩ := run_pure.mp hrun
    refine ⟨rfl, .inl ?_⟩
    cases hlimit : heap.config.maxCells with
    | none => simp [hlimit] at hover
    | some limit => exact ⟨limit, rfl, by simpa [hlimit] using hover⟩
  · simp only [run_bind, run_onArena] at hrun
    obtain ⟨added, _, ⟨arena, hadd, rfl⟩, hrun⟩ := hrun
    cases hsegment : heap.arena.addSegment? n with
    | none =>
      simp only [hsegment, Except.ok.injEq, Prod.mk.injEq] at hadd
      obtain ⟨rfl, rfl⟩ := hadd
      obtain ⟨-, rfl⟩ := run_pure.mp hrun
      refine ⟨rfl, .inr ?_⟩
      by_contra hfew
      simp [Arena.addSegment?, hfew] at hsegment
    | some p =>
      simp only [hsegment, Except.ok.injEq, Prod.mk.injEq] at hadd
      obtain ⟨rfl, rfl⟩ := hadd
      simp only [run_bind, run_pure] at hrun
      obtain ⟨-, -, -, hfalse, -⟩ := hrun
      cases hfalse

theorem segmentCells_of_grow {n : NodeClass}
    (hrun : (grow n).run heap = .ok (true, heap')) (hempty : heap'.arena.freeList n = []) :
    heap'.arena.segmentCells = 0 := by
  rcases run_growth hrun with ⟨hfalse, -⟩ | ⟨-, i, arena, event, hsegment, rfl⟩
  · cases hfalse
  · obtain ⟨-, -, hcells, hfree⟩ := Arena.addSegment?_eq_some hsegment
    change arena.freeList n = [] at hempty
    rw [hfree, if_pos rfl] at hempty
    change arena.segmentCells = 0
    rw [hcells]
    simpa using (List.append_eq_nil_iff.mp hempty).1

theorem beyond_of_takeOrGrow {reserved b : Bool}
    (hrun : (takeOrGrow kind length reserved).run heap = .ok (.error b, heap'))
    (hcells : 0 < heap'.arena.segmentCells) : heap' = heap ∧ heap'.Beyond kind length := by
  simp only [takeOrGrow, run_bind, run_get] at hrun
  obtain ⟨_, _, ⟨rfl, rfl⟩, hrun⟩ := hrun
  change StateT.run (ite _ _ _) _ = _ at hrun
  rcases run_ite.mp hrun with ⟨hover, hrun⟩ | ⟨-, hrun⟩
  · obtain ⟨-, rfl⟩ := run_pure.mp hrun
    refine ⟨rfl, ?_⟩
    cases hlimit : heap.config.maxVectorChunks with
    | none => simp [hlimit] at hover
    | some limit =>
      by_cases hlarge : (NodeClass.forRequest kind length).isLarge = true
      · simp [hlimit, hlarge] at hover
        exact .chunks hlimit hlarge hover.2
      · simp [hlimit, hlarge] at hover
  · cases hp : Payload.forKind? kind length with
    | none =>
      rw [hp] at hrun
      obtain ⟨-, rfl⟩ := run_pure.mp hrun
      exact ⟨rfl, .elements hp⟩
    | some payload =>
      simp only [hp] at hrun
      -- a cell that is free, or was added, is claimed
      have hclaims : ∀ {mid}, (claimCell? (NodeClass.forRequest kind length) kind payload
            (chunksFor kind length)).run mid = .ok (none, heap') →
          heap' = mid ∧ heap'.arena.freeList (NodeClass.forRequest kind length) = [] := by
        intro mid hclaim
        refine ⟨?_, freeList_of_claim hclaim⟩
        rcases run_claim hclaim with ⟨-, hsame⟩ | ⟨h, arena, hsome, -⟩
        · exact hsame
        · cases hsome
      rcases run_ite.mp hrun with ⟨hfree, hrun⟩ | ⟨hfull, hrun⟩
      · obtain ⟨_, _, hroom, hrest⟩ := run_bind.mp hrun
        obtain ⟨rfl, rfl⟩ := run_pure.mp hroom
        obtain ⟨claimed, last, hclaim, hend⟩ := run_bind.mp hrest
        cases claimed with
        | some h => cases (run_pure.mp hend).1
        | none =>
          obtain ⟨-, rfl⟩ := run_pure.mp hend
          obtain ⟨rfl, hempty⟩ := hclaims hclaim
          simp [Arena.hasFree, hempty] at hfree
      · obtain ⟨room, mid, hgrow, hrest⟩ := run_bind.mp hrun
        cases room with
        | false =>
          obtain ⟨-, rfl⟩ := run_pure.mp hrest
          obtain ⟨rfl, hover⟩ := stays_of_grow hgrow
          exact ⟨rfl, .cells (by simpa using hfull) hover⟩
        | true =>
          obtain ⟨claimed, last, hclaim, hend⟩ := run_bind.mp hrest
          cases claimed with
          | some h => cases (run_pure.mp hend).1
          | none =>
            obtain ⟨-, rfl⟩ := run_pure.mp hend
            obtain ⟨rfl, hempty⟩ := hclaims hclaim
            rw [segmentCells_of_grow hgrow hempty] at hcells
            exact absurd hcells (Nat.lt_irrefl 0)

theorem segmentCells_of_takeOrGrow {reserved : Bool} {taken : Except Bool Handle}
    (hrun : (takeOrGrow kind length reserved).run heap = .ok (taken, heap')) :
    heap'.arena.segmentCells = heap.arena.segmentCells := by
  obtain ⟨mid, hgrow, hlast⟩ := takeOrGrow_cases hrun
  have hmid : mid.arena.segmentCells = heap.arena.segmentCells := by
    rcases hgrow with rfl | ⟨room, hgrow⟩
    · rfl
    · rcases grow_cases hgrow with rfl | ⟨i, arena, event, hsegment, rfl⟩
      · rfl
      · exact (Arena.addSegment?_eq_some hsegment).2.2.1
  rcases hlast with ⟨-, rfl⟩ | ⟨payload, chunks, claimed, -, hclaim, -⟩
  · exact hmid
  · rcases run_claim hclaim with ⟨-, rfl⟩ | ⟨h, arena, -, hclaimed, rfl⟩
    · exact hmid
    · exact (Arena.segmentCells_of_shape (Arena.claim?_eq_some hclaimed).2.1).trans hmid

theorem segmentCells_of_collect {level : Level} {reason : Reason} {o : Outcome} (hs : heap.Sound)
    (hrun : (collect level reason).run heap = .ok (o, heap')) :
    heap'.arena.segmentCells = heap.arena.segmentCells :=
  Arena.segmentCells_of_shape (collect_shape hs hrun)

theorem beyond_of_collect {level : Level} {reason : Reason} {o : Outcome} {mid : Heap}
    {reserved b : Bool} (hs : heap.Sound) (hcells : 0 < heap.arena.segmentCells)
    (hcollect : (collect level reason).run heap = .ok (o, mid))
    (htake : (takeOrGrow kind length reserved).run mid = .ok (.error b, heap')) :
    heap' = mid ∧ mid.Sound ∧ 0 < mid.arena.segmentCells ∧ mid.Beyond kind length := by
  have hmid : 0 < mid.arena.segmentCells := segmentCells_of_collect hs hcollect ▸ hcells
  obtain ⟨rfl, hbeyond⟩ := beyond_of_takeOrGrow htake (segmentCells_of_takeOrGrow htake ▸ hmid)
  exact ⟨rfl, Safe.collect _ _ _ hs hcollect, hmid, hbeyond⟩

theorem collections_of_escalate {levels : List Level} {reserved b : Bool} (hs : heap.Sound)
    (hcells : 0 < heap.arena.segmentCells)
    (hrun : (escalate kind length reserved (levels ++ [.full])).run heap = .ok (.error b, heap')) :
    ∃ first o, heap.Collections first ∧ (collect .full .exhausted).run first = .ok (o, heap') ∧
      heap'.Sound ∧ heap'.Beyond kind length := by
  induction levels generalizing heap reserved with
  | nil =>
    obtain ⟨o, mid, hcollect, hrest⟩ := run_bind.mp hrun
    obtain ⟨taken, last, htake, hend⟩ := run_bind.mp hrest
    cases taken with
    | ok h => cases (run_pure.mp hend).1
    | error b' =>
      obtain ⟨-, rfl⟩ := run_pure.mp hend
      obtain ⟨rfl, hmid, -, hbeyond⟩ := beyond_of_collect hs hcells hcollect htake
      exact ⟨heap, o, .refl, hcollect, hmid, hbeyond⟩
  | cons level levels ih =>
    obtain ⟨o, mid, hcollect, hrest⟩ := run_bind.mp hrun
    obtain ⟨taken, last, htake, hend⟩ := run_bind.mp hrest
    cases taken with
    | ok h => cases (run_pure.mp hend).1
    | error b' =>
      obtain ⟨rfl, hmid, hroom, -⟩ := beyond_of_collect hs hcells hcollect htake
      obtain ⟨first, o', hfirst, hlast⟩ := ih hmid hroom hend
      exact ⟨first, o', .head hcollect hfirst, hlast⟩

end HeapM

namespace HostM

variable {ω : Type} {host : Host ω} {state state' : ω}

/-- How an allocation comes to an end without an object. From one heap it comes to another by
collections, the last of them a full one. If no finalizers are pending then, that is all;
otherwise they run, and a full collection follows. -/
inductive GivesUp (host : Host ω) (state : ω) (heap : Heap) : ω → Heap → Prop
  | collected {first last : Heap} {o : Outcome} : heap.Collections first →
      (HeapM.collect .full .exhausted).run first = .ok (o, last) →
      pendingFinalizerCount.run last = .ok (0, last) → GivesUp host state heap state last
  | finalized {first mid between last : Heap} {o o' : Outcome} {pending ran : Nat} {state' : ω} :
      heap.Collections first → (HeapM.collect .full .exhausted).run first = .ok (o, mid) →
      pendingFinalizerCount.run mid = .ok (pending, mid) → pending ≠ 0 →
      ((runPendingFinalizers host).run state).run mid = .ok ((ran, state'), between) →
      (HeapM.collect .full .exhausted).run between = .ok (o', last) →
      GivesUp host state heap state' last

theorem run_retry {x : HostM ω (Except Bool Handle)} {e : HeapError}
    {next : Bool → HostM ω (Except HeapError Handle)}
    (hrun : ((do
      match ← x with
      | .ok h => return .ok h
      | .error reserved => next reserved : HostM ω (Except HeapError Handle)).run state).run heap =
        .ok ((.error e, state'), heap')) :
    ∃ reserved mid between, (x.run state).run heap = .ok ((.error reserved, mid), between) ∧
      ((next reserved).run mid).run between = .ok ((.error e, state'), heap') := by
  obtain ⟨taken, mid, between, hfirst, hlast⟩ := run_bindM.mp hrun
  cases taken with
  | ok h =>
    obtain ⟨hend, -⟩ := run_pure.mp hlast
    cases hend
  | error reserved => exact ⟨reserved, mid, between, hfirst, hlast⟩

theorem gives_up_finalizing {first mid : Heap} {o : Outcome} {reserved b : Bool}
    (hfirst : heap.Collections first)
    (hcollect : (HeapM.collect .full .exhausted).run first = .ok (o, mid))
    (hbeyond : mid.Beyond kind length) (hcells : 0 < heap'.arena.segmentCells)
    (hrun : ((finalizeAndRetry host kind length reserved).run state).run mid =
      .ok ((.error b, state'), heap')) :
    GivesUp host state heap state' heap' ∧ heap'.Beyond kind length := by
  obtain ⟨pending, _, counted, hcount, hrest⟩ := run_bindM.mp hrun
  obtain ⟨rfl, hcounted⟩ := run_liftM.mp hcount
  obtain rfl := HeapM.Reads.pendingFinalizerCount _ _ _ hcounted
  split at hrest
  · rename_i hnone
    obtain ⟨hend, rfl⟩ := run_pure.mp hrest
    obtain ⟨-, rfl⟩ := Prod.mk.inj hend
    exact ⟨.collected hfirst hcollect (hnone ▸ hcounted), hbeyond⟩
  · rename_i hsome
    obtain ⟨ran, _, between, hran, hmore⟩ := run_bindM.mp hrest
    obtain ⟨o', _, last, hcollect', htake⟩ := run_bindM.mp hmore
    obtain ⟨rfl, hcollected⟩ := run_liftM.mp hcollect'
    obtain ⟨rfl, htaken⟩ := run_liftM.mp htake
    obtain ⟨rfl, hlast⟩ := HeapM.beyond_of_takeOrGrow htaken hcells
    exact ⟨.finalized hfirst hcollect hcounted hsome hran hcollected, hlast⟩

theorem gives_up_trying {start : Heap} {e : HeapError} (hs : heap.Sound)
    (hcells : 0 < heap.arena.segmentCells) (hcells' : 0 < heap'.arena.segmentCells)
    (hstart : ∀ {last}, heap.Collections last → start.Collections last)
    (hrun : ((do
      match ← (HeapM.takeOrGrow kind length false : HeapM (Except Bool Handle)) with
      | .ok h => return .ok h
      | .error reserved =>
        match ← HeapM.escalate kind length reserved (← getThe Heap).strategy.chooseLevel.upward with
        | .ok h => return .ok h
        | .error reserved =>
          match ← finalizeAndRetry host kind length reserved with
          | .ok h => return .ok h
          | .error reserved =>
            HeapM.note (.allocationFailed kind length reserved)
            return .error (.outOfMemory kind length) : HostM ω (Except HeapError Handle)).run
        state).run heap = .ok ((.error e, state'), heap')) :
    e = .outOfMemory kind length ∧ ∃ last reserved, GivesUp host state start state' last ∧
      last.Beyond kind length ∧
      heap' = { last with journal := last.journal.note (.allocationFailed kind length reserved) } := by
  obtain ⟨_, _, tried, htry, hdeeper⟩ := run_retry hrun
  obtain ⟨rfl, htried⟩ := run_liftM.mp htry
  obtain ⟨rfl, -⟩ := HeapM.beyond_of_takeOrGrow htried
    (HeapM.segmentCells_of_takeOrGrow htried ▸ hcells)
  obtain ⟨_, _, _, hget, hescalation⟩ := run_bindM.mp hdeeper
  obtain ⟨rfl, hgot⟩ := run_liftM.mp hget
  obtain ⟨rfl, rfl⟩ := run_get.mp hgot
  obtain ⟨_, _, searched, hescalate, hresort⟩ := run_retry hescalation
  obtain ⟨rfl, hescalated⟩ := run_liftM.mp hescalate
  obtain ⟨levels, hlevels⟩ := Level.upward_eq tried.strategy.chooseLevel
  rw [hlevels] at hescalated
  obtain ⟨first, o, hfirst, hcollect, -, hbeyond⟩ :=
    HeapM.collections_of_escalate hs hcells hescalated
  obtain ⟨reserved, _, last, hfinalize, hend⟩ := run_retry hresort
  obtain ⟨_, _, noted, hnote, hanswer⟩ := run_bindM.mp hend
  obtain ⟨rfl, hnoted⟩ := run_liftM.mp hnote
  obtain rfl := run_modify.mp hnoted
  obtain ⟨hpair, rfl⟩ := run_pure.mp hanswer
  obtain ⟨herror, rfl⟩ := Prod.mk.inj hpair
  have hroom : 0 < last.arena.segmentCells := hcells'
  obtain ⟨hgives, hlast⟩ := gives_up_finalizing (hstart hfirst) hcollect hbeyond hroom hfinalize
  exact ⟨(Except.error.inj herror).symm, last, reserved, hgives, hlast, rfl⟩

theorem gives_up {e : HeapError} (hs : heap.Sound)
    (hcells : 0 < heap.arena.segmentCells) (hcells' : 0 < heap'.arena.segmentCells)
    (hrun : ((allocateSlow host kind length).run state).run heap =
      .ok ((.error e, state'), heap')) :
    e = .outOfMemory kind length ∧ ∃ last reserved, GivesUp host state heap state' last ∧
      last.Beyond kind length ∧
      heap' = { last with journal := last.journal.note (.allocationFailed kind length reserved) } := by
  unfold allocateSlow at hrun
  obtain ⟨due, _, _, hdue, hrest⟩ := run_bindM.mp hrun
  obtain ⟨rfl, hasked⟩ := run_liftM.mp hdue
  obtain rfl := HeapM.Reads.collectionDue _ _ _ hasked
  cases due with
  | none => exact gives_up_trying hs hcells hcells' id hrest
  | some reason =>
    obtain ⟨_, _, _, hget, hcollection⟩ := run_bindM.mp hrest
    obtain ⟨rfl, hgot⟩ := run_liftM.mp hget
    obtain ⟨rfl, rfl⟩ := run_get.mp hgot
    obtain ⟨o, _, mid, hcollect, htries⟩ := run_bindM.mp hcollection
    obtain ⟨rfl, hcollected⟩ := run_liftM.mp hcollect
    exact gives_up_trying (HeapM.Safe.collect _ _ _ hs hcollected)
      (HeapM.segmentCells_of_collect hs hcollected ▸ hcells) hcells' (.head hcollected) htries

theorem run_allocate_short {roots : List Handle} {asked : Kind} {size : Nat}
    (ht : heap.arena.Tidy) (hrun : ((allocate host kind length roots).run.run state).run heap =
      .ok ((.error (.outOfMemory asked size), state'), heap')) :
    ∃ last, ((allocateSlow host kind length).run state).run
        (heap.keeping (heap.roots.transient ++ roots.toArray)) =
          .ok ((.error (.outOfMemory asked size), state'), last) ∧
      heap' = last.keeping (last.roots.transient.shrink heap.roots.transient.size) := by
  simp only [allocate] at hrun
  split at hrun
  · have hend : Except.ok ((Except.error (HeapError.invalidKind kind), state), heap) = _ := hrun
    cases hend
  split at hrun
  · have hend : Except.ok ((Except.error (HeapError.invalidLength kind length), state), heap) = _ :=
      hrun
    cases hend
  rcases Attempt.run_bind_error hrun with hfirst | ⟨h, between, mid, hfirst, hlast⟩
  · obtain ⟨_, hanswer, -⟩ := Attempt.run_lift.mp hfirst
    cases hanswer
  · obtain ⟨_, hanswer, rfl, hfast⟩ := Attempt.run_lift.mp hfirst
    obtain rfl := Except.ok.inj hanswer
    split at hlast
    · have hend : Except.ok ((Except.ok h, between), mid) = _ := hlast
      cases hend
    · rename_i hnone
      -- the fast path has declined
      have hsame : mid = heap := by
        rcases HeapM.ends_allocateFast ht with
          ⟨-, hdeclined⟩ | ⟨-, _, g, _, -, -, htaken, hobject, -⟩
        · rw [hdeclined, Except.ok.injEq, Prod.mk.injEq] at hfast
          exact hfast.2.symm
        · rw [htaken, Except.ok.injEq, Prod.mk.injEq] at hfast
          refine absurd ?_ hobject
          simpa [Handle.isNoObject, ← hfast.1] using hnone
      subst hsame
      exact run_withTransient hlast

end HostM

namespace Session

open HostM

/-- If an allocation fails for want of memory, it has collected fully and done nothing since, but
for the report of the failure; and what was asked for cannot be had from the heap that it leaves. -/
theorem shortage_genuine {state state' : State} {heap heap' : Heap} {levels : Nat}
    {kind asked : Kind} {length size : Nat} {roots : List Handle} (hr : Reachable state heap)
    (hrun : ((allocate (hostWithin levels) kind length roots).run.run state).run heap =
      .ok ((.error (.outOfMemory asked size), state'), heap')) :
    asked = kind ∧ size = length ∧ heap'.Beyond kind length ∧ ∃ last reserved,
      GivesUp (hostWithin levels) state (heap.keeping (heap.roots.transient ++ roots.toArray))
        state' last ∧
      heap' = { last.keeping (last.roots.transient.shrink heap.roots.transient.size) with
        journal := last.journal.note (.allocationFailed kind length reserved) } := by
  have hobeys : State.Obeys (Command.Permitted .free .free) state := fun _ _ =>
    obey_of_all Command.permitted_free Command.permitted_free _
  obtain ⟨-, hmoves, hsound, -⟩ := goes_allocate (hostWithin_byCacheSteps levels)
    (fun _ => rfl) state heap _ state' heap' hobeys hr.cacheExact.guards hr.sound hrun
  have hcells : 0 < (heap.keeping (heap.roots.transient ++ roots.toArray)).arena.segmentCells :=
    hr.grounded.cells hr.sound
  have hcells' : 0 < heap'.arena.segmentCells :=
    (hmoves.grounded hr.cacheExact hr.grounded).cells hsound
  obtain ⟨stop, hslow, rfl⟩ := run_allocate_short hr.sound.tidy hrun
  have hroom : 0 < stop.arena.segmentCells := hcells'
  obtain ⟨herror, last, reserved, hgives, hbeyond, rfl⟩ :=
    gives_up (hr.sound.keeping _) hcells hroom hslow
  obtain ⟨rfl, rfl⟩ := HeapError.outOfMemory.inj herror
  exact ⟨rfl, rfl, hbeyond.congr rfl rfl rfl, last, reserved, hgives, rfl⟩

/-- A pair whose finalizer is pending once nothing else refers to the pair. -/
def pairToFinalize : List Step :=
  [.command (.request (.nativeFunction 0)) (some "f"),
    .command (.preserve (.register "f")) none,
    .command (.request (.cons (.handle .nil) (.handle .nil))) (some "k"),
    .command (.request (.weakRef (.register "k") (.handle .nil) (.register "f") false)) none]

/-- Memory for one segment has no room for a vector, also after the finalizer. -/
theorem shortage_genuine_oneSegment : ∃ start replies state mid state' heap,
    Heap.build { segmentCells := 8, maxCells := some 8 } Heap.mixHash = .ok start ∧
    ((runSteps Session.host pairToFinalize).run {}).run start = .ok ((replies, state), mid) ∧
    ((allocate Session.host .realVector 1 []).run.run state).run mid =
      .ok ((.error (.outOfMemory .realVector 1), state'), heap) ∧
    heap.finalizers.run = 1 ∧ heap.Beyond .realVector 1 := by
  obtain ⟨⟨_, ⟨replies, state⟩, mid, ⟨r, state'⟩, heap⟩, hall, htest⟩ := except_of_test
    (x := do
      let start ← Heap.build { segmentCells := 8, maxCells := some 8 } Heap.mixHash
      let first ← ((runSteps Session.host pairToFinalize).run {}).run start
      let last ← ((allocate Session.host .realVector 1 []).run.run first.1.2).run first.2
      return (start, first.1, first.2, last))
    (p := fun p : Heap × (List Reply × State) × Heap × (Except HeapError Handle × State) × Heap =>
      (Reply.ofExcept .handle p.2.2.2.1.1).isShortOf .realVector 1 &&
        p.2.2.2.2.finalizers.run == 1) (by decide +kernel)
  simp only [except_bind, pure, Except.pure, Except.ok.injEq, Prod.mk.injEq] at hall
  obtain ⟨start, hbuild, ⟨⟨replies, state⟩, mid⟩, hsteps, _, hlast, rfl, hfirst, rfl, rfl⟩ := hall
  obtain ⟨rfl, rfl⟩ := Prod.mk.inj hfirst
  rw [Bool.and_eq_true, beq_iff_eq] at htest
  obtain ⟨hshort, hran⟩ := htest
  cases r with
  | ok h => cases hshort
  | error e =>
    obtain rfl : e = .outOfMemory .realVector 1 := Reply.error.inj (Reply.eq_of_isShortOf hshort)
    obtain ⟨-, -, hbeyond, -⟩ := shortage_genuine (.runSteps (.new rfl hbuild) hsteps) hlast
    exact ⟨start, replies, state, mid, state', heap, hbuild, hsteps, hlast, hran, hbeyond⟩

end Session

end ManagedHeap
