import ManagedHeap.Proofs.SessionHistories
import ManagedHeap.Proofs.CallArguments

/-!
# A session keeps to the limits on memory

Whatever a session and its finalizers ask for, its heap keeps to the limits. An allocation that
fails leaves the arena as large as it is, unless a finalizer ran in it: a segment is added only
if the object that asked for it gets one of its cells.
-/

namespace ManagedHeap

namespace HostM

variable {ω : Type} {fuel : Nat} {kind : Kind} {length : Nat} {roots : List Handle}

abbrev Spares {α ε : Type} (act : HostM ω (Except ε α)) : Prop :=
  Quietly act fun heap r heap' => ∀ e, r = .error e → heap'.arena.capacity = heap.arena.capacity

theorem quietly_allocateFast : Quietly (liftM (HeapM.allocateFast kind length) : HostM ω Handle)
    fun heap _ heap' => heap'.arena.capacity = heap.arena.capacity := by
  refine .lift (fun heap h heap' hs hrun => (HeapM.run_allocateFast hs hrun).1) ?_
  intro heap h heap' hs hrun
  rcases HeapM.run_fast hrun with ⟨rfl, rfl⟩ | ⟨-, -, payload, claimed, -, hclaim, rfl⟩
  · exact ⟨rfl, rfl⟩
  · rcases HeapM.run_claim hclaim with ⟨-, rfl⟩ | ⟨g, arena, -, hclaimed, rfl⟩
    · exact ⟨rfl, rfl⟩
    · obtain ⟨-, hshape, -⟩ := Arena.claim?_eq_some hclaimed
      exact ⟨rfl, Arena.capacity_of_shape hshape⟩

theorem spares_allocateSlow (hkind : kind ≠ .free) :
    Spares (withTransient roots (allocateSlow (.mute fuel : Host ω) kind length)) := by
  refine (Quietly.withTransient (Quietly.allocateSlow hkind)).conseq ?_
  rintro heap r heap' - ⟨mid, -, htries, rfl⟩ e rfl
  have hkeepsPinned : Heap.KeepsPinned
      { heap with roots := { heap.roots with transient := heap.roots.transient ++ roots.toArray } }
      mid := htries
  exact hkeepsPinned.capacity

theorem spares_allocate : Spares (allocate (.mute fuel : Host ω) kind length roots).run := by
  have hthrow : ∀ {e : HeapError}, Spares (pure (.error e) : HostM ω (Except HeapError Handle)) :=
    Quietly.pure.conseq fun heap r heap' _ hsame _ _ => hsame.2 ▸ rfl
  unfold allocate
  dsimp only
  split
  · exact hthrow
  · rename_i hallocatable
    replace hallocatable : kind ≠ .free := HeapM.kind_ne_free (by simpa using hallocatable)
    split
    · exact hthrow
    · rw [ExceptT.run_bind]
      change Spares ((Functor.map Except.ok (liftM (HeapM.allocateFast kind length))) >>= _)
      rw [← bind_pure_comp, bind_assoc]
      refine (Quietly.bind quietly_allocateFast fun h => (?_ : Spares _)).conseq ?_
      · rw [pure_bind]
        dsimp only
        split
        · exact Quietly.pure.conseq fun heap r heap' _ hsame _ _ => hsame.2 ▸ rfl
        · exact spares_allocateSlow hallocatable
      · rintro heap r heap' - ⟨h, mid, -, hfast, hslow⟩ e he
        exact (hslow e he).trans hfast

end HostM

namespace Session

/-- Every heap of a session has a history, in which it never had more cells or more big chunks
than its configuration allows, and an allocation that fails for want of memory, with no
finalizer run, leaves it with the cells it had. -/
theorem memory_within_limits {state : State} {heap : Heap} (hr : Reachable state heap) :
    heap.Contained ∧
    (∀ limit, heap.config.maxCells = some limit → heap.arena.capacity ≤ limit) ∧
    (∀ limit, heap.config.maxVectorChunks = some limit → heap.bigChunksLive ≤ limit) ∧
    ∀ (ω : Type) (fuel : Nat) (kind kind' : Kind) (length length' : Nat) (roots : List Handle)
      (s s' : ω) (heap' : Heap),
      ((HostM.allocate (.mute fuel) kind length roots).run.run s).run heap =
        .ok ((.error (.outOfMemory kind' length'), s'), heap') →
      heap'.finalizers.run = heap.finalizers.run → heap'.arena.capacity = heap.arena.capacity := by
  obtain ⟨hsound, -, hcontained, -⟩ := hr.soundWithHistory
  refine ⟨hcontained, hcontained.bounded.cells, hcontained.bounded.chunks, ?_⟩
  intro ω fuel kind kind' length length' roots s s' heap' hrun hquiet
  exact (HostM.spares_allocate _ _ _ _ _ hsound hrun).2.2 hquiet _ rfl

/-- Steps of a session on a new heap, and an allocation in the end that no foreign code answers. -/
def rationed (config : Config) (steps : List Step) (kind : Kind) (length : Nat) :
    Except Fault (Heap × Except HeapError Handle × Heap) := do
  let heap ← opened config steps
  let ((r, _), heap') ←
    ((HostM.allocate (.mute loopBound : Host Unit) kind length []).run.run ()).run heap
  return (heap, r, heap')

theorem rationed_eq_ok {config : Config} {steps : List Step} {kind : Kind} {length : Nat}
    {heap heap' : Heap} {r : Except HeapError Handle}
    (hc : rationed config steps kind length = .ok (heap, r, heap')) :
    opened config steps = .ok heap ∧
      ((HostM.allocate (.mute loopBound : Host Unit) kind length []).run.run ()).run heap =
        .ok ((r, ()), heap') := by
  simp only [rationed, except_bind] at hc
  obtain ⟨start, ho, ⟨⟨q, u⟩, last⟩, hrun, hend⟩ := hc
  injection hend with hend
  injection hend with hheap hend
  injection hend with hr hlast
  subst hheap hr hlast
  exact ⟨ho, hrun⟩

/-- A large vector that is kept, and one that is not. -/
def largeVectors : List Step :=
  [.command (.request (.allocate .realVector 40 [])) (some "v"),
    .command (.preserve (.register "v")) none,
    .command (.request (.allocate .realVector 40 [])) none]

/-- Both limits are reached, and a vector that is a chunk too long is not to be had even after
the garbage is gone. -/
theorem memory_within_largeVectors : ∃ heap heap',
    rationed { segmentCells := 4, maxCells := some 8, maxVectorChunks := some 80 } largeVectors
      .realVector 41 = .ok (heap, .error (.outOfMemory .realVector 41), heap') ∧
    heap'.finalizers.run = heap.finalizers.run ∧ heap.arena.capacity = 8 ∧
    heap.bigChunksLive = 80 ∧ heap'.bigChunksLive = 40 ∧
    heap.Contained ∧ heap.arena.capacity ≤ 8 ∧ heap.bigChunksLive ≤ 80 ∧
    heap'.arena.capacity = heap.arena.capacity := by
  obtain ⟨⟨heap, r, heap'⟩, hrationed, htest⟩ := except_of_test
    (x := rationed { segmentCells := 4, maxCells := some 8, maxVectorChunks := some 80 } largeVectors
      .realVector 41)
    (p := fun p : Heap × Except HeapError Handle × Heap =>
      (Reply.ofExcept .handle p.2.1).isShortOf .realVector 41 &&
      decide (p.1.config.maxCells = some 8 ∧ p.1.config.maxVectorChunks = some 80 ∧
        p.2.2.finalizers.run = p.1.finalizers.run ∧ p.1.arena.capacity = 8 ∧
        p.1.bigChunksLive = 80 ∧ p.2.2.bigChunksLive = 40))
    (by decide +kernel)
  rw [Bool.and_eq_true, decide_eq_true_eq] at htest
  obtain ⟨hanswer, hcells, hchunks, hquiet, hcapacity, hbefore, hafter⟩ := htest
  replace hanswer := Reply.eq_of_isShortOf hanswer
  obtain rfl : r = .error (.outOfMemory .realVector 41) := by
    cases r with
    | ok h => cases hanswer
    | error e => exact congrArg Except.error (Reply.error.inj hanswer)
  obtain ⟨ho, hrun⟩ := rationed_eq_ok hrationed
  obtain ⟨state, hreach⟩ := reachable_of_opened rfl ho
  obtain ⟨hcontained, hfew, hsmall, hspares⟩ := memory_within_limits hreach
  exact ⟨heap, heap', hrationed, hquiet, hcapacity, hbefore, hafter, hcontained,
    hfew _ hcells, hsmall _ hchunks, hspares _ _ _ _ _ _ _ _ _ _ hrun hquiet⟩

end Session

end ManagedHeap
