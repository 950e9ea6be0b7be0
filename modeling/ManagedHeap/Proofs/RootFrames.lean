import ManagedHeap.Heap.Duplicate
import ManagedHeap.Heap.Symbols
import ManagedHeap.Proofs.ReadOnly

/-!
# What operations on the objects leave alone

Every operation on the objects, and every collection, leaves the stacks and lists of roots, and
whether finalizers are running. The tasks change only when a collection settles them, or when a
copy waits for one. This needs no invariant: the operations do not write to them.
-/

namespace ManagedHeap

/-- The stacks and lists of roots, and whether finalizers are running. -/
structure Footing where
  protect : ProtectStack
  roots : RootSet
  running : Bool

def Heap.footing (heap : Heap) : Footing :=
  { protect := heap.protect, roots := heap.roots, running := heap.finalizers.running }

/-- The tasks, and how many were waited for. -/
structure Schedule where
  tasks : Tasks
  waits : Nat

def Heap.schedule (heap : Heap) : Schedule :=
  { tasks := heap.tasks, waits := heap.counters.taskWaits }

def Heap.stance (heap : Heap) : Footing × Schedule := (heap.footing, heap.schedule)

namespace HeapM

variable {α β γ : Type} {x act : HeapM α} {f : α → HeapM β} {h value : Handle}

theorem run_onProtect {f : ProtectStack → Except Fault (α × ProtectStack)} {heap heap' : Heap}
    {a : α} (hrun : (onProtect f).run heap = .ok (a, heap')) :
    ∃ protect, f heap.protect = .ok (a, protect) ∧ heap' = { heap with protect } := by
  simp only [onProtect, StateT.run] at hrun
  split at hrun
  · rename_i b protect hf
    obtain ⟨rfl, rfl⟩ := Prod.mk.inj (Except.ok.inj hrun)
    exact ⟨protect, hf, rfl⟩
  · cases hrun

def Leaves (view : Heap → γ) (act : HeapM α) : Prop :=
  ∀ heap a heap', act.run heap = .ok (a, heap') → view heap' = view heap

namespace Leaves

variable {view : Heap → γ}

theorem bind (hx : Leaves view x) (hf : ∀ a, Leaves view (f a)) : Leaves view (x >>= f) := by
  intro heap b heap' hrun
  obtain ⟨a, mid, hfirst, hrest⟩ := run_bind.mp hrun
  exact (hf a mid b heap' hrest).trans (hx heap a mid hfirst)

theorem of_reads (hx : Reads x) : Leaves view x := by
  intro heap a heap' hrun
  rw [hx heap a heap' hrun]

theorem pure {a : α} : Leaves view (pure a : HeapM α) := of_reads .pure

theorem throw {e : Fault} : Leaves view (throw e : HeapM α) := of_reads .throw

theorem get : Leaves view get := of_reads .get

theorem throw_bind {e : Fault} : Leaves view ((MonadExcept.throw e : HeapM α) >>= f) := by
  intro heap b heap' hrun
  obtain ⟨_, _, hthrow, -⟩ := run_bind.mp hrun
  exact (run_throw.mp hthrow).elim

theorem ite {p : Prop} [Decidable p] {y : HeapM α} (hx : Leaves view x) (hy : Leaves view y) :
    Leaves view (if p then x else y) := by
  split
  · exact hx
  · exact hy

theorem modify {g : Heap → Heap} (hg : ∀ heap, view (g heap) = view heap) :
    Leaves view (modify g) := by
  intro heap u heap' hrun
  rw [← run_modify.mp hrun, hg]

end Leaves

abbrev LeavesRoots (act : HeapM α) : Prop := Leaves Heap.footing act

abbrev LeavesTasks (act : HeapM α) : Prop := Leaves Heap.schedule act

abbrev LeavesRootsAndTasks (act : HeapM α) : Prop := Leaves Heap.stance act

namespace Leaves

theorem leavesRoots (hx : LeavesRootsAndTasks act) : LeavesRoots act :=
  fun heap a heap' hrun => (Prod.mk.inj (hx heap a heap' hrun)).1

theorem leavesTasks (hx : LeavesRootsAndTasks act) : LeavesTasks act :=
  fun heap a heap' hrun => (Prod.mk.inj (hx heap a heap' hrun)).2

theorem note {e : Event} : LeavesRootsAndTasks (note e) := modify fun _ => rfl

theorem noteCall {record function key : Handle} : LeavesRootsAndTasks (noteCall record function key) :=
  modify fun _ => rfl

theorem countRun : LeavesRootsAndTasks countRun := modify fun _ => rfl

theorem modifyStrings {g : StringCache → StringCache} : LeavesRootsAndTasks (modifyStrings g) :=
  modify fun _ => rfl

theorem onArena {g : Arena → Except Fault (α × Arena)} : LeavesRootsAndTasks (onArena g) := by
  intro heap a heap' hrun
  obtain ⟨arena, -, rfl⟩ := run_onArena.mp hrun
  rfl

theorem updateCell {g : Cell → Cell} : LeavesRootsAndTasks (updateCell h g) := onArena

theorem noteWrite : LeavesRootsAndTasks (noteWrite h) := by
  refine bind updateCell fun _ => bind (of_reads .cell) fun c => ?_
  dsimp only
  split
  · exact bind updateCell fun _ => modify fun _ => rfl
  · exact pure

theorem incrementRefCount : LeavesRootsAndTasks (incrementRefCount h) := updateCell

theorem decrementRefCount : LeavesRootsAndTasks (decrementRefCount h) := updateCell

theorem countReferences (hs : List Handle) : LeavesRootsAndTasks (HostM.countReferences hs) := by
  induction hs with
  | nil => exact pure
  | cons h hs ih => exact bind incrementRefCount fun _ => ih

theorem replaceReference {old : Handle} : LeavesRootsAndTasks (replaceReference old value) := by
  unfold HeapM.replaceReference
  split
  · exact pure
  · refine bind incrementRefCount fun _ => bind (of_reads .isLive) fun live => ?_
    split
    · exact decrementRefCount
    · exact pure

theorem exchange {expected : Shape} {k : Payload → Option (α × Payload)} :
    LeavesRootsAndTasks (exchange h expected k) := by
  refine bind noteWrite fun _ => bind (of_reads .payload) fun p => ?_
  split
  · exact bind updateCell fun _ => pure
  · exact of_reads .wrongKind

theorem setCar : LeavesRootsAndTasks (setCar h value) := bind exchange fun _ => replaceReference

theorem setCdr : LeavesRootsAndTasks (setCdr h value) := bind exchange fun _ => replaceReference

theorem setTag : LeavesRootsAndTasks (setTag h value) := bind exchange fun _ => replaceReference

theorem setFrame : LeavesRootsAndTasks (setFrame h value) := bind exchange fun _ => replaceReference

theorem setVectorElt {i : Nat} : LeavesRootsAndTasks (setVectorElt h i value) := by
  refine bind noteWrite fun _ => bind (of_reads .vectorElt) fun read => ?_
  cases read with
  | error e => exact pure
  | ok old => exact bind updateCell fun _ => bind replaceReference fun _ => pure

theorem setAttrib : LeavesRootsAndTasks (setAttrib h value) := by
  refine bind (of_reads .flags) fun fs => ?_
  split
  · exact throw_bind
  · exact bind noteWrite fun _ => bind (of_reads .cell) fun c => bind updateCell fun _ =>
      replaceReference

/-! ## Weak records and strings -/

theorem linkWeakRef {record key finalizer : Handle} {onExit : Bool} :
    LeavesRootsAndTasks (linkWeakRef record key value finalizer onExit) := by
  refine bind get fun heap => bind updateCell fun _ => ?_
  split
  · exact bind updateCell fun _ => modify fun _ => rfl
  · exact modify fun _ => rfl

theorem unlinkWeakRef {record hint : Handle} : LeavesRootsAndTasks (unlinkWeakRef record hint) := by
  refine bind (of_reads .chainFields) fun fields => bind (of_reads .predecessor) fun previous =>
    bind (of_reads .flags) fun fs => ?_
  dsimp only
  split
  · exact bind (modify fun _ => rfl) fun _ => bind updateCell fun _ => modify fun _ => rfl
  · exact bind updateCell fun _ => bind updateCell fun _ => modify fun _ => rfl

theorem cachedHash : LeavesRootsAndTasks (cachedHash h) := by
  refine bind (of_reads .payload) fun p => ?_
  split
  · exact pure
  · exact of_reads .wrongKind

theorem linkString {hash : UInt32} : LeavesRootsAndTasks (linkString h hash) :=
  bind get fun _ => bind updateCell fun _ => modifyStrings

theorem relinkChain (fuel : Nat) (cursor : Handle) : LeavesRootsAndTasks (relinkChain cursor fuel) := by
  induction fuel generalizing cursor with
  | zero => exact throw
  | succ fuel ih =>
    unfold HeapM.relinkChain
    split
    · exact pure
    · exact bind (of_reads .cell) fun c => bind cachedHash fun hash =>
        bind linkString fun _ => ih _

theorem relinkChains (fuel : Nat) (heads : List Handle) : LeavesRootsAndTasks (relinkChains fuel heads) := by
  induction heads with
  | nil => exact pure
  | cons head heads ih => exact bind (relinkChain fuel head) fun _ => ih

theorem growStrings : LeavesRootsAndTasks growStrings :=
  bind get fun _ => bind modifyStrings fun _ => bind (of_reads .walkBound) fun _ =>
    bind (relinkChains _ _) fun _ => note

theorem cacheString {bytes : Bytes} {encoding : Encoding} {hash : UInt32} {ascii : Bool} :
    LeavesRootsAndTasks (cacheString h bytes encoding hash ascii) := by
  refine bind updateCell fun _ => bind get fun heap => ?_
  have hrest : LeavesRootsAndTasks (do
      HeapM.linkString h hash
      HeapM.modifyStrings fun strings => { strings with entries := strings.entries + 1 }) :=
    bind linkString fun _ => modifyStrings
  split
  · exact bind growStrings fun _ => hrest
  · exact hrest

theorem unlinkString {next : Handle} (fuel : Nat) (cursor : Handle) :
    LeavesRootsAndTasks (unlinkString h next cursor fuel) := by
  induction fuel generalizing cursor with
  | zero => exact throw
  | succ fuel ih =>
    unfold HeapM.unlinkString
    split
    · exact throw_bind
    · refine bind (of_reads .cell) fun c => ?_
      dsimp only
      split
      · exact updateCell
      · exact ih _

theorem evictString {fs : Flags} : LeavesRootsAndTasks (evictString h fs) := by
  unfold HeapM.evictString
  split
  · exact pure
  · refine bind cachedHash fun hash => bind get fun heap =>
      bind (of_reads .cell) fun c => ?_
    dsimp only
    split
    · exact bind modifyStrings fun _ => bind modifyStrings fun _ => pure
    · exact bind (of_reads .walkBound) fun _ => bind (unlinkString _ _) fun _ =>
        bind modifyStrings fun _ => pure

theorem nameSymbol {name : Handle} : LeavesRootsAndTasks (nameSymbol h name) := bind updateCell fun _ => updateCell

/-! ## Collections -/

theorem setPhase {phase : Phase} : LeavesRootsAndTasks (setPhase phase) := modify fun _ => rfl

theorem clearLookupCaches (hs : List Handle) : LeavesRootsAndTasks (clearLookupCaches hs) := by
  induction hs with
  | nil => exact pure
  | cons h hs ih => exact bind updateCell fun _ => ih

theorem markAll {level : Level} : LeavesRootsAndTasks (markAll level) :=
  bind get fun _ => bind (clearLookupCaches _) fun _ =>
    bind (of_reads (.bind .get fun _ => .pure)) fun _ => onArena

theorem reclaim {kind : Kind} {generation : Generation} {chunks : Nat} :
    LeavesRootsAndTasks (reclaim h kind generation chunks) :=
  bind (modify fun _ => rfl) fun _ => bind onArena fun _ => modify fun _ => rfl

theorem promote {source target : Generation} {chunks : Nat} :
    LeavesRootsAndTasks (promote h source target chunks) :=
  bind get fun _ => bind updateCell fun _ => modify fun _ => rfl

theorem mayRelease {c : Cell} : LeavesRootsAndTasks (mayRelease h c) := by
  unfold HeapM.mayRelease
  split
  · exact evictString
  · exact pure

theorem sweepCell {level : Level} {large : Bool} : LeavesRootsAndTasks (sweepCell level large h) := by
  refine bind get fun heap => ?_
  split
  · exact pure
  · rename_i c hc
    dsimp only
    split
    · exact pure
    · have hrest : ∀ released, LeavesRootsAndTasks (if released = true then do
            HeapM.reclaim h c.header.kind c.header.generation (bigChunksOf large c)
            Pure.pure (some c.header.generation)
          else do
            HeapM.promote h c.header.generation level.promotionTarget (bigChunksOf large c)
            Pure.pure none) := by
        intro released
        split
        · exact bind reclaim fun _ => pure
        · exact bind promote fun _ => pure
      split
      · exact bind pure hrest
      · exact bind mayRelease hrest

theorem sweepOffsets {level : Level} {large : Bool} {segment : Nat} (offsets : List Nat)
    (freed : PerGeneration Nat) : LeavesRootsAndTasks (sweepOffsets level large segment offsets freed) := by
  induction offsets generalizing freed with
  | nil => exact pure
  | cons offset offsets ih =>
    refine bind sweepCell fun lost => ?_
    cases lost <;> exact ih _

theorem sweepSegments {level : Level} (is : List Nat) (freed : PerGeneration Nat) :
    LeavesRootsAndTasks (sweepSegments level is freed) := by
  induction is generalizing freed with
  | nil => exact pure
  | cons i is ih =>
    refine bind get fun heap => ?_
    split
    · exact ih freed
    · exact bind (sweepOffsets _ _) fun freed => ih freed

theorem pruneRemembered (hs : List Handle) : LeavesRootsAndTasks (pruneRemembered hs) := by
  induction hs with
  | nil => exact pure
  | cons h hs ih =>
    refine bind get fun heap => ?_
    split
    · exact ih
    · split
      · exact bind ih fun _ => pure
      · exact bind updateCell fun _ => ih

/-! ## Allocation -/

variable {kind : Kind} {length : Nat}

theorem claimCell? {n : NodeClass} {payload : Payload} {chunks : Nat} :
    LeavesRootsAndTasks (claimCell? n kind payload chunks) := by
  refine bind onArena fun claimed => ?_
  split
  · exact bind (modify fun _ => rfl) fun _ => pure
  · exact pure

theorem allocateFast : LeavesRootsAndTasks (allocateFast kind length) := by
  refine bind get fun heap => ?_
  dsimp only
  split
  · exact pure
  · split
    · exact pure
    · exact bind claimCell? fun _ => pure

theorem grow {n : NodeClass} : LeavesRootsAndTasks (grow n) := by
  refine bind get fun heap => ite pure <| bind onArena fun added => ?_
  cases added with
  | none => exact pure
  | some i => exact bind note fun _ => pure

theorem takeOrGrow {reserved : Bool} : LeavesRootsAndTasks (takeOrGrow kind length reserved) := by
  refine bind get fun heap => ite pure ?_
  cases Payload.forKind? kind length with
  | none => exact pure
  | some payload =>
    refine ite (bind pure fun room => ?_) (bind grow fun room => ?_)
    all_goals
      refine ite pure <| bind claimCell? fun claimed => ?_
      cases claimed <;> exact pure

/-! ## The protection stack -/

theorem onProtect {g : ProtectStack → Except Fault (α × ProtectStack)} : LeavesTasks (onProtect g) := by
  intro heap a heap' hrun
  obtain ⟨protect, -, rfl⟩ := run_onProtect hrun
  rfl

theorem pushRoot : LeavesTasks (pushRoot h) := by
  refine bind onProtect fun pushed => ?_
  split
  · exact bind (leavesTasks note) fun _ => pure
  · exact pure

theorem reprotect {i : Nat} : LeavesTasks (reprotect h i) := onProtect

theorem closeScope {base : Nat} : LeavesTasks (closeScope base) := by
  refine bind (of_reads .protectDepth) fun depth => ?_
  split
  · exact throw_bind
  · exact modify fun _ => rfl

/-! ## Waiting for tasks -/

theorem awaitOutput : LeavesRoots (awaitOutput h) := by
  refine bind get fun heap => ?_
  split
  · exact modify fun _ => rfl
  · exact pure

theorem awaitLarge (hs : List Handle) : LeavesRoots (awaitLarge hs) := by
  induction hs with
  | nil => exact pure
  | cons h hs ih =>
    refine bind get fun heap => ?_
    dsimp only
    split
    · refine bind (of_reads .lift) fun c => ?_
      split
      · exact bind (modify fun _ => rfl) fun _ => ih
      · exact ih
    · exact ih

theorem quiesce {level : Level} : LeavesRoots (quiesce level) := by
  refine bind (modify fun _ => rfl) fun _ => ?_
  split
  · exact bind get fun _ => awaitLarge _
  · exact pure

end Leaves

theorem settles_collect {level : Level} {reason : Reason} {heap heap' : Heap} {o : Outcome}
    (hrun : (collect level reason).run heap = .ok (o, heap')) : ∃ first last u,
      first.stance = heap.stance ∧ (quiesce level).run first = .ok (u, last) ∧
      heap'.stance = last.stance := by
  obtain ⟨_, _, hget, hstart⟩ := run_bind.mp hrun
  obtain ⟨rfl, rfl⟩ := run_get.mp hget
  split at hstart
  · obtain ⟨_, _, hthrow, -⟩ := run_bind.mp hstart
    exact (run_throw.mp hthrow).elim
  obtain ⟨_, _, hopen, hcount⟩ := run_bind.mp hstart
  obtain ⟨_, opened, hcounted, hphase⟩ := run_bind.mp hcount
  obtain ⟨_, first, hset, hquiesce⟩ := run_bind.mp hphase
  obtain ⟨u, last, hquiet, hend⟩ := run_bind.mp hquiesce
  have hrest := fun hleavesRootsAndTasks : LeavesRootsAndTasks _ => hleavesRootsAndTasks _ _ _ hend
  refine ⟨first, last, u, ?_, hquiet, hrest ?_⟩
  · obtain ⟨-, rfl⟩ := run_get.mp hcounted
    exact (Leaves.setPhase _ _ _ hset).trans (run_modify.mp hopen ▸ rfl)
  · refine .bind .setPhase fun _ => .bind .markAll fun _ => .bind .setPhase fun _ =>
      .bind (.bind .get fun _ => .sweepSegments _ _) fun _ => .bind .get fun _ =>
      .bind (.pruneRemembered _) fun _ => .bind (.modify fun _ => rfl) fun _ => .bind .setPhase fun _ =>
      .bind (.modify fun _ => rfl) fun _ => .bind .note fun _ => .bind .get fun _ => ?_
    split
    · exact .bind (.of_reads .stats) fun _ => .bind .get fun _ => .bind .note fun _ =>
        .bind (.modify fun _ => rfl) fun _ => .pure
    · exact .bind (.modify fun _ => rfl) fun _ => .pure

namespace Leaves

theorem collect {level : Level} {reason : Reason} : LeavesRoots (collect level reason) := by
  intro heap o heap' hrun
  obtain ⟨first, last, u, hopen, hquiet, hclose⟩ := settles_collect hrun
  rw [(Prod.mk.inj hclose).1, quiesce _ _ _ hquiet, (Prod.mk.inj hopen).1]

theorem escalate {kind : Kind} {length : Nat} {reserved : Bool} (levels : List Level) :
    LeavesRoots (escalate kind length reserved levels) := by
  induction levels generalizing reserved with
  | nil => exact pure
  | cons level deeper ih =>
    refine bind collect fun _ => bind (leavesRoots takeOrGrow) fun taken => ?_
    cases taken with
    | ok h => exact pure
    | error reserved => exact ih

end Leaves

end HeapM

end ManagedHeap
