import ManagedHeap.Heap.Finalize

/-!
# Allocation

The fast path takes a free cell and does nothing else. The slow path collects
when the policy asks for it, grows the arena within the limits, collects deeper
and deeper when it may not grow, and as a last resort runs pending finalizers
and collects fully once more.
-/

namespace ManagedHeap

namespace HeapM

def claimCell? (c : NodeClass) (kind : Kind) (payload : Payload) (chunks : Nat) :
    HeapM (Option Handle) := do
  let claimed ← onArena fun arena =>
    match arena.claim? c { kind } payload with
    | some (h, arena) => .ok (some h, arena)
    | none => .ok (none, arena)
  if let some h := claimed then
    modify fun heap =>
      { heap with
        generations := heap.generations.modify .young fun u =>
          { objects := u.objects + 1, bigChunks := u.bigChunks + chunks }
        strategy := heap.strategy.noteAllocation
        journal := heap.journal.record (.claimed h kind) }
  return claimed

/-- Allocate from a free list, if that is all there is to do; otherwise no object. -/
def allocateFast (kind : Kind) (length : Nat) : HeapM Handle := do
  let heap ← get
  let c := NodeClass.forRequest kind length
  if heap.config.torture || !kind.isAllocatable || heap.strategy.countdownExpired ||
      c.isLarge || !heap.arena.hasFree c then
    return .noObject
  match Payload.forKind? kind length with
  | none => return .noObject
  | some payload => return (← claimCell? c kind payload 0).getD .noObject

/-- Append a segment, if the limit on cells and the handles allow it. -/
def grow (c : NodeClass) : HeapM Bool := do
  let heap ← get
  let within := match heap.config.maxCells with
    | none => true
    | some limit => heap.arena.capacity + heap.arena.segmentCells ≤ limit
  if !within then return false
  let added ← onArena fun arena =>
    match arena.addSegment? c with
    | some (index, arena) => .ok (some index, arena)
    | none => .ok (none, arena)
  match added with
  | some index =>
    note (.segmentAdded index c.val)
    return true
  | none => return false

/-- Take a free cell or grow. Answers the object, or whether its storage is reserved. -/
def takeOrGrow (kind : Kind) (length : Nat) (reserved : Bool) : HeapM (Except Bool Handle) := do
  let heap ← get
  let c := NodeClass.forRequest kind length
  let chunks := if c.isLarge then vectorChunks kind length else 0
  let fits := match heap.config.maxVectorChunks with
    | none => true
    | some limit => chunks = 0 || heap.bigChunksLive + chunks ≤ limit
  if !fits then return .error reserved
  match Payload.forKind? kind length with
  | none => return .error false
  | some payload =>
    let room ← if heap.arena.hasFree c then pure true else grow c
    if !room then return .error true
    match ← claimCell? c kind payload chunks with
    | some h => return .ok h
    | none => return .error false

def collectionDue (kind : Kind) (length : Nat) : HeapM (Option Reason) := do
  let heap ← get
  if heap.config.torture then return some .torture
  let c := NodeClass.forRequest kind length
  let chunks := if c.isLarge then vectorChunks kind length else 0
  return heap.strategy.trigger chunks heap.bigChunksLive

def escalate (kind : Kind) (length : Nat) (reserved : Bool) :
    List Level → HeapM (Except Bool Handle)
  | [] => return .error reserved
  | level :: deeper => do
    let _ ← collect level .exhausted
    match ← takeOrGrow kind length reserved with
    | .ok h => return .ok h
    | .error reserved => escalate kind length reserved deeper

end HeapM

namespace HostM

variable {ω : Type}

open HeapM

/-- The last resort: finalizers may free memory, or at least what they keep alive. -/
def finalizeAndRetry (host : Host ω) (kind : Kind) (length : Nat) (reserved : Bool) :
    HostM ω (Except Bool Handle) := do
  if (← pendingFinalizerCount) = 0 then return .error reserved
  let _ ← runPendingFinalizers host
  let _ ← HeapM.collect .full .exhausted
  takeOrGrow kind length reserved

def allocateSlow (host : Host ω) (kind : Kind) (length : Nat) :
    HostM ω (Except HeapError Handle) := do
  if let some reason ← collectionDue kind length then
    let _ ← HeapM.collect (← getThe Heap).strategy.chooseLevel reason
  match ← takeOrGrow kind length false with
  | .ok h => return .ok h
  | .error reserved =>
    match ← escalate kind length reserved (← getThe Heap).strategy.chooseLevel.upward with
    | .ok h => return .ok h
    | .error reserved =>
      match ← finalizeAndRetry host kind length reserved with
      | .ok h => return .ok h
      | .error reserved =>
        HeapM.note (.allocationFailed kind length reserved)
        return .error (.outOfMemory kind length)

def allocate (host : Host ω) (kind : Kind) (length : Nat) (roots : List Handle) :
    Attempt ω Handle := do
  if !kind.isAllocatable then throw (.invalidKind kind)
  if !kind.isVector && length != 0 then throw (.invalidLength kind length)
  let h ← allocateFast kind length
  if !h.isNoObject then return h
  ExceptT.mk (withTransient roots (allocateSlow host kind length))

end HostM

end ManagedHeap
