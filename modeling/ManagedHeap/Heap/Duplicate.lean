import ManagedHeap.Heap.Construct

/-!
# Copies

Pairlists and generic vectors are copied deeply, closures shallowly, data
vectors and uncached strings by value. Everything else, and cached strings, is
its own copy. An object that a task still writes is waited for before it is
read.
-/

namespace ManagedHeap

namespace HeapM

def awaitOutput (h : Handle) : HeapM Unit := do
  if (← get).tasks.isPending h then
    modify fun heap =>
      { heap with
        tasks := heap.tasks.awaitOutput h
        counters := { heap.counters with taskWaits := heap.counters.taskWaits + 1 } }

end HeapM

namespace HostM

variable {ω : Type}

open HeapM

/-- Copy pair after pair. Answers the first copy, the last one, and the tail in which the
copied list ends. -/
def copyPairs (host : Host ω) (copyOne : Handle → Attempt ω Handle)
    (index : Nat) (head tail cursor : Handle) : Nat → Attempt ω (Handle × Handle × Handle)
  | 0 => throwThe Fault .unfinished
  | fuel + 1 => do
    if !(← HeapM.kind cursor).isPairLike then return (head, tail, cursor)
    let element ← copyOne (← car cursor)
    let cellKind ← HeapM.kind cursor
    let cellTag ← tag cursor
    let cell ← allocate host cellKind 0 [element]
    setCar cell element
    setTag cell cellTag
    let head ← if tail.isNil then do reprotect cell index; pure cell
      else do setCdr tail cell; pure head
    copyPairs host copyOne index head cell (← cdr cursor) fuel

def copyPairlist (host : Host ω) (copyOne : Handle → Attempt ω Handle) (h : Handle) :
    Attempt ω Handle := protecting do
  let index ← attempt (pushRoot .nil)
  let (head, tail, rest) ← copyPairs host copyOne index .nil .nil h (← stepBound host)
  if !rest.isNil && !tail.isNil then
    setCdr tail (← copyOne rest)
  return head

def copyElements (copyOne : Handle → Attempt ω Handle) (h copy : Handle) :
    List Nat → Attempt ω Unit
  | [] => return
  | i :: rest => do
    let element ← copyOne (← attempt (vectorElt h i))
    attempt (setVectorElt copy i element)
    copyElements copyOne h copy rest

def copyVector (host : Host ω) (copyOne : Handle → Attempt ω Handle) (h : Handle) :
    Attempt ω Handle := do
  let kind ← HeapM.kind h
  let length ← HeapM.length h
  protecting do
    let copy ← allocate host kind length [h]
    let _ ← attempt (pushRoot copy)
    copyElements copyOne h copy (List.range length)
    return copy

def copyStrings (host : Host ω) (h : Handle) : Attempt ω Handle := do
  match ← HeapM.payload h with
  | .handles elements =>
    let copy ← allocate host (← HeapM.kind h) elements.size [h]
    countReferences elements.toList
    setPayload copy (.handles elements)
    return copy
  | _ => wrongKind h .stringVector

def copyData (host : Host ω) (h : Handle) : Attempt ω Handle := do
  let payload ← HeapM.payload h
  let copy ← allocate host (← HeapM.kind h) payload.length [h]
  setPayload copy payload
  return copy

/-- Copy the attribute and the class bits of an object to its copy. -/
def copyAttributes (copyOne : Handle → Attempt ω Handle) (h copy : Handle) :
    Attempt ω Handle := do
  let attached ← attrib h
  let flags ← HeapM.flags h
  if !attached.isNil then
    protecting do
      let _ ← attempt (pushRoot copy)
      setAttrib copy (← copyOne attached)
  updateCell copy (Cell.mapFlags fun fs =>
    { fs with object := fs.object || flags.object, s4Object := fs.s4Object || flags.s4Object })
  return copy

/-- Copy an object and everything it holds, at most `fuel` levels deep. -/
def copyWithin (host : Host ω) : Nat → Handle → Attempt ω Handle
  | 0, _ => throwThe Fault .unfinished
  | fuel + 1, h => do
    let copyOne := copyWithin host fuel
    awaitOutput h
    match ← HeapM.kind h with
    | .pair | .language => copyAttributes copyOne h (← copyPairlist host copyOne h)
    | .list | .expression => copyAttributes copyOne h (← copyVector host copyOne h)
    | .stringVector => copyAttributes copyOne h (← copyStrings host h)
    | .charString =>
      if (← HeapM.flags h).cached then return h
      else copyAttributes copyOne h (← copyData host h)
    | .logicalVector | .integerVector | .realVector | .rawVector =>
      copyAttributes copyOne h (← copyData host h)
    | .closure =>
      let (formals, body, env) ← closureParts h
      copyAttributes copyOne h (← makeClosure host formals body env)
    | _ => return h

def duplicate (host : Host ω) (h : Handle) : Attempt ω Handle := protecting do
  let _ ← attempt (pushRoot h)
  copyWithin host (← stepBound host) h

/-- The object itself if it may be changed in place, and a copy otherwise. -/
def duplicateIfShared (host : Host ω) (h : Handle) : Attempt ω Handle := do
  if ← mayMutate h then return h else duplicate host h

end HostM

end ManagedHeap
