import ManagedHeap.Collector.Mark

/-!
# Weak records

A weak record keeps nothing alive by itself. While its key is alive, its value
and finalizer are kept too, and since marking these can bring another key to
life the chain is gone through until nothing changes. A record whose key is
still dead then becomes ready: its fields live on until its finalizer has run.
-/

namespace ManagedHeap

/-- The slots of a weak record. -/
structure WeakFields where
  key : Handle
  value : Handle
  finalizer : Handle
  next : Handle
deriving DecidableEq, Repr, Inhabited

namespace Arena

def weakFields (a : Arena) (h : Handle) : Except Fault WeakFields := do
  match (← a.get h).payload with
  | .weakRef key value finalizer next => pure { key, value, finalizer, next }
  | _ => throw (.chainHoldsOther h)

def recordFields (a : Arena) (h : Handle) : List Handle :=
  match (a.get? h).map Cell.payload with
  | some (.weakRef key value finalizer next) => [key, value, finalizer, next]
  | _ => []

def recordsFrom (a : Arena) (cursor : Handle) : Nat → Except Fault (List Handle)
  | 0 => if cursor.isNil then pure [] else throw .chainLength
  | fuel + 1 =>
    if cursor.isNil then pure []
    else do
      let fields ← a.weakFields cursor
      return cursor :: (← a.recordsFrom fields.next fuel)

def weakRecords (a : Arena) (chain : WeakChain) : Except Fault (List Handle) := do
  let records ← a.recordsFrom chain.head chain.length
  if records.length ≠ chain.length then throw .chainLength
  return records

end Arena

namespace MarkM

def weakFields (h : Handle) : MarkM WeakFields := do
  let m ← get
  m.arena.weakFields h

/-- Keep the value and finalizer of every record that is not ready and has a live key.
Answers whether anything was marked. -/
def keepValues (s : Scan) : List Handle → MarkM Bool
  | [] => pure false
  | r :: rs => do
    let changed ← do
      if (← cell r).flags.readyToFinalize then pure false
      else
        let fields ← weakFields r
        if ← isMarked s fields.key then
          let value ← mark s fields.value
          let finalizer ← mark s fields.finalizer
          pure (value || finalizer)
        else pure false
    let later ← keepValues s rs
    return changed || later

/-- Go through the records until nothing changes, at most `passes` times. Every pass but
the last settles one record, so one pass more than there are records is enough. -/
def settleValues (s : Scan) (records : List Handle) : Nat → MarkM Unit
  | 0 => throw .unfinished
  | passes + 1 => do
    let changed ← keepValues s records
    drain s
    if changed then settleValues s records passes

/-- Flag the records whose keys are dead as ready. Answers how many. -/
def flagReady (s : Scan) : List Handle → MarkM Nat
  | [] => pure 0
  | r :: rs => do
    let fields ← weakFields r
    let ready := (← cell r).flags.readyToFinalize
    let flagged ← do
      if ready then pure 0
      else if ← isMarked s fields.key then pure 0
      else
        updateCell r (Cell.mapFlags fun fs => { fs with readyToFinalize := true })
        pure 1
    return flagged + (← flagReady s rs)

def keepReady (s : Scan) : List Handle → MarkM Unit
  | [] => pure ()
  | r :: rs => do
    if (← cell r).flags.readyToFinalize then
      let fields ← weakFields r
      markAll s [fields.key, fields.value, fields.finalizer]
    keepReady s rs

/-- Resolve the chain against the marks. Answers how many records became ready. -/
def resolveWeak (s : Scan) (chain : WeakChain) : MarkM Nat := do
  let records ← (← get).arena.weakRecords chain
  markAll s records
  drain s
  settleValues s records (records.length + 1)
  let ready ← flagReady s records
  keepReady s records
  drain s
  return ready

end MarkM

namespace HeapM

/-- The slots of a weak record, or the error that the object is none. -/
def weakFields (record : Handle) : HeapM (Except HeapError WeakFields) := do
  match ← payload record with
  | .weakRef key value finalizer next => return .ok { key, value, finalizer, next }
  | _ => return .error .notAWeakReference

def weakRefKey (record : Handle) : HeapM (Except HeapError Handle) :=
  return (← weakFields record).map (·.key)

def weakRefValue (record : Handle) : HeapM (Except HeapError Handle) :=
  return (← weakFields record).map (·.value)

def chainFields (record : Handle) : HeapM WeakFields := do
  let heap ← get
  heap.arena.weakFields record

def weakRecords : HeapM (List Handle) := do
  let heap ← get
  heap.arena.weakRecords heap.weak

def chainAfter (h : Handle) : HeapM Handle := do
  if h.isNil then return (← get).weak.head
  return (← chainFields h).next

def searchPredecessor (record : Handle) (previous cursor : Handle) : Nat → HeapM Handle
  | 0 => throw .unfinished
  | fuel + 1 => do
    if cursor = record then return previous
    if cursor.isNil then throw .recordMissing
    searchPredecessor record cursor (← chainFields cursor).next fuel

/-- The record in front of another one. A hint that is out of date costs a search. -/
def predecessor (record hint : Handle) : HeapM Handle := do
  if (← chainAfter hint) = record then return hint
  let heap ← get
  searchPredecessor record .nil heap.weak.head (← walkBound)

def clearRecord (record : Handle) (ready : Bool) : HeapM Unit := do
  updateCell record fun c =>
    { c.mapFlags fun fs => { fs with readyToFinalize := false, finalizeOnExit := false } with
      payload := .weakRef .nil .nil .nil .nil }
  modify fun heap =>
    { heap with
      weak := { heap.weak with length := heap.weak.length - 1 }
      journal := heap.journal.record (.unlinked record ready) }

def unlinkWeakRef (record hint : Handle) : HeapM Unit := do
  let next := (← chainFields record).next
  let previous ← predecessor record hint
  let ready := (← flags record).readyToFinalize
  if previous.isNil then
    modify fun heap => { heap with weak := { heap.weak with head := next } }
  else
    updateCell previous fun c =>
      match c.payload with
      | .weakRef key value finalizer _ => { c with payload := .weakRef key value finalizer next }
      | _ => c
  clearRecord record ready

def pushRecord (record key value finalizer : Handle) (onExit : Bool) : HeapM Unit :=
  modify fun heap =>
    { heap with
      weak := { head := record, length := heap.weak.length + 1 }
      journal := heap.journal.record (.linked
        { record, key, value, finalizer, onExit, live := heap.alive [key, value, finalizer] }) }

def linkWeakRef (record key value finalizer : Handle) (onExit : Bool) : HeapM Unit := do
  let next := (← get).weak.head
  updateCell record fun c => { c with payload := .weakRef key value finalizer next }
  if onExit then
    updateCell record (Cell.mapFlags fun fs => { fs with finalizeOnExit := true })
  pushRecord record key value finalizer onExit

def pendingFinalizerCount : HeapM Nat := do
  let ready (r : Handle) : HeapM Bool := return (← flags r).readyToFinalize
  return (← (← weakRecords).filterM ready).length

end HeapM

end ManagedHeap
