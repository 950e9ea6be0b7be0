import ManagedHeap.Heap.Basic

/-!
# Writing

The write barrier, reference counts, the slot setters, and the stacks and lists
of roots. An object past the young generation that is written is remembered, so
that a shallow collection still sees what it points at. Every setter counts the
new value before it releases the old one.
-/

namespace ManagedHeap.HeapM

/-- Remember an object past the young generation before it is written. -/
def noteWrite (h : Handle) : HeapM Unit := do
  updateCell h id
  let header := (← cell h).header
  if header.generation != .young && !header.flags.remembered && !header.flags.permanent then
    updateCell h (Cell.mapFlags fun fs => { fs with remembered := true })
    modify fun heap => { heap with remembered := heap.remembered.push h }

def incrementRefCount (h : Handle) : HeapM Unit := updateCell h (Cell.mapRefCount .increment)

def decrementRefCount (h : Handle) : HeapM Unit := updateCell h (Cell.mapRefCount .decrement)

def refCount (h : Handle) : HeapM RefCount := return (← cell h).header.refcount

/-- Count a reference to `new` and release one to `old`, unless they are the same. -/
def replaceReference (old new : Handle) : HeapM Unit := do
  if old = new then return
  incrementRefCount new
  if ← isLive old then decrementRefCount old

def exchange {α : Type} (h : Handle) (expected : Shape) (f : Payload → Option (α × Payload)) :
    HeapM α := do
  noteWrite h
  match f (← payload h) with
  | some (old, payload) =>
    updateCell h fun c => { c with payload }
    return old
  | none => wrongKind h expected

def setCar (pair value : Handle) : HeapM Unit := do
  let old ← exchange pair .pair fun
    | .pair car cdr tag => some (car, .pair value cdr tag)
    | _ => none
  replaceReference old value

def setCdr (pair value : Handle) : HeapM Unit := do
  let old ← exchange pair .pair fun
    | .pair car cdr tag => some (cdr, .pair car value tag)
    | _ => none
  replaceReference old value

def setTag (pair value : Handle) : HeapM Unit := do
  let old ← exchange pair .pair fun
    | .pair car cdr tag => some (tag, .pair car cdr value)
    | _ => none
  replaceReference old value

def setVectorElt (vector : Handle) (index : Nat) (value : Handle) :
    HeapM (Except HeapError Unit) := do
  noteWrite vector
  match ← vectorElt vector index with
  | .error e => return .error e
  | .ok old =>
    updateCell vector fun c =>
      match c.payload with
      | .handles elements => { c with payload := .handles (elements.setIfInBounds index value) }
      | _ => c
    replaceReference old value
    return .ok ()

def setAttrib (h attrib : Handle) : HeapM Unit := do
  if (← flags h).cached then throw .attributesOnCachedString
  noteWrite h
  let old := (← cell h).attrib
  updateCell h fun c => { c with attrib }
  replaceReference old attrib

def setObjectBit (h : Handle) (object : Bool) : HeapM Unit :=
  updateCell h (Cell.mapFlags fun fs => { fs with object })

def setPromiseValue (promise value : Handle) : HeapM Unit := do
  let (oldValue, oldEnv) ← exchange promise .promise fun
    | .promise expr env old => some ((old, env), .promise expr .nil value)
    | _ => none
  replaceReference oldValue value
  replaceReference oldEnv .nil

def touch (h : Handle) : HeapM Nat := do
  noteWrite h
  length h

def overwrite {α : Type} (elements values : Array α) : Array α :=
  let n := min elements.size values.size
  values.take n ++ elements.drop n

/-- Overwrite the first elements of a real vector; answers how many. -/
def setRealData (h : Handle) (values : Array Float) : HeapM Nat := do
  updateCell h id
  match ← payload h with
  | .real elements =>
    updateCell h fun c => { c with payload := .real (overwrite elements values) }
    return min elements.size values.size
  | other => throw (.notReal h other)

/-- Overwrite the first elements of an integer or logical vector; answers how many. -/
def setIntegerData (h : Handle) (values : Array Int32) : HeapM Nat := do
  updateCell h id
  match ← payload h with
  | .integer elements =>
    updateCell h fun c => { c with payload := .integer (overwrite elements values) }
    return min elements.size values.size
  | .logical elements =>
    updateCell h fun c => { c with payload := .logical (overwrite elements values) }
    return min elements.size values.size
  | other => throw (.notInteger h other)

/-- Overwrite the first elements of a raw vector; answers how many, or none elsewhere. -/
def setRawData (h : Handle) (values : Bytes) : HeapM (Option Nat) := do
  noteWrite h
  match ← payload h with
  | .raw elements =>
    updateCell h fun c => { c with payload := .raw (overwrite elements values) }
    return some (min elements.size values.size)
  | _ => return none

/-- The reference count and what the scheduler says of the object now. -/
structure Sharing where
  count : RefCount
  beingComputed : Bool
  inUseByTask : Bool
deriving DecidableEq, Repr, Inhabited

def sharing (h : Handle) : HeapM Sharing := do
  let count ← refCount h
  let tasks := (← get).tasks
  return { count, beingComputed := tasks.isPending h, inUseByTask := tasks.isInUse h }

def mayMutate (h : Handle) : HeapM Bool := do
  let s ← sharing h
  return !s.count.isShared && !s.beingComputed && !s.inUseByTask

/-- Protect a handle. The first overflow is noted and answered as an error. -/
def pushRoot (h : Handle) : HeapM (Except HeapError Nat) := do
  let result ← onProtect fun protect => protect.push h
  if let .error (.protectStackOverflow limit) := result then note (.redZoneUnlocked limit)
  return result

def popRoots (n : Nat) : HeapM Unit :=
  onProtect fun protect => (protect.pop n).map fun protect => ((), protect)

def reprotect (h : Handle) (index : Nat) : HeapM Unit :=
  onProtect fun protect => (protect.reprotect h index).map fun protect => ((), protect)

def protectDepth : HeapM Nat := return (← get).protect.depth

/-- Cut the protection stack back to the depth at which a scope was opened. -/
def closeScope (base : Nat) : HeapM Unit := do
  if (← protectDepth) < base then throw .scopeBelowBase
  modify fun heap => { heap with protect := heap.protect.truncate base }

def modifyRoots (f : RootSet → RootSet) : HeapM Unit :=
  modify fun heap => { heap with roots := f heap.roots }

def openTransient (hs : List Handle) : HeapM Nat := do
  let depth := (← get).roots.transient.size
  modifyRoots fun r => { r with transient := r.transient ++ hs.toArray }
  return depth

def closeTransient (depth : Nat) : HeapM Unit :=
  modifyRoots fun r => { r with transient := r.transient.shrink depth }

end ManagedHeap.HeapM
