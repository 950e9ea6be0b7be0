import ManagedHeap.Heap.Basic

/-!
# Marking

A worklist instead of recursion: an object is marked when it is pushed, and its
edges are followed when it is popped. Objects that the collection does not cover,
and the permanent ones, count as marked and are not followed; the edges of
remembered objects among them are roots.
-/

namespace ManagedHeap

/-- What one collection covers and whether it follows the names of symbols. -/
structure Scan where
  level : Level
  withNames : Bool
deriving DecidableEq, Repr, Inhabited

/-- The arena being marked, the marked objects whose edges are still to be followed, and
the number of objects marked so far. -/
structure Marking where
  arena : Arena
  worklist : List Handle := []
  marked : Nat := 0
deriving Inhabited

abbrev MarkM := StateT Marking (Except Fault)

namespace Scan

def spares (s : Scan) (h : Header) : Bool :=
  h.flags.permanent || !s.level.covers h.generation

end Scan

namespace MarkM

/-- Run a computation on the arena alone. The marking lets go of the arena meanwhile. -/
@[inline]
def onArena {α : Type} (f : Arena → Except Fault (α × Arena)) : MarkM α := fun m =>
  let arena := m.arena
  let m := { m with arena := default }
  match f arena with
  | .ok (a, arena) => .ok (a, { m with arena })
  | .error e => .error e

def cell (h : Handle) : MarkM Cell := fun m =>
  match m.arena.get h with
  | .ok cell => .ok (cell, m)
  | .error e => .error e

def updateCell (h : Handle) (f : Cell → Cell) : MarkM Unit :=
  onArena fun arena => (arena.update h f).map fun arena => ((), arena)

def isMarked (s : Scan) (h : Handle) : MarkM Bool := do
  let header := (← cell h).header
  return header.flags.marked || s.spares header

/-- Mark one object and queue it. Answers whether it was marked just now. -/
def mark (s : Scan) (h : Handle) : MarkM Bool := do
  if h.isNoObject then return false
  updateCell h id
  let header := (← cell h).header
  if header.flags.marked || s.spares header then return false
  updateCell h (Cell.mapFlags fun fs => { fs with marked := true })
  modify fun m => { m with worklist := h :: m.worklist, marked := m.marked + 1 }
  return true

def markAll (s : Scan) : List Handle → MarkM Unit
  | [] => pure ()
  | h :: hs => do
    let _ ← mark s h
    markAll s hs

def markEdges (s : Scan) (h : Handle) : MarkM Unit := do
  markAll s ((← cell h).edges s.withNames)

/-- Follow the worklist until it is empty, in at most `fuel` steps. -/
def drainWithin (s : Scan) : Nat → MarkM Unit
  | 0 => do
    if !(← get).worklist.isEmpty then throw .unfinished
  | fuel + 1 => do
    match (← get).worklist with
    | [] => pure ()
    | h :: rest =>
      modify fun m => { m with worklist := rest }
      markEdges s h
      drainWithin s fuel

/-- Follow the worklist until it is empty. Every cell is pushed at most once, so the
worklist and the capacity of the arena bound the steps. -/
def drain (s : Scan) : MarkM Unit := do
  let m ← get
  drainWithin s (m.worklist.length + m.arena.capacity)

/-- Queue the edges of the remembered objects that the collection does not cover. -/
def markRemembered (s : Scan) : List Handle → MarkM Unit
  | [] => pure ()
  | h :: hs => do
    match (← get).arena.get? h with
    | some cell => if !s.level.covers cell.header.generation then markEdges s h
    | none => pure ()
    markRemembered s hs

/-- Mark everything reachable from the roots and from remembered objects. -/
def markRoots (s : Scan) (roots remembered : List Handle) : MarkM Unit := do
  markAll s roots
  drain s
  markRemembered s remembered
  drain s

/-- Mark the live objects that tasks hold and note in their flags who holds them. -/
def markHeld (s : Scan) (tasks : Tasks) : List Handle → MarkM Unit
  | [] => pure ()
  | h :: hs => do
    if (← get).arena.contains h then
      updateCell h (Cell.mapFlags fun fs =>
        { fs with beingComputed := tasks.isPending h, inUseByTask := tasks.isInUse h })
      let _ ← mark s h
    markHeld s tasks hs

/-- Mark everything that unfinished tasks hold. What a task holds does not depend on the
marks, so one pass finds all. -/
def markTasks (s : Scan) (tasks : Tasks) : MarkM Unit := do
  markHeld s tasks tasks.held
  drain s

end MarkM

namespace HeapM

/-- Everything the collector starts from, in the order in which it is visited. -/
def rootHandles : HeapM (List Handle) := do
  let heap ← get
  return heap.roots.handles ++ heap.protect.slots.toList ++ heap.symbols.handles

def clearLookupCaches : List Handle → HeapM Unit
  | [] => pure ()
  | h :: hs => do
    updateCell h fun c =>
      match c.payload with
      | .symbol name value internal _ =>
        { c with payload := .symbol name value internal .nil }
      | _ => c
    clearLookupCaches hs

end HeapM

end ManagedHeap
