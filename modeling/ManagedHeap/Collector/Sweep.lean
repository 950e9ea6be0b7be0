import ManagedHeap.Heap.Strings

/-!
# Sweeping

Every covered object is either promoted or reclaimed, in the order of handles.
Afterwards the remembered set keeps just the objects that still point into a
younger generation.
-/

namespace ManagedHeap.HeapM

/-- Big chunks that a cell accounts for: only large segments are counted. -/
def bigChunksOf (large : Bool) (cell : Cell) : Nat :=
  if large then vectorChunks cell.kind cell.payload.length else 0

/-- Unmark a survivor, refresh what its flags say of tasks, and move it to a generation. -/
def promote (h : Handle) (source target : Generation) (chunks : Nat) : HeapM Unit := do
  let tasks := (← get).tasks
  updateCell h fun c =>
    let c := c.mapFlags fun fs =>
      { fs with
        marked := false, beingComputed := tasks.isPending h, inUseByTask := tasks.isInUse h }
    { c with header := { c.header with generation := target } }
  modify fun heap =>
    { heap with
      generations :=
        (heap.generations.modify source fun u =>
          { objects := u.objects - 1, bigChunks := u.bigChunks - chunks }).modify target fun u =>
          { objects := u.objects + 1, bigChunks := u.bigChunks + chunks } }

def reclaim (h : Handle) (kind : Kind) (generation : Generation) (chunks : Nat) :
    HeapM Unit := do
  modify fun heap => { heap with journal := heap.journal.noteFreed h kind }
  onArena fun arena => (arena.release h).map fun arena => ((), arena)
  modify fun heap =>
    { heap with
      generations := heap.generations.modify generation fun u =>
        { objects := u.objects - 1, bigChunks := u.bigChunks - chunks } }

/-- A dead object is released, unless it is a cached string that has to stay. -/
def mayRelease (h : Handle) (cell : Cell) : HeapM Bool := do
  if cell.kind = .charString ∧ cell.flags.cached then evictString h cell.flags
  else return true

/-- Sweep one position. Answers the generation that lost an object, if one did. -/
def sweepCell (level : Level) (large : Bool) (h : Handle) : HeapM (Option Generation) := do
  match (← get).arena.cellAt? h with
  | none => return none
  | some cell =>
    let header := cell.header
    if header.isFree || header.flags.permanent || !level.covers header.generation then
      return none
    let chunks := bigChunksOf large cell
    let released ← if header.flags.marked then pure false else mayRelease h cell
    if released then
      reclaim h header.kind header.generation chunks
      return some header.generation
    else
      promote h header.generation level.promotionTarget chunks
      return none

/-- Sweep the offsets of one segment in order and count what each generation lost. -/
def sweepOffsets (level : Level) (large : Bool) (segment : Nat) :
    List Nat → PerGeneration Nat → HeapM (PerGeneration Nat)
  | [], freed => pure freed
  | offset :: offsets, freed => do
    let freed := match ← sweepCell level large (.pack segment offset) with
      | some g => freed.modify g (· + 1)
      | none => freed
    sweepOffsets level large segment offsets freed

def sweepSegments (level : Level) :
    List Nat → PerGeneration Nat → HeapM (PerGeneration Nat)
  | [], freed => pure freed
  | i :: rest, freed => do
    match (← get).arena.segments[i]? with
    | none => sweepSegments level rest freed
    | some s =>
      let large := s.nodeClass.isLarge
      let size := s.cells.size
      let freed ← sweepOffsets level large i (List.range size) freed
      sweepSegments level rest freed

/-- Sweep the arena. Answers how many objects each generation lost. -/
def sweep (level : Level) : HeapM (PerGeneration Nat) := do
  sweepSegments level (List.range (← get).arena.segmentCount) (.replicate 0)

def pointsYounger (arena : Arena) (cell : Cell) : Bool :=
  (cell.edges true).any fun child => arena.generationBelow child cell.header.generation

/-- Keep the remembered objects that still point into a younger generation. -/
def pruneRemembered : List Handle → HeapM (List Handle)
  | [] => pure []
  | h :: hs => do
    let heap ← get
    match heap.arena.get? h with
    | none => pruneRemembered hs
    | some cell =>
      if pointsYounger heap.arena cell then return h :: (← pruneRemembered hs)
      else
        updateCell h (Cell.mapFlags fun fs => { fs with remembered := false })
        pruneRemembered hs

end ManagedHeap.HeapM
