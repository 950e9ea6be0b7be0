import ManagedHeap.Header
import ManagedHeap.Error

/-!
# The arena

Cells live in segments of equal size, each serving one node class. Every class
keeps its free cells on a stack, so a released cell is the next one claimed and
a fresh segment hands out low offsets first. Cells never move.
-/

namespace ManagedHeap

/-- A heap cell. The attribute slot of a cached string is its chain link. -/
structure Cell where
  header : Header := {}
  attrib : Handle := .nil
  payload : Payload := .free
deriving Repr, Inhabited

namespace Cell

def kind (c : Cell) : Kind := c.header.kind

def flags (c : Cell) : Flags := c.header.flags

def isFree (c : Cell) : Bool := c.header.isFree

def mapFlags (f : Flags → Flags) (c : Cell) : Cell :=
  { c with header := { c.header with flags := f c.header.flags } }

def mapRefCount (f : RefCount → RefCount) (c : Cell) : Cell :=
  { c with header := { c.header with refcount := f c.header.refcount } }

/-- The attribute of the object; the slot of a cached string is no attribute. -/
def attached (c : Cell) : Handle := if c.flags.cached then .nil else c.attrib

/-- Everything the collector follows from the cell: its attribute, unless that slot is
a chain link, and the traced slots of its payload. -/
def edges (c : Cell) (withNames : Bool) : List Handle :=
  if c.flags.cached then c.payload.children withNames
  else c.attrib :: c.payload.children withNames

end Cell

structure Segment where
  nodeClass : NodeClass
  cells : Array Cell
  live : Nat
deriving Repr, Inhabited

/-- Segments, cells and live cells of one node class. -/
structure ClassUsage where
  segments : Nat := 0
  cells : Nat := 0
  live : Nat := 0
deriving DecidableEq, Repr, Inhabited

structure Arena where
  segments : Array Segment
  /-- The free cells of each class, next one first. -/
  freeLists : Vector (List Handle) 7
  usages : Vector ClassUsage 7
  segmentCells : Nat
deriving Inhabited

namespace Arena

def empty (segmentCells : Nat) : Arena :=
  { segments := #[], freeLists := Vector.replicate 7 [], usages := Vector.replicate 7 {},
    segmentCells }

def segmentCount (a : Arena) : Nat := a.segments.size

def capacity (a : Arena) : Nat := a.segments.size * a.segmentCells

def usage (a : Arena) (c : NodeClass) : ClassUsage := a.usages[c]

def freeList (a : Arena) (c : NodeClass) : List Handle := a.freeLists[c]

def liveCells (a : Arena) : Nat := a.usages.toList.foldl (fun n u => n + u.live) 0

def hasFree (a : Arena) (c : NodeClass) : Bool := !(a.freeList c).isEmpty

def cellAt? (a : Arena) (h : Handle) : Option Cell :=
  match a.segments[h.segment]? with
  | some s => s.cells[h.offset]?
  | none => none

def get? (a : Arena) (h : Handle) : Option Cell :=
  (a.cellAt? h).filter (!·.isFree)

def contains (a : Arena) (h : Handle) : Bool := (a.get? h).isSome

def get (a : Arena) (h : Handle) : Except Fault Cell :=
  match a.get? h with
  | some cell => .ok cell
  | none => .error (.dangling h)

/-- Whether a handle names a live object strictly younger than `g`. -/
def generationBelow (a : Arena) (h : Handle) (g : Generation) : Bool :=
  match a.get? h with
  | some cell => cell.header.generation.index < g.index
  | none => false

def classOf (a : Arena) (h : Handle) : Except Fault NodeClass := do
  let _ ← a.get h
  match a.segments[h.segment]? with
  | some s => pure s.nodeClass
  | none => throw (.dangling h)

def setCell (a : Arena) (h : Handle) (f : Cell → Cell) : Arena :=
  { a with
    segments := a.segments.modify h.segment fun s => { s with cells := s.cells.modify h.offset f } }

/-- Change one live cell. A handle past the end is told apart from one of a free cell. -/
def update (a : Arena) (h : Handle) (f : Cell → Cell) : Except Fault Arena :=
  match a.cellAt? h with
  | none => .error (.outsideArena h a.segments.size)
  | some cell => if cell.isFree then .error (.dangling h) else .ok (a.setCell h f)

def addSegment? (a : Arena) (c : NodeClass) : Option (Nat × Arena) :=
  let index := a.segments.size
  if index > maxSegments then none
  else
    let fresh := (List.range a.segmentCells).map (Handle.pack index)
    some (index,
      { a with
        segments := a.segments.push ⟨c, Array.replicate a.segmentCells {}, 0⟩
        freeLists := a.freeLists.set c (fresh ++ a.freeLists[c])
        usages := a.usages.set c
          { a.usages[c] with
            segments := a.usages[c].segments + 1
            cells := a.usages[c].cells + a.segmentCells } })

def countLive (a : Arena) (segment : Nat) (c : NodeClass) (f : Nat → Nat) : Arena :=
  { a with
    segments := a.segments.modify segment fun s => { s with live := f s.live }
    usages := a.usages.set c { a.usages[c] with live := f a.usages[c].live } }

def claim? (a : Arena) (c : NodeClass) (header : Header) (payload : Payload) :
    Option (Handle × Arena) :=
  match a.freeList c with
  | [] => none
  | h :: rest =>
    let a := { a with freeLists := a.freeLists.set c rest }
    let a := a.setCell h fun _ => { header, payload }
    some (h, a.countLive h.segment c (· + 1))

def release (a : Arena) (h : Handle) : Except Fault Arena :=
  match a.segments[h.segment]? with
  | none => .error (.outsideArena h a.segments.size)
  | some s =>
    let c := s.nodeClass
    match s.cells[h.offset]? with
    | none => .error (.outsideArena h a.segments.size)
    | some cell =>
      if cell.isFree then .error .alreadyFree
      else
        let a := a.setCell h fun _ => {}
        let a := a.countLive h.segment c (· - 1)
        .ok { a with freeLists := a.freeLists.set c (h :: a.freeLists[c]) }

def positions (a : Arena) : List Handle :=
  (List.range a.segments.size).flatMap fun s =>
    (List.range (a.segments[s]?.map (·.cells.size) |>.getD 0)).map (Handle.pack s)

def handles (a : Arena) : List Handle := a.positions.filter a.contains

theorem cellAt?_setCell (a : Arena) (h k : Handle) (f : Cell → Cell) :
    (a.setCell h f).cellAt? k = if k = h then (a.cellAt? k).map f else a.cellAt? k := by
  unfold setCell cellAt?
  simp only [Array.getElem?_modify]
  by_cases hs : h.segment = k.segment
  · by_cases ho : h.offset = k.offset
    · have hk : k = h := (Handle.eq_of_parts hs ho).symm
      subst hk
      cases hseg : a.segments[k.segment]? with
      | none => simp
      | some s => simp [Array.getElem?_modify]
    · have hk : k ≠ h := fun e => ho (by rw [e])
      cases hseg : a.segments[k.segment]? with
      | none => simp [hs, hk]
      | some s => simp [hs, ho, hk, Array.getElem?_modify]
  · have hk : k ≠ h := fun e => hs (by rw [e])
    simp [hs, hk]

theorem update_eq_ok {a b : Arena} {h : Handle} {f : Cell → Cell} (hu : a.update h f = .ok b) :
    (∃ c, a.get? h = some c) ∧ b = a.setCell h f := by
  unfold update at hu
  cases hc : a.cellAt? h with
  | none => simp [hc] at hu
  | some c =>
    by_cases hf : c.isFree = true
    · simp [hc, hf] at hu
    · simp only [hc, hf, Bool.false_eq_true, if_false, Except.ok.injEq] at hu
      refine ⟨⟨c, ?_⟩, hu.symm⟩
      simp [get?, hc, hf]

end Arena

end ManagedHeap
