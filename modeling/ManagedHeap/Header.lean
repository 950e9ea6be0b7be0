import ManagedHeap.Kind

/-!
# Object headers

The header is the part of a cell that the collector reads without looking at
the payload: kind, generation, flags and a saturating reference count.
-/

namespace ManagedHeap

inductive Generation
  | young | middle | old
deriving DecidableEq, Repr, Inhabited

namespace Generation

def all : List Generation := [young, middle, old]

def index : Generation → Nat
  | young => 0
  | middle => 1
  | old => 2

def ofIndex : Nat → Generation
  | 0 => young
  | 1 => middle
  | _ => old

def name : Generation → String
  | young => "Young"
  | middle => "Middle"
  | old => "Old"

theorem ofIndex_index (g : Generation) : ofIndex g.index = g := by cases g <;> rfl

end Generation

/-- A count that saturates at two and never comes back down from there. -/
inductive RefCount
  | zero | one | many
deriving DecidableEq, Repr, Inhabited

namespace RefCount

def increment : RefCount → RefCount
  | zero => one
  | _ => many

def decrement : RefCount → RefCount
  | many => many
  | _ => zero

def isShared (r : RefCount) : Bool := r == many

def number : RefCount → Nat
  | zero => 0
  | one => 1
  | many => 2

def name : RefCount → String
  | zero => "Zero"
  | one => "One"
  | many => "Many"

theorem number_increment (r : RefCount) : r.increment.number = min (r.number + 1) 2 := by
  cases r <;> rfl

end RefCount

/-- One bit of the header. -/
inductive Flag
  | marked | beingComputed | inUseByTask | object | s4Object | cached | symbolName
  | remembered | permanent | readyToFinalize | finalizeOnExit | ascii
deriving DecidableEq, Repr, Inhabited

namespace Flag

def all : List Flag :=
  [marked, beingComputed, inUseByTask, object, s4Object, cached, symbolName,
    remembered, permanent, readyToFinalize, finalizeOnExit, ascii]

def name : Flag → String
  | marked => "MARKED"
  | beingComputed => "BEING_COMPUTED"
  | inUseByTask => "IN_USE_BY_TASK"
  | object => "OBJECT"
  | s4Object => "S4_OBJECT"
  | cached => "CACHED"
  | symbolName => "SYMBOL_NAME"
  | remembered => "REMEMBERED"
  | permanent => "PERMANENT"
  | readyToFinalize => "READY_TO_FINALIZE"
  | finalizeOnExit => "FINALIZE_ON_EXIT"
  | ascii => "ASCII"

def bit (f : Flag) : Nat := f.ctorIdx

end Flag

/-- The set of flags of one object. -/
structure Flags where
  marked : Bool := false
  beingComputed : Bool := false
  inUseByTask : Bool := false
  object : Bool := false
  s4Object : Bool := false
  cached : Bool := false
  symbolName : Bool := false
  remembered : Bool := false
  permanent : Bool := false
  readyToFinalize : Bool := false
  finalizeOnExit : Bool := false
  ascii : Bool := false
deriving DecidableEq, Repr, Inhabited

namespace Flags

def has (fs : Flags) : Flag → Bool
  | .marked => fs.marked
  | .beingComputed => fs.beingComputed
  | .inUseByTask => fs.inUseByTask
  | .object => fs.object
  | .s4Object => fs.s4Object
  | .cached => fs.cached
  | .symbolName => fs.symbolName
  | .remembered => fs.remembered
  | .permanent => fs.permanent
  | .readyToFinalize => fs.readyToFinalize
  | .finalizeOnExit => fs.finalizeOnExit
  | .ascii => fs.ascii

def insert (fs : Flags) : Flag → Flags
  | .marked => { fs with marked := true }
  | .beingComputed => { fs with beingComputed := true }
  | .inUseByTask => { fs with inUseByTask := true }
  | .object => { fs with object := true }
  | .s4Object => { fs with s4Object := true }
  | .cached => { fs with cached := true }
  | .symbolName => { fs with symbolName := true }
  | .remembered => { fs with remembered := true }
  | .permanent => { fs with permanent := true }
  | .readyToFinalize => { fs with readyToFinalize := true }
  | .finalizeOnExit => { fs with finalizeOnExit := true }
  | .ascii => { fs with ascii := true }

def ofList (flags : List Flag) : Flags := flags.foldl insert {}

def toList (fs : Flags) : List Flag := Flag.all.filter fs.has

def bits (fs : Flags) : Nat := fs.toList.foldl (fun word f => word + 1 <<< f.bit) 0

def task (fs : Flags) : Flags :=
  { beingComputed := fs.beingComputed, inUseByTask := fs.inUseByTask }

theorem has_insert (fs : Flags) (f g : Flag) : (fs.insert f).has g = (g == f || fs.has g) := by
  cases f <;> cases g <;> simp [insert, has]

end Flags

structure Header where
  kind : Kind := .free
  generation : Generation := .young
  flags : Flags := {}
  refcount : RefCount := .zero
deriving DecidableEq, Repr, Inhabited

namespace Header

def isFree (h : Header) : Bool := h.kind == .free

end Header

end ManagedHeap
