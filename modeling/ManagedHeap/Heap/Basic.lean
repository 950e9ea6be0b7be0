import ManagedHeap.Arena
import ManagedHeap.Journal
import ManagedHeap.ProtectStack
import ManagedHeap.Roots
import ManagedHeap.Tasks

/-!
# The heap

All state of one heap, the computations that run on it, and its construction
with the two permanent objects. A computation either ends with a value and the
heap that it leaves, or stops at a fault.
-/

namespace ManagedHeap

/-- Buckets of chained strings. The hash function is part of the cache. -/
structure StringCache where
  buckets : Array Handle
  entries : Nat := 0
  maxSize : Nat
  hash : Bytes → Encoding → UInt32

/-- Symbols by print name, oldest first. -/
structure SymbolTable where
  entries : List (Bytes × Handle) := []
deriving Repr, Inhabited

namespace SymbolTable

def find? (t : SymbolTable) (name : Bytes) : Option Handle :=
  (t.entries.find? (·.1 == name)).map (·.2)

def replace (t : SymbolTable) (name : Bytes) (h : Handle) : SymbolTable :=
  { entries := t.entries.map fun e => if e.1 = name then (name, h) else e }

/-- Enter a symbol under its name, in place of one that is already there. -/
def insert (t : SymbolTable) (name : Bytes) (h : Handle) : SymbolTable :=
  match t.find? name with
  | some _ => t.replace name h
  | none => { entries := t.entries ++ [(name, h)] }

def handles (t : SymbolTable) : List Handle := t.entries.map (·.2)

def size (t : SymbolTable) : Nat := t.entries.length

theorem find?_replace (t : SymbolTable) (name key : Bytes) (h : Handle) :
    (t.replace name h).find? key =
      if key = name then (t.find? key).map fun _ => h else t.find? key := by
  obtain ⟨entries⟩ := t
  simp only [find?, replace]
  induction entries with
  | nil => simp
  | cons e es ih =>
    by_cases he : e.1 = name <;> by_cases hk : key = name <;> by_cases hek : e.1 = key <;>
      simp_all

theorem find?_insert (t : SymbolTable) (name key : Bytes) (h : Handle) :
    (t.insert name h).find? key = if key = name then some h else t.find? key := by
  unfold insert
  cases ht : t.find? name with
  | some old =>
    simp only [find?_replace]
    by_cases hk : key = name
    · subst hk; simp [ht]
    · simp [hk]
  | none =>
    by_cases hk : key = name
    · subst hk
      simp only [find?, Option.map_eq_none_iff] at ht
      simp [find?, List.find?_append, ht]
    · simp [find?, List.find?_append, hk, Ne.symm hk]

end SymbolTable

/-- The chain of weak records that are not finalized yet. -/
structure WeakChain where
  head : Handle := .nil
  length : Nat := 0
deriving DecidableEq, Repr, Inhabited

structure FinalizerState where
  running : Bool := false
  run : Nat := 0
  failed : Nat := 0
  exitDone : Bool := false
deriving DecidableEq, Repr, Inhabited

/-- What applies closures to the objects they finalize. -/
structure Evaluator where
  name : String
  routine : Nat
deriving DecidableEq, Repr, Inhabited

/-- Summary of one finished collection. -/
structure Outcome where
  level : Level
  reason : Reason
  marked : Nat
  freed : PerGeneration Nat
  newlyReady : Nat
deriving DecidableEq, Repr, Inhabited

def Outcome.totalFreed (o : Outcome) : Nat := o.freed.young + o.freed.middle + o.freed.old

inductive Phase
  | idle | quiescing | marking | pendingTasks | weakReferences | sweeping | adjusting
deriving DecidableEq, Repr, Inhabited

def Phase.name : Phase → String
  | idle => "Idle"
  | quiescing => "Quiescing"
  | marking => "Marking"
  | pendingTasks => "PendingTasks"
  | weakReferences => "WeakReferences"
  | sweeping => "Sweeping"
  | adjusting => "Adjusting"

structure Counters where
  /-- Finished collections of each level. -/
  collections : PerGeneration Nat := .replicate 0
  taskWaits : Nat := 0
  phase : Phase := .idle
  last : Option Outcome := none
deriving DecidableEq, Repr, Inhabited

structure Heap where
  config : Config
  arena : Arena
  generations : PerGeneration GenerationUsage := .replicate {}
  strategy : Strategy
  protect : ProtectStack
  roots : RootSet := {}
  symbols : SymbolTable := {}
  strings : StringCache
  remembered : Array Handle := #[]
  weak : WeakChain := {}
  finalizers : FinalizerState := {}
  tasks : Tasks := {}
  evaluator : Option Evaluator := none
  collecting : Bool := false
  counters : Counters := {}
  journal : Journal := {}

abbrev HeapM := StateT Heap (Except Fault)

namespace Heap

def objectCounts (heap : Heap) : PerGeneration Nat :=
  ⟨heap.generations.young.objects, heap.generations.middle.objects,
    heap.generations.old.objects⟩

def bigChunksLive (heap : Heap) : Nat :=
  heap.generations.young.bigChunks + heap.generations.middle.bigChunks +
    heap.generations.old.bigChunks

def alive (heap : Heap) (hs : List Handle) : List Handle := hs.filter heap.arena.contains

def mixHash (bytes : Bytes) (encoding : Encoding) : UInt32 :=
  bytes.foldl (fun h b => (h ^^^ b.toUInt32) * 16777619)
    (2166136261 + UInt32.ofNat encoding.ctorIdx)

def bare (config : Config) (hash : Bytes → Encoding → UInt32) : Heap :=
  { config
    arena := .empty config.segmentCells
    strategy := .ofConfig config
    protect := .empty config.protectDepth config.redZone
    strings :=
      { buckets := Array.replicate (max config.cacheInitial 1) .nil
        maxSize := max config.cacheMax config.cacheInitial
        hash }
    journal := { history := #[.opened config] } }

def installPermanent (arena : Arena) (kind : Kind) (payload : Payload) (expected : Handle) :
    Except Fault Arena :=
  let header : Header :=
    { kind, generation := .old, flags := { permanent := true }, refcount := .many }
  match arena.claim? .fixed header payload with
  | some (h, arena) => if h = expected then .ok arena else .error .permanentMisplaced
  | none => .error .permanentMisplaced

def furnish (heap : Heap) : Except Fault Heap := do
  let some (_, arena) := heap.arena.addSegment? .fixed | throw .noFirstSegment
  let arena ← installPermanent arena .nil .nil .nil
  let arena ← installPermanent arena .symbol (.symbol .nil .unbound .nil .nil) .unbound
  pure { heap with
    arena
    generations := heap.generations.modify .old fun u => { u with objects := u.objects + 2 } }

/-- A vector of handles of four bytes each has fewer elements, in the address space. -/
def bucketLimit : Nat := 1 <<< 61

def build (config : Config) (hash : Bytes → Encoding → UInt32) : Except Fault Heap :=
  if bucketLimit ≤ max config.cacheInitial 1 then .error .capacityOverflow
  else furnish (bare config hash)

def withConfig (config : Config) : Except Fault (Except HeapError Heap) :=
  match config.validate with
  | .error e => .ok (.error (.config e))
  | .ok () => (build config mixHash).map .ok

end Heap

namespace HeapM

def note (e : Event) : HeapM Unit :=
  modify fun heap => { heap with journal := heap.journal.note e }

/-- Run a computation on the arena alone. The heap lets go of the arena meanwhile. -/
@[inline]
def onArena {α : Type} (f : Arena → Except Fault (α × Arena)) : HeapM α := fun heap =>
  let arena := heap.arena
  let heap := { heap with arena := default }
  match f arena with
  | .ok (a, arena) => .ok (a, { heap with arena })
  | .error e => .error e

/-- Run a computation on the protection stack alone. -/
@[inline]
def onProtect {α : Type} (f : ProtectStack → Except Fault (α × ProtectStack)) : HeapM α :=
  fun heap =>
    let protect := heap.protect
    let heap := { heap with protect := default }
    match f protect with
    | .ok (a, protect) => .ok (a, { heap with protect })
    | .error e => .error e

def cell (h : Handle) : HeapM Cell := fun heap =>
  match heap.arena.get h with
  | .ok cell => .ok (cell, heap)
  | .error e => .error e

def updateCell (h : Handle) (f : Cell → Cell) : HeapM Unit :=
  onArena fun arena => (arena.update h f).map fun arena => ((), arena)

def isLive (h : Handle) : HeapM Bool := return (← get).arena.contains h

def kind (h : Handle) : HeapM Kind := return (← cell h).kind

def flags (h : Handle) : HeapM Flags := return (← cell h).flags

def generation (h : Handle) : HeapM Generation := return (← cell h).header.generation

def payload (h : Handle) : HeapM Payload := return (← cell h).payload

def attrib (h : Handle) : HeapM Handle := return (← cell h).attached

def wrongKind {α : Type} (h : Handle) (expected : Shape) : HeapM α := do
  throw (.wrongKind h (← kind h) expected)

def length (h : Handle) : HeapM Nat := return (← payload h).length

/-- Head, tail and tag of a pair. The empty object has all three empty. -/
def pairFields (h : Handle) : HeapM (Handle × Handle × Handle) := do
  match ← payload h with
  | .pair car cdr tag => return (car, cdr, tag)
  | .nil => return (.nil, .nil, .nil)
  | _ => wrongKind h .pair

def car (h : Handle) : HeapM Handle := return (← pairFields h).1

def cdr (h : Handle) : HeapM Handle := return (← pairFields h).2.1

def tag (h : Handle) : HeapM Handle := return (← pairFields h).2.2

def countPairs (cursor : Handle) : Nat → HeapM Nat
  | 0 => throw .unfinished
  | fuel + 1 => do
    if (← kind cursor).isPairLike then
      return (← countPairs (← cdr cursor) fuel) + 1
    else return 0

def walkBound : HeapM Nat := return (← get).arena.capacity + 1

def listLength (list : Handle) : HeapM Nat := do countPairs list (← walkBound)

def vectorElt (h : Handle) (index : Nat) : HeapM (Except HeapError Handle) := do
  match ← payload h with
  | .handles elements =>
    match elements[index]? with
    | some e => return .ok e
    | none => return .error (.indexOutOfBounds index elements.size)
  | _ => wrongKind h .handleVector

def charBytes (h : Handle) : HeapM Bytes := do
  match ← payload h with
  | .charString bytes _ _ => return bytes
  | _ => wrongKind h .charString

def encoding (h : Handle) : HeapM Encoding := do
  match ← payload h with
  | .charString _ encoding _ => return encoding
  | _ => wrongKind h .charString

def realData (h : Handle) : HeapM (Array Float) := do
  match ← payload h with
  | .real elements => return elements
  | _ => wrongKind h .realVector

def integerData (h : Handle) : HeapM (Array Int32) := do
  match ← payload h with
  | .integer elements | .logical elements => return elements
  | _ => wrongKind h .integerVector

def rawData (h : Handle) : HeapM Bytes := do
  match ← payload h with
  | .raw elements => return elements
  | _ => wrongKind h .rawVector

def closureParts (h : Handle) : HeapM (Handle × Handle × Handle) := do
  match ← payload h with
  | .closure formals body env => return (formals, body, env)
  | _ => wrongKind h .closure

def envEnclos (h : Handle) : HeapM Handle := do
  match ← payload h with
  | .environment _ enclos => return enclos
  | _ => wrongKind h .environment

def promiseValue (h : Handle) : HeapM Handle := do
  match ← payload h with
  | .promise _ _ value => return value
  | _ => wrongKind h .promise

def externalAddress (h : Handle) : HeapM Nat := do
  match ← payload h with
  | .externalPtr address _ _ => return address
  | _ => wrongKind h .externalPointer

end HeapM

end ManagedHeap
