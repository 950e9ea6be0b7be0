import ManagedHeap.Error
import ManagedHeap.Collector.Strategy

/-!
# The journal

What a heap reports while it works: events in the order in which they happen,
and, while an observer is installed, every object that is reclaimed.
-/

namespace ManagedHeap

inductive Severity
  | trace | debug | info | warn
deriving DecidableEq, Repr, Inhabited

def Severity.name : Severity → String
  | trace => "TRACE"
  | debug => "DEBUG"
  | info => "INFO"
  | warn => "WARN"

inductive Event
  | segmentAdded (segment nodeClass : Nat)
  | allocationFailed (kind : Kind) (length : Nat) (reserved : Bool)
  | collectionFinished (level : Level) (reason : Reason) (marked freed : Nat)
  | collectionReport (level : Level) (collections : PerGeneration Nat) (cells chunks : Nat)
  | cacheResized (buckets entries : Nat)
  | redZoneUnlocked (limit : Nat)
  | stateUnwound
  | finalizerFailed (key : Handle) (error : FinalizerError)
  | exitFinalizersDone (ran : Nat)
deriving Repr, Inhabited

namespace Event

def severity : Event → Severity
  | segmentAdded _ _ => .trace
  | collectionReport _ _ _ _ => .info
  | redZoneUnlocked _ | finalizerFailed _ _ => .warn
  | _ => .debug

def message : Event → String
  | segmentAdded _ _ => "segment added"
  | allocationFailed _ _ _ => "allocation failed after full collection"
  | collectionFinished _ _ _ _ => "collection finished"
  | collectionReport level n cells chunks =>
    let total := n.young + n.middle + n.old
    let a := n.young
    let b := n.middle
    let c := n.old
    let depth := level.index
    s!"Garbage collection {total} = {a}+{b}+{c} (level {depth}): " ++
      s!"{cells} cells in use, {chunks} big chunks"
  | cacheResized _ _ => "string cache resized"
  | redZoneUnlocked _ => "protection stack overflow; red zone unlocked"
  | stateUnwound => "unwound state left by finalizer"
  | finalizerFailed _ _ => "finalizer failed"
  | exitFinalizersDone _ => "exit finalizers done"

end Event

/-- A weak record as it was linked. Of the objects that it refers to, `live` were alive. -/
structure Link where
  record : Handle
  key : Handle
  value : Handle
  finalizer : Handle
  onExit : Bool
  live : List Handle
deriving DecidableEq, Repr, Inhabited

/-- The call of the finalizer of a record, which had these fields then, while these records were on
the chain. Of the key and the finalizer, `live` were alive; so many transient roots were kept, these
two included. -/
structure Invocation where
  record : Handle
  key : Handle
  finalizer : Handle
  fields : List Handle
  chain : List Handle
  live : List Handle
  transient : Nat
deriving DecidableEq, Repr, Inhabited

/-- What happened to an object or to a weak record. -/
inductive Entry
  | opened (config : Config)
  | claimed (h : Handle) (kind : Kind)
  | freed (h : Handle) (kind : Kind)
  | collected (level : Level)
  | linked (link : Link)
  | unlinked (record : Handle) (ready : Bool)
  | called (call : Invocation)
  | returned
  /-- A recovery scope was left that had been entered with so many transient roots. -/
  | left (transient : Nat)
deriving Repr, Inhabited

structure Journal where
  events : Array Event := #[]
  observing : Bool := false
  /-- Reclaimed objects with their kinds, oldest first. -/
  freed : Array (Handle × Kind) := #[]
  /-- Everything that has happened, oldest first. No operation reads it. -/
  history : Array Entry := #[]
deriving Repr, Inhabited

namespace Journal

def note (j : Journal) (e : Event) : Journal := { j with events := j.events.push e }

def record (j : Journal) (e : Entry) : Journal := { j with history := j.history.push e }

def noteFreed (j : Journal) (h : Handle) (k : Kind) : Journal :=
  let j := j.record (.freed h k)
  if j.observing then { j with freed := j.freed.push (h, k) } else j

end Journal

end ManagedHeap
