import ManagedHeap.Collector.Collect
import ManagedHeap.Heap.Write

/-!
# Finalization

A finalizer is foreign code: it may do anything to the heap, and to a state of
its own that the heap knows nothing of. A record is off the chain before its
finalizer runs, so that no finalizer runs twice, and every run happens in a
recovery scope, so that a failing one leaves no control state behind.
-/

namespace ManagedHeap

/-- A computation on a heap and on the state of the foreign code around it. -/
abbrev HostM (ω : Type) := StateT ω HeapM

/-- A computation whose answer may be an error. The heap goes on either way. -/
abbrev Attempt (ω : Type) := ExceptT HeapError (HostM ω)

/-- The foreign code that finalizers run, and the number of steps that loops over what it
leaves behind may take. -/
structure Host (ω : Type) where
  fuel : Nat
  /-- Call a native routine on a key. -/
  native : Nat → Handle → HostM ω (Except FinalizerError Unit)
  /-- Apply a finalizer closure to a key. -/
  evaluate : Evaluator → Handle → Handle → HostM ω (Except FinalizerError Unit)

/-- The depths of all control stacks at one moment. -/
structure RecoveryScope where
  protect : Nat
  contexts : Nat
  byteCode : Nat
  transient : Nat
deriving DecidableEq, Repr, Inhabited

namespace HeapM

def enterRecovery : HeapM RecoveryScope := do
  let heap ← get
  return {
    protect := heap.protect.depth
    contexts := heap.roots.contexts.size
    byteCode := heap.roots.byteCode.size
    transient := heap.roots.transient.size }

/-- Cut the control stacks back. Answers whether any depth had changed. -/
def leaveRecovery (scope : RecoveryScope) : HeapM Bool := do
  let now ← enterRecovery
  if now.protect < scope.protect then throw .recoveryBelowBase
  modify fun heap =>
    { heap with
      protect := heap.protect.truncate scope.protect
      journal := heap.journal.record (.left scope.transient) }
  modifyRoots fun r =>
    { r with
      contexts := r.contexts.shrink scope.contexts
      byteCode := r.byteCode.shrink scope.byteCode
      transient := r.transient.shrink scope.transient }
  return decide (now ≠ scope)

def modifyFinalizers (f : FinalizerState → FinalizerState) : HeapM Unit :=
  modify fun heap => { heap with finalizers := f heap.finalizers }

def noteCall (record function key : Handle) : HeapM Unit :=
  modify fun heap =>
    { heap with
      journal := heap.journal.record (.called {
        record, key
        finalizer := function
        fields := heap.arena.recordFields record
        chain := (heap.arena.weakRecords heap.weak).toOption.getD []
        live := heap.alive [key, function]
        transient := heap.roots.transient.size }) }

def countRun : HeapM Unit :=
  modify fun heap =>
    { heap with
      finalizers := { heap.finalizers with run := heap.finalizers.run + 1 }
      journal := heap.journal.record .returned }

def flagOnExit : List Handle → HeapM Unit
  | [] => pure ()
  | r :: rs => do
    updateCell r (Cell.mapFlags fun fs =>
      { fs with readyToFinalize := fs.readyToFinalize || fs.finalizeOnExit })
    flagOnExit rs

end HeapM

namespace HostM

variable {ω : Type}

open HeapM

/-- Steps for a loop over the heap: as many as a walk without repetition takes, and on top
what the host allows for changes under way. -/
def stepBound (host : Host ω) : HostM ω Nat := return (← walkBound) + host.fuel

def withTransient {α : Type} (hs : List Handle) (act : HostM ω α) : HostM ω α := do
  let depth ← openTransient hs
  let a ← act
  closeTransient depth
  return a

/-- Run the finalizer `function` on a key. A closure needs an evaluator, which is lent to
the run and comes back unless the run installed another one. -/
def invoke (host : Host ω) (function key : Handle) : HostM ω (Except FinalizerError Unit) := do
  match ← (kind function : HeapM Kind) with
  | .nativeFunction =>
    match ← (payload function : HeapM Payload) with
    | .nativeFunction (some routine) => host.native routine key
    | .nativeFunction none => return .ok ()
    | _ => wrongKind function .nativeFunction
  | .closure =>
    match (← getThe Heap).evaluator with
    | none => return .error ⟨"no evaluator installed for a closure finalizer"⟩
    | some evaluator =>
      modifyThe Heap fun heap => { heap with evaluator := none }
      let outcome ← host.evaluate evaluator function key
      if (← getThe Heap).evaluator.isNone then
        modifyThe Heap fun heap => { heap with evaluator := some evaluator }
      return outcome
  | other => throwThe Fault (.finalizerKind function other)

/-- Run the finalizer of a record in a recovery scope and count how it ended. -/
def runFinalizer (host : Host ω) (record function key : Handle) : HostM ω Unit := do
  let outcome ← withTransient [key, function] do
    noteCall record function key
    let scope ← enterRecovery
    let outcome ← invoke host function key
    if ← leaveRecovery scope then HeapM.note .stateUnwound
    return outcome
  countRun
  if let .error e := outcome then
    modifyFinalizers fun f => { f with failed := f.failed + 1 }
    HeapM.note (.finalizerFailed key e)

/-- Go along the chain once and run the finalizers of the ready records. Answers whether
there were any, and how many finalizers ran. -/
def finalizePass (host : Host ω) (previous cursor : Handle) (found : Bool) (ran : Nat) :
    Nat → HostM ω (Bool × Nat)
  | 0 => throwThe Fault .unfinished
  | fuel + 1 => do
    if cursor.isNil then return (found, ran)
    let fields ← chainFields cursor
    if !(← HeapM.flags cursor).readyToFinalize then
      finalizePass host cursor fields.next found ran fuel
    else
      unlinkWeakRef cursor previous
      if fields.finalizer.isNil then
        finalizePass host previous fields.next true ran fuel
      else
        runFinalizer host cursor fields.finalizer fields.key
        finalizePass host previous fields.next true (ran + 1) fuel

def finalizePasses (host : Host ω) (ran : Nat) : Nat → HostM ω Nat
  | 0 => throwThe Fault .unfinished
  | fuel + 1 => do
    let (found, ran) ←
      finalizePass host .nil (← getThe Heap).weak.head false ran (← stepBound host)
    if found then finalizePasses host ran fuel else return ran

/-- Run the finalizers of all ready records. Answers how many ran; a call from within a
finalizer leaves the work to the call that runs it. -/
def runPendingFinalizers (host : Host ω) : HostM ω Nat := do
  if (← getThe Heap).finalizers.running then return 0
  modifyFinalizers fun f => { f with running := true }
  let ran ← finalizePasses host 0 host.fuel
  modifyFinalizers fun f => { f with running := false }
  return ran

/-- Run what is still to be finalized when the heap ends. Only the first call does. -/
def runExitFinalizers (host : Host ω) : HostM ω Nat := do
  if (← getThe Heap).finalizers.exitDone then return 0
  flagOnExit (← weakRecords)
  let ran ← runPendingFinalizers host
  modifyFinalizers fun f => { f with exitDone := true }
  HeapM.note (.exitFinalizersDone ran)
  return ran

def requestCollection (host : Host ω) (level : Level) : HostM ω Outcome := do
  let outcome ← HeapM.collect level .requested
  let _ ← runPendingFinalizers host
  return outcome

end HostM

end ManagedHeap
