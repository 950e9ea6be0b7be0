import ManagedHeap.Heap.Symbols

/-!
# Commands

A small language over one heap. Its programs name objects through registers and
serve as the bodies of finalizers, so that everything a finalizer may do to the
heap can be written down.
-/

namespace ManagedHeap.Session

open ManagedHeap

/-- An object: given outright, or read from a register, which is empty at first. -/
inductive Operand
  | handle (h : Handle)
  | register (name : String)
deriving DecidableEq, Repr, Inhabited

/-- Questions about one object. -/
inductive Query
  | isLive | kind | generation | flags | attrib | length | car | cdr | tag | listLength
  | charBytes | encoding | isCachedString | realData | integerData | rawData | closureParts
  | envEnclos | promiseValue | externalAddress | inspect | refCount | sharing | mayMutate
  | symbolName | symbolValue | symbolLookupCache | weakRefKey | weakRefValue | heldByTask
deriving DecidableEq, Repr, Inhabited

/-- Questions about the heap as a whole. -/
inductive Report
  | dump | stats | config | symbolCount | protectDepth | contextDepth | byteCodeDepth
  | weakRefCount | hasPendingFinalizers | pendingFinalizerCount | phase | lastCollection
  | pendingObjects | released
deriving DecidableEq, Repr, Inhabited

/-- Slots that a single setter writes. -/
inductive Setter
  | car | cdr | tag | attrib | promiseValue | symbolValue
deriving DecidableEq, Repr, Inhabited

/-- What a task does to an object. -/
inductive TaskAction
  | beginOutput | finishOutput | beginInput | finishInput
deriving DecidableEq, Repr, Inhabited

/-- Calls that make an object, or answer why there is none. -/
inductive Request
  | allocate (kind : Kind) (length : Nat) (roots : List Operand)
  | cons (car cdr : Operand)
  | lcons (car cdr : Operand)
  | closure (formals body env : Operand)
  | environment (names values : List Operand) (parent : Operand)
  | promise (expr env : Operand)
  | externalPtr (address : Nat) (tag inner : Operand)
  | byteCode (code consts : Operand)
  | nativeFunction (routine : Nat)
  | string (bytes : Bytes) (encoding : Encoding)
  | symbol (name : Bytes)
  | duplicate (h : Operand)
  | duplicateIfShared (h : Operand)
  | weakRef (key value finalizer : Operand) (onExit : Bool)
  | nativeFinalizer (key : Operand) (routine : Nat) (onExit : Bool)
  | closureFinalizer (key closure : Operand) (onExit : Bool)
deriving Repr, Inhabited

inductive Command
  | request (r : Request)
  | allocateFast (kind : Kind) (length : Nat)
  | ask (q : Query) (h : Operand)
  | report (r : Report)
  | vectorElt (h : Operand) (index : Nat)
  | set (s : Setter) (h value : Operand)
  | setVectorElt (h : Operand) (index : Nat) (value : Operand)
  | setObjectBit (h : Operand) (value : Bool)
  | touch (h : Operand)
  | setReal (h : Operand) (values : Array Float)
  | setInteger (h : Operand) (values : Array Int32)
  | setRaw (h : Operand) (values : Bytes)
  | incrementRefCount (h : Operand)
  | decrementRefCount (h : Operand)
  | defineVar (env sym value : Operand)
  | findVar (env sym : Operand)
  | findVarInFrame (env sym : Operand)
  | removeVar (env sym : Operand)
  | pushRoot (h : Operand)
  | pushRootWithIndex (h : Operand) (slot : String)
  | reprotect (h : Operand) (slot : String)
  | popRoots (n : Nat)
  | preserve (h : Operand)
  | release (h : Operand)
  | beginContext (fields : List (ContextField × Operand))
  | setContext (fields : List (ContextField × Operand))
  | endContext
  | byteCodePush (h : Operand)
  | byteCodePop (n : Nat)
  | setHandlerStack (h : Operand)
  | setRestartStack (h : Operand)
  | addRootSource (handles : List Operand)
  | setRootSource (id : Nat) (handles : List Operand)
  | removeRootSource (id : Nat)
  | runPendingFinalizers
  | runExitFinalizers
  | enterScope (name : String)
  | leaveScope (name : String)
  | setEvaluator (name : String) (routine : Nat)
  | collect (level : Level)
  | observe
  | stopObserving
  | freed
  | log
  | runs
  | setScheduler (s : Scheduler)
  | task (a : TaskAction) (h : Operand)
  | move (h : Operand)
  | replaceHeap
deriving Repr, Inhabited

/-- How a script ends: well, with an error, or by giving up in the middle. -/
inductive Ending
  | ok
  | error (message : String)
  | panic (p : Panic)
deriving DecidableEq, Repr, Inhabited

inductive Step
  /-- Run a command and store the object that it answers, if any, in a register. -/
  | command (c : Command) (store : Option String)
  /-- Run steps inside a protection scope. -/
  | scope (steps : List Step)
  /-- Run steps a number of times, up to the first error. -/
  | times (n : Nat) (steps : List Step)
  /-- Set what a routine does. -/
  | setScript (routine : Nat) (steps : List Step) (ending : Ending)
deriving Inhabited

/-- The body of a routine. -/
structure Script where
  steps : List Step := []
  ending : Ending := .ok
deriving Inhabited

end ManagedHeap.Session
