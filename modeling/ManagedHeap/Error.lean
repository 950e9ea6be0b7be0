import ManagedHeap.Config
import ManagedHeap.Payload

/-!
# Failures

Three kinds of failure are kept apart. A `HeapError` is an answer: the request
could not be met and the heap goes on. A `FinalizerError` is what one finalizer
reports; it is counted and never passed on. A `Fault` is a broken invariant:
the heap cannot go on, so a faulting computation has no state afterwards.
-/

namespace ManagedHeap

inductive HeapError
  | outOfMemory (kind : Kind) (length : Nat)
  | protectStackOverflow (limit : Nat)
  | invalidKind (kind : Kind)
  | invalidLength (kind : Kind) (length : Nat)
  | notAWeakReference
  | indexOutOfBounds (index length : Nat)
  | config (cause : ConfigError)
deriving Repr, Inhabited

namespace HeapError

def name : HeapError → String
  | outOfMemory _ _ => "OutOfMemory"
  | protectStackOverflow _ => "ProtectStackOverflow"
  | invalidKind _ => "InvalidKind"
  | invalidLength _ _ => "InvalidLength"
  | notAWeakReference => "NotAWeakReference"
  | indexOutOfBounds _ _ => "IndexOutOfBounds"
  | config _ => "Config"

def message : HeapError → String
  | outOfMemory kind length =>
    "cannot allocate " ++ kind.name ++ s!" of length {length}: heap exhausted"
  | protectStackOverflow limit => s!"protect(): protection stack overflow (limit {limit})"
  | invalidKind kind => "objects of kind " ++ kind.name ++ " cannot be allocated directly"
  | invalidLength kind length => s!"invalid length {length} for " ++ kind.name
  | notAWeakReference => "not a weak reference"
  | indexOutOfBounds index length => s!"index {index} out of bounds for length {length}"
  | config cause => cause.message

def detail : HeapError → String
  | outOfMemory kind length =>
    "OutOfMemory \x7b kind: " ++ kind.name ++ s!", length: {length} \x7d"
  | protectStackOverflow limit => s!"ProtectStackOverflow \x7b limit: {limit} \x7d"
  | invalidKind kind => "InvalidKind(" ++ kind.name ++ ")"
  | invalidLength kind length =>
    "InvalidLength \x7b kind: " ++ kind.name ++ s!", length: {length} \x7d"
  | notAWeakReference => "NotAWeakReference"
  | indexOutOfBounds index length =>
    s!"IndexOutOfBounds \x7b index: {index}, length: {length} \x7d"
  | config cause => "Config(" ++ cause.detail ++ ")"

end HeapError

/-- What a finalizer that gave up in the middle of its work left behind. -/
inductive Panic
  | text (message : String)
  | opaqueValue
deriving DecidableEq, Repr, Inhabited

/-- The failure of one finalizer. -/
structure FinalizerError where
  message : String
deriving DecidableEq, Repr, Inhabited

namespace FinalizerError

def ofPanic : Panic → FinalizerError
  | .text message => ⟨"panicked: " ++ message⟩
  | .opaqueValue => ⟨"panicked: non-string payload"⟩

def text (e : FinalizerError) : String := "finalizer failed: " ++ e.message

end FinalizerError

/-- What an operation expects an object to be. -/
inductive Shape
  | pair | handleVector | stringVector | charString | realVector | integerVector | rawVector
  | closure | environment | promise | externalPointer | symbol | cachedString | nativeFunction
deriving DecidableEq, Repr, Inhabited

def Shape.name : Shape → String
  | pair => "pair"
  | handleVector => "handle vector"
  | stringVector => "string vector"
  | charString => "char string"
  | realVector => "real vector"
  | integerVector => "integer or logical vector"
  | rawVector => "raw vector"
  | closure => "closure"
  | environment => "environment"
  | promise => "promise"
  | externalPointer => "external pointer"
  | symbol => "symbol"
  | cachedString => "cached char string"
  | nativeFunction => "native function"

/-- A broken invariant. -/
inductive Fault
  | dangling (h : Handle)
  | outsideArena (h : Handle) (segments : Nat)
  | alreadyFree
  | wrongKind (h : Handle) (kind : Kind) (expected : Shape)
  | notReal (h : Handle) (payload : Payload)
  | notInteger (h : Handle) (payload : Payload)
  | attributesOnCachedString
  | redZoneExhausted
  | popTooMany (depth count : Nat)
  | reprotectAbove (index depth : Nat)
  | scopeBelowBase
  | recoveryBelowBase
  | stringMissing (h : Handle)
  | chainHoldsOther (h : Handle)
  | chainLength
  | recordMissing
  | finalizerKind (h : Handle) (kind : Kind)
  | reentered
  | noFirstSegment
  | permanentMisplaced
  | capacityOverflow
  /-- A walk did not end within the number of steps it was given. -/
  | unfinished
deriving Repr, Inhabited

def Fault.message : Fault → String
  | dangling h => "dangling handle " ++ h.text
  | outsideArena h segments => "handle " ++ h.text ++ s!" outside the arena ({segments} segments)"
  | alreadyFree => "releasing a cell that is already free"
  | wrongKind h kind expected =>
    h.text ++ " is a " ++ kind.name ++ ", expected " ++ expected.name
  | notReal h payload => h.text ++ " is not a real vector: " ++ payload.text
  | notInteger h payload => h.text ++ " is not an integer vector: " ++ payload.text
  | attributesOnCachedString => "attributes on a cached string"
  | redZoneExhausted => "protection stack red zone exhausted"
  | popTooMany depth count =>
    s!"unprotect: only {depth} protected handles, asked to pop {count}"
  | reprotectAbove index depth => s!"reprotect at {index} above stack depth {depth}"
  | scopeBelowBase => "protection scope popped below its base"
  | recoveryBelowBase => "protection stack popped below a recovery scope"
  | stringMissing h => "cached string " ++ h.text ++ " missing from its bucket"
  | chainHoldsOther h => "weak chain holds non-record " ++ h.text
  | chainLength => "weak chain length does not match its count"
  | recordMissing => "weak record missing from its chain"
  | finalizerKind h kind => "finalizer " ++ h.text ++ " is a " ++ kind.name
  | reentered => "collector re-entered during a collection"
  | noFirstSegment => "cannot create the first segment"
  | permanentMisplaced => "permanent objects landed at unexpected handles"
  | capacityOverflow => "capacity overflow"
  | unfinished => "a bounded walk did not end"

end ManagedHeap
