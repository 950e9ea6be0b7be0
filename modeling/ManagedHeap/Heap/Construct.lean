import ManagedHeap.Heap.Allocate

/-!
# Constructors

Every constructor keeps its arguments alive while it allocates, fills the slots
of the new object, and counts one reference for each slot it fills.
-/

namespace ManagedHeap.HostM

variable {ω : Type}

open HeapM

def attempt {α : Type} (act : HeapM (Except HeapError α)) : Attempt ω α :=
  ExceptT.mk (liftM act)

/-- Run an attempt and take back every protection that it leaves, however it ends. -/
def protecting {α : Type} (act : Attempt ω α) : Attempt ω α := ExceptT.mk do
  let base ← protectDepth
  let result ← act.run
  closeScope base
  return result

def setPayload (h : Handle) (payload : Payload) : HeapM Unit :=
  updateCell h fun c => { c with payload }

def countReferences : List Handle → HeapM Unit
  | [] => pure ()
  | h :: hs => do
    incrementRefCount h
    countReferences hs

def construct (host : Host ω) (kind : Kind) (payload : Payload) (slots : List Handle) :
    Attempt ω Handle := do
  let h ← allocate host kind 0 slots
  setPayload h payload
  countReferences slots
  return h

def cons (host : Host ω) (car cdr : Handle) : Attempt ω Handle :=
  construct host .pair (.pair car cdr .nil) [car, cdr]

def lcons (host : Host ω) (car cdr : Handle) : Attempt ω Handle :=
  construct host .language (.pair car cdr .nil) [car, cdr]

def makeClosure (host : Host ω) (formals body env : Handle) : Attempt ω Handle :=
  construct host .closure (.closure formals body env) [formals, body, env]

def makePromise (host : Host ω) (expr env : Handle) : Attempt ω Handle :=
  construct host .promise (.promise expr env .unbound) [expr, env]

def makeExternalPtr (host : Host ω) (address : Nat) (tag inner : Handle) : Attempt ω Handle :=
  construct host .externalPtr (.externalPtr address tag inner) [tag, inner]

def makeByteCode (host : Host ω) (code consts : Handle) : Attempt ω Handle :=
  construct host .byteCode (.byteCode code consts) [code, consts]

/-- A native routine as an object, so that it can serve as a finalizer. -/
def makeNativeFunction (host : Host ω) (routine : Nat) : Attempt ω Handle :=
  construct host .nativeFunction (.nativeFunction (some routine)) []

def bindAll (host : Host ω) (frame : Handle) : List (Handle × Handle) → Attempt ω Handle
  | [] => return frame
  | (name, value) :: rest => do
    let cell ← allocate host .pair 0 [frame]
    setPayload cell (.pair value frame name)
    countReferences [value, frame, name]
    bindAll host cell rest

/-- An environment that binds each name to the value at the same place. -/
def makeEnvironment (host : Host ω) (names values : List Handle) (parent : Handle) :
    Attempt ω Handle := do
  if names.length ≠ values.length then
    throw (.invalidLength .environment values.length)
  ExceptT.mk <| withTransient (names ++ values ++ [parent]) <| ExceptT.run do
    let frame ← bindAll host .nil (names.zip values).reverse
    let env ← allocate host .environment 0 [frame]
    setPayload env (.environment frame parent)
    countReferences [frame, parent]
    return env

def makeWeakRef (host : Host ω) (key value finalizer : Handle) (onExit : Bool) :
    Attempt ω Handle := do
  if !finalizer.isNil then
    let kind ← HeapM.kind finalizer
    if kind != .closure && kind != .nativeFunction then throw (.invalidKind kind)
  let record ← allocate host .weakRef 0 [key, value, finalizer]
  linkWeakRef record key value finalizer onExit
  return record

/-- What can be registered to run when a key dies. -/
inductive Finalizer
  | native (routine : Nat)
  | closure (h : Handle)
deriving DecidableEq, Repr, Inhabited

/-- Register a finalizer for a key. Answers the weak record that carries it. -/
def registerFinalizer (host : Host ω) (key : Handle) (finalizer : Finalizer) (onExit : Bool) :
    Attempt ω Handle := protecting do
  let _ ← attempt (pushRoot key)
  let function ← match finalizer with
    | .native routine => makeNativeFunction host routine
    | .closure h => pure h
  let _ ← attempt (pushRoot function)
  makeWeakRef host key .nil function onExit

/-- The cached string with these bytes and this encoding, made if there is none. -/
def internString (host : Host ω) (bytes : Bytes) (encoding : Encoding) : Attempt ω Handle := do
  let ascii := bytes.all (· < 128)
  let encoding := encoding.normalize ascii
  let hash := (← getThe Heap).strings.hash bytes encoding
  match ← findCached bytes encoding hash with
  | some h => return h
  | none =>
    let h ← allocate host .charString bytes.size []
    cacheString h bytes encoding hash ascii
    return h

end ManagedHeap.HostM
