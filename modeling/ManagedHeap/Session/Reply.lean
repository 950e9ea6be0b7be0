import ManagedHeap.Session.Command

/-!
# Replies

What the commands of a session answer.
-/

namespace ManagedHeap.Session

open ManagedHeap

/-- Who ran a script. -/
inductive Caller
  | native (routine : Nat)
  | evaluator (name : String) (finalizer : Handle)
deriving DecidableEq, Repr, Inhabited

/-- One run of a script: its caller, the key and whether it was alive, and the replies of
its steps once it has ended. -/
structure Run (ρ : Type) where
  caller : Caller
  key : Handle
  live : Bool
  replies : Option (List ρ) := none
deriving Inhabited

inductive Reply
  | unit
  | handle (h : Handle)
  | handles (hs : List Handle)
  | flag (b : Bool)
  | number (n : Nat)
  | error (e : HeapError)
  | kind (k : Kind)
  | generation (g : Generation)
  | flags (fs : Flags)
  | encoding (e : Encoding)
  | refCount (r : RefCount)
  | sharing (s : HeapM.Sharing)
  | phase (p : Phase)
  | bytes (b : Bytes)
  | integers (v : Array Int32)
  | reals (v : Array Float)
  | notRaw
  | object (h : Handle) (c : Cell)
  | objects (cs : List (Handle × Cell))
  | stats (s : Stats)
  | config (c : Config)
  | outcome (o : Outcome)
  | taskState (pending inUse : Bool)
  | freed (hs : List (Handle × Kind))
  | events (es : List Event)
  | runs (rs : List (Run Reply))
  | scope (base : Nat) (replies : List Reply) (depth : Nat)
  | rounds (completed : Nat) (last : Option Reply)
deriving Inhabited

namespace Reply

def isError : Reply → Bool
  | error _ => true
  | _ => false

def handle? : Reply → Option Handle
  | handle h => some h
  | _ => none

def ofHandle? : Option Handle → Reply
  | some h => handle h
  | none => unit

def ofExcept {α : Type} (f : α → Reply) : Except HeapError α → Reply
  | .ok a => f a
  | .error e => error e

end Reply

end ManagedHeap.Session
