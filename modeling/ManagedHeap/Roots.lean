import ManagedHeap.Handle

/-!
# Roots outside the protection stack

The control state of an evaluator: its contexts, its byte-code stack, the
preserved list, the handlers and restarts in force, outside sources of roots,
and the handles that a running operation keeps alive for itself.
-/

namespace ManagedHeap

/-- The handles that one frame of the evaluator holds. -/
structure EvalContext where
  call : Handle := .nil
  callfun : Handle := .nil
  cloenv : Handle := .nil
  sysparent : Handle := .nil
  promargs : Handle := .nil
  onExit : Handle := .nil
  handlerStack : Handle := .nil
  restartStack : Handle := .nil
  srcref : Handle := .nil
  returnValue : Handle := .nil
deriving DecidableEq, Repr, Inhabited

/-- A slot of a context. -/
inductive ContextField
  | call | callfun | cloenv | sysparent | promargs | onExit | handlerStack | restartStack
  | srcref | returnValue
deriving DecidableEq, Repr, Inhabited

namespace ContextField

def all : List ContextField :=
  [call, callfun, cloenv, sysparent, promargs, onExit, handlerStack, restartStack, srcref,
    returnValue]

def name : ContextField → String
  | call => "call"
  | callfun => "callfun"
  | cloenv => "cloenv"
  | sysparent => "sysparent"
  | promargs => "promargs"
  | onExit => "on_exit"
  | handlerStack => "handler_stack"
  | restartStack => "restart_stack"
  | srcref => "srcref"
  | returnValue => "return_value"

def ofName? (text : String) : Option ContextField := all.find? (·.name == text)

end ContextField

namespace EvalContext

def get (c : EvalContext) : ContextField → Handle
  | .call => c.call
  | .callfun => c.callfun
  | .cloenv => c.cloenv
  | .sysparent => c.sysparent
  | .promargs => c.promargs
  | .onExit => c.onExit
  | .handlerStack => c.handlerStack
  | .restartStack => c.restartStack
  | .srcref => c.srcref
  | .returnValue => c.returnValue

def set (c : EvalContext) (f : ContextField) (h : Handle) : EvalContext :=
  match f with
  | .call => { c with call := h }
  | .callfun => { c with callfun := h }
  | .cloenv => { c with cloenv := h }
  | .sysparent => { c with sysparent := h }
  | .promargs => { c with promargs := h }
  | .onExit => { c with onExit := h }
  | .handlerStack => { c with handlerStack := h }
  | .restartStack => { c with restartStack := h }
  | .srcref => { c with srcref := h }
  | .returnValue => { c with returnValue := h }

def handles (c : EvalContext) : List Handle := ContextField.all.map c.get

def setAll (c : EvalContext) (fields : List (ContextField × Handle)) : EvalContext :=
  fields.foldl (fun c f => c.set f.1 f.2) c

end EvalContext

/-- An outside holder of roots. -/
structure RootSource where
  id : Nat
  handles : List Handle
deriving DecidableEq, Repr, Inhabited

structure RootSet where
  contexts : Array EvalContext := #[]
  byteCode : Array Handle := #[]
  preserved : Array Handle := #[]
  /-- What an operation under way keeps alive. -/
  transient : Array Handle := #[]
  handlerStack : Handle := .nil
  restartStack : Handle := .nil
  sources : List RootSource := []
  nextSource : Nat := 0
deriving Repr, Inhabited

namespace RootSet

/-- All roots of the set, in the order in which the collector visits them. -/
def handles (r : RootSet) : List Handle :=
  r.contexts.toList.flatMap EvalContext.handles ++ r.byteCode.toList ++ r.preserved.toList ++
    r.transient.toList ++ [r.handlerStack, r.restartStack] ++ r.sources.flatMap RootSource.handles

def beginContext (r : RootSet) (c : EvalContext) : RootSet :=
  { r with contexts := r.contexts.push c }

def endContext (r : RootSet) : Option EvalContext × RootSet :=
  (r.contexts.back?, { r with contexts := r.contexts.pop })

def modifyContext (r : RootSet) (f : EvalContext → EvalContext) : RootSet :=
  { r with contexts := r.contexts.modify (r.contexts.size - 1) f }

def pushByteCode (r : RootSet) (h : Handle) : RootSet :=
  { r with byteCode := r.byteCode.push h }

/-- Drop entries of the byte-code stack, at most as many as there are. -/
def popByteCode (r : RootSet) (n : Nat) : RootSet :=
  { r with byteCode := r.byteCode.shrink (r.byteCode.size - n) }

def preserve (r : RootSet) (h : Handle) : RootSet :=
  { r with preserved := r.preserved.push h }

/-- Undo the latest pin of a handle; its place is filled by the last pin of all. -/
def release? (r : RootSet) (h : Handle) : Option RootSet :=
  match (List.range r.preserved.size).reverse.find? fun i => r.preserved[i]? == some h with
  | none => none
  | some i =>
    let last := r.preserved.back?.getD h
    some { r with preserved := (r.preserved.setIfInBounds i last).pop }

def addSource (r : RootSet) (handles : List Handle) : Nat × RootSet :=
  (r.nextSource,
    { r with sources := r.sources ++ [⟨r.nextSource, handles⟩], nextSource := r.nextSource + 1 })

def setSource (r : RootSet) (id : Nat) (handles : List Handle) : RootSet :=
  { r with sources := r.sources.map fun s => if s.id = id then { s with handles } else s }

def removeSource? (r : RootSet) (id : Nat) : Option RootSet :=
  if r.sources.any (·.id == id) then
    some { r with sources := r.sources.filter (·.id != id) }
  else none

end RootSet

end ManagedHeap
