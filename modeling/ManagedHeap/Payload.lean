import ManagedHeap.Handle
import ManagedHeap.Kind
import ManagedHeap.Decimal

/-!
# Payloads

The kind-specific part of a cell. `children` is the one place that knows which
slots the collector traces: a symbol's lookup cache and the fields of a weak
record are left out, and a symbol's name is included only on request.
-/

namespace ManagedHeap

abbrev Bytes := Array UInt8

inductive Payload
  | free
  | nil
  /-- `lastEnv` caches the environment of the last look-up. -/
  | symbol (name value internal lastEnv : Handle)
  | pair (car cdr tag : Handle)
  | closure (formals body env : Handle)
  | environment (frame enclos : Handle)
  | promise (expr env value : Handle)
  | charString (bytes : Bytes) (encoding : Encoding) (hash : UInt32)
  | logical (elements : Array Int32)
  | integer (elements : Array Int32)
  | real (elements : Array Float)
  | raw (elements : Bytes)
  | handles (elements : Array Handle)
  | byteCode (code consts : Handle)
  | externalPtr (address : Nat) (tag inner : Handle)
  | weakRef (key value finalizer next : Handle)
  /-- The routine that is called, or none for the one that does nothing. -/
  | nativeFunction (routine : Option Nat)
deriving Repr, Inhabited

namespace Payload

def reserveLimit : Nat := 9223372036854775807

/-- The payload of a fresh object; none if its storage cannot be reserved. -/
def forKind? (kind : Kind) (length : Nat) : Option Payload :=
  if length * kind.elementSize > reserveLimit then none
  else some <| match kind with
    | .free => free
    | .nil => nil
    | .symbol => symbol .nil .unbound .nil .nil
    | .pair | .language => pair .nil .nil .nil
    | .closure => closure .nil .nil .nil
    | .environment => environment .nil .nil
    | .promise => promise .nil .nil .unbound
    | .charString => charString (Array.replicate length 0) .native 0
    | .logicalVector => logical (Array.replicate length 0)
    | .integerVector => integer (Array.replicate length 0)
    | .realVector => real (Array.replicate length 0)
    | .rawVector => raw (Array.replicate length 0)
    | .stringVector | .list | .expression => handles (Array.replicate length .nil)
    | .byteCode => byteCode .nil .nil
    | .externalPtr => externalPtr 0 .nil .nil
    | .weakRef => weakRef .nil .nil .nil .nil
    | .nativeFunction => nativeFunction none

def length : Payload → Nat
  | charString bytes _ _ => bytes.size
  | logical v | integer v => v.size
  | real v => v.size
  | raw v => v.size
  | handles v => v.size
  | _ => 0

def children (p : Payload) (withNames : Bool) : List Handle :=
  match p with
  | symbol name value internal _ =>
    if withNames then [name, value, internal] else [value, internal]
  | pair car cdr tag => [car, cdr, tag]
  | closure formals body env => [formals, body, env]
  | environment frame enclos => [frame, enclos]
  | promise expr env value => [expr, env, value]
  | handles elements => elements.toList
  | byteCode code consts => [code, consts]
  | externalPtr _ tag inner => [tag, inner]
  | _ => []

theorem mem_children_of_mem {p : Payload} {h : Handle} (hh : h ∈ p.children false) :
    h ∈ p.children true := by
  cases p <;> simp_all [children]

def slots : Payload → List (String × Handle)
  | symbol name value internal lastEnv =>
    [("name", name), ("value", value), ("internal", internal), ("last_env", lastEnv)]
  | pair car cdr tag => [("car", car), ("cdr", cdr), ("tag", tag)]
  | closure formals body env => [("formals", formals), ("body", body), ("env", env)]
  | environment frame enclos => [("frame", frame), ("enclos", enclos)]
  | promise expr env value => [("expr", expr), ("env", env), ("value", value)]
  | byteCode code consts => [("code", code), ("consts", consts)]
  | externalPtr _ tag inner => [("tag", tag), ("protected", inner)]
  | weakRef key value finalizer next =>
    [("key", key), ("value", value), ("finalizer", finalizer), ("next", next)]
  | _ => []

def withSlots (p : Payload) (lookup : String → Option Handle) : Payload :=
  let fill (name : String) (old : Handle) : Handle := (lookup name).getD old
  match p with
  | symbol name value internal lastEnv =>
    symbol (fill "name" name) (fill "value" value) (fill "internal" internal)
      (fill "last_env" lastEnv)
  | pair car cdr tag => pair (fill "car" car) (fill "cdr" cdr) (fill "tag" tag)
  | closure formals body env =>
    closure (fill "formals" formals) (fill "body" body) (fill "env" env)
  | environment frame enclos => environment (fill "frame" frame) (fill "enclos" enclos)
  | promise expr env value => promise (fill "expr" expr) (fill "env" env) (fill "value" value)
  | byteCode code consts => byteCode (fill "code" code) (fill "consts" consts)
  | externalPtr address tag inner =>
    externalPtr address (fill "tag" tag) (fill "protected" inner)
  | weakRef key value finalizer next =>
    weakRef (fill "key" key) (fill "value" value) (fill "finalizer" finalizer) (fill "next" next)
  | other => other

def withElements (p : Payload) (hs : List Handle) : Payload :=
  match p with
  | handles elements =>
    handles (hs.toArray.take elements.size ++ elements.drop hs.length)
  | other => other

def text : Payload → String
  | free => "Free"
  | nil => "Nil"
  | charString b e h => record "CharString"
      [("bytes", items (b.toList.map fun x => toString x.toNat)), ("encoding", e.name),
        ("hash", toString h.toNat)]
  | logical v => "Logical(" ++ items (v.toList.map fun x => toString x.toInt) ++ ")"
  | integer v => "Integer(" ++ items (v.toList.map fun x => toString x.toInt) ++ ")"
  | real v => "Real(" ++ items (v.toList.map Decimal.listing) ++ ")"
  | raw v => "Raw(" ++ items (v.toList.map fun x => toString x.toNat) ++ ")"
  | handles v => "Handles(" ++ items (v.toList.map Handle.text) ++ ")"
  | externalPtr a t i => record "ExternalPtr"
      (("address", toString a) :: named (slots (externalPtr a t i)))
  | nativeFunction _ => "NativeFunction"
  | symbol n v i e => record "Symbol" (named (slots (symbol n v i e)))
  | pair a d t => record "Pair" (named (slots (pair a d t)))
  | closure f b e => record "Closure" (named (slots (closure f b e)))
  | environment f e => record "Environment" (named (slots (environment f e)))
  | promise x e v => record "Promise" (named (slots (promise x e v)))
  | byteCode c k => record "ByteCode" (named (slots (byteCode c k)))
  | weakRef k v f n => record "WeakRef" (named (slots (weakRef k v f n)))
where
  named (fields : List (String × Handle)) : List (String × String) :=
    fields.map fun f => (f.1, f.2.text)
  items (texts : List String) : String := "[" ++ String.intercalate ", " texts ++ "]"
  record (name : String) (fields : List (String × String)) : String :=
    name ++ " \x7b " ++ String.intercalate ", " (fields.map fun f => f.1 ++ ": " ++ f.2) ++ " \x7d"

end Payload

end ManagedHeap
