import ManagedHeap.Heap.Construct

/-!
# Symbols and bindings

Symbols are unique by print name and live as long as the heap. An environment
holds its bindings in a frame, a list of tagged pairs. A symbol remembers the
environment in which it was found last; every collection forgets that.
-/

namespace ManagedHeap

namespace HeapM

def symbolName (sym : Handle) : HeapM Handle := do
  match ← payload sym with
  | .symbol name _ _ _ => return name
  | _ => wrongKind sym .symbol

def symbolValue (sym : Handle) : HeapM Handle := do
  match ← payload sym with
  | .symbol _ value _ _ => return value
  | _ => wrongKind sym .symbol

def setSymbolValue (sym value : Handle) : HeapM Unit := do
  let old ← exchange sym .symbol fun
    | .symbol name old internal lastEnv => some (old, .symbol name value internal lastEnv)
    | _ => none
  replaceReference old value

def symbolLookupCache (sym : Handle) : HeapM Handle := do
  match ← payload sym with
  | .symbol _ _ _ lastEnv => return lastEnv
  | _ => wrongKind sym .symbol

def nameSymbol (sym name : Handle) : HeapM Unit := do
  updateCell name fun c =>
    (c.mapFlags fun fs => { fs with symbolName := true }).mapRefCount .increment
  updateCell sym fun c =>
    match c.payload with
    | .symbol _ value internal lastEnv => { c with payload := .symbol name value internal lastEnv }
    | _ => c

def envFrame (env : Handle) : HeapM Handle := do
  match ← payload env with
  | .environment frame _ => return frame
  | _ => wrongKind env .environment

def searchFrame (sym cell : Handle) : Nat → HeapM (Option Handle)
  | 0 => throw .unfinished
  | fuel + 1 => do
    if cell.isNil then return none
    if (← tag cell) = sym then return some cell
    searchFrame sym (← cdr cell) fuel

def frameBinding (env sym : Handle) : HeapM (Option Handle) := do
  searchFrame sym (← envFrame env) (← walkBound)

def findVarInFrame (env sym : Handle) : HeapM (Option Handle) := do
  match ← frameBinding env sym with
  | some cell => return some (← car cell)
  | none => return none

def searchEnvironments (sym env : Handle) : Nat → HeapM (Option Handle)
  | 0 => throw .unfinished
  | fuel + 1 => do
    if env.isNil then
      let base ← symbolValue sym
      return if base = .unbound then none else some base
    match ← findVarInFrame env sym with
    | some value =>
      updateCell sym fun c =>
        match c.payload with
        | .symbol name base internal _ => { c with payload := .symbol name base internal env }
        | _ => c
      return some value
    | none => searchEnvironments sym (← envEnclos env) fuel

/-- The value of a symbol in the innermost environment that binds it, or else its base
binding. -/
def findVar (env sym : Handle) : HeapM (Option Handle) := do
  searchEnvironments sym env (← walkBound)

def setFrame (env frame : Handle) : HeapM Unit := do
  let old ← exchange env .environment fun
    | .environment old enclos => some (old, .environment frame enclos)
    | _ => none
  replaceReference old frame

def unbindFrom (env sym previous cell : Handle) : Nat → HeapM Bool
  | 0 => throw .unfinished
  | fuel + 1 => do
    if cell.isNil then return false
    let next ← cdr cell
    if (← tag cell) = sym then
      if previous.isNil then setFrame env next else setCdr previous next
      decrementRefCount (← car cell)
      return true
    unbindFrom env sym cell next fuel

/-- Remove the binding of a symbol from an environment. Answers whether there was one. -/
def removeVar (env sym : Handle) : HeapM Bool := do
  unbindFrom env sym .nil (← envFrame env) (← walkBound)

end HeapM

namespace HostM

variable {ω : Type}

open HeapM

def nameEncoding (name : Bytes) : Encoding :=
  if (ByteArray.mk name).validateUTF8 then .utf8 else .native

def internSymbol (host : Host ω) (name : Bytes) : Attempt ω Handle := do
  match (← getThe Heap).symbols.find? name with
  | some sym => return sym
  | none =>
    if name.isEmpty then throw (.invalidLength .symbol 0)
    let pname ← internString host name (nameEncoding name)
    let sym ← allocate host .symbol 0 [pname]
    nameSymbol sym pname
    modifyThe Heap fun heap => { heap with symbols := heap.symbols.insert name sym }
    return sym

/-- Bind a symbol in an environment, in place of a binding that is already there. -/
def defineVar (host : Host ω) (env sym value : Handle) : Attempt ω Unit := do
  match ← frameBinding env sym with
  | some cell => setCar cell value
  | none =>
    let frame ← envFrame env
    let cell ← allocate host .pair 0 [env, sym, value]
    setCar cell value
    setCdr cell frame
    setTag cell sym
    setFrame env cell

end HostM

end ManagedHeap
