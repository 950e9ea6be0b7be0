import ManagedHeap.Handle

/-!
# Background tasks

Tasks compute outputs from inputs in the background and never touch the heap.
The registry counts, for every object, the unfinished tasks that write it and
those that read it. A scheduler is what the collector sees of the registry.
A task that is waited for finishes at once.
-/

namespace ManagedHeap

/-- How many unfinished tasks write and read one object. -/
structure TaskUse where
  outputs : Nat := 0
  inputs : Nat := 0
deriving DecidableEq, Repr, Inhabited

def TaskUse.isIdle (u : TaskUse) : Bool := u.outputs == 0 && u.inputs == 0

structure PendingObjects where
  entries : List (Handle × TaskUse) := []
  /-- Idle entries dropped so far. -/
  released : Nat := 0
deriving DecidableEq, Repr, Inhabited

namespace PendingObjects

def get? (p : PendingObjects) (h : Handle) : Option TaskUse :=
  (p.entries.find? (·.1 == h)).map (·.2)

/-- What the registry knows of an object; an unknown object is idle. -/
def use (p : PendingObjects) (h : Handle) : TaskUse := (p.get? h).getD {}

def modify (p : PendingObjects) (h : Handle) (f : TaskUse → TaskUse) : PendingObjects :=
  { p with entries := p.entries.map fun e => if e.1 = h then (e.1, f e.2) else e }

def upsert (p : PendingObjects) (h : Handle) (f : TaskUse → TaskUse) : PendingObjects :=
  match p.get? h with
  | some _ => p.modify h f
  | none => { p with entries := p.entries ++ [(h, f {})] }

def beginOutput (p : PendingObjects) (h : Handle) : PendingObjects :=
  p.upsert h fun u => { u with outputs := u.outputs + 1 }

def finishOutput (p : PendingObjects) (h : Handle) : PendingObjects :=
  p.modify h fun u => { u with outputs := u.outputs - 1 }

def beginInput (p : PendingObjects) (h : Handle) : PendingObjects :=
  p.upsert h fun u => { u with inputs := u.inputs + 1 }

def finishInput (p : PendingObjects) (h : Handle) : PendingObjects :=
  p.modify h fun u => { u with inputs := u.inputs - 1 }

def isPending (p : PendingObjects) (h : Handle) : Bool := 0 < (p.use h).outputs

def isInUse (p : PendingObjects) (h : Handle) : Bool := 0 < (p.use h).inputs

def settleOutputs (p : PendingObjects) (h : Handle) : PendingObjects :=
  p.modify h fun u => { u with outputs := 0 }

def settleInputs (p : PendingObjects) (h : Handle) : PendingObjects :=
  p.modify h fun u => { u with inputs := 0 }

def held (p : PendingObjects) : List Handle :=
  (p.entries.filter fun e => !e.2.isIdle).map (·.1)

def releaseCached (p : PendingObjects) : PendingObjects :=
  let kept := p.entries.filter fun e => !e.2.isIdle
  { entries := kept, released := p.released + (p.entries.length - kept.length) }

theorem get?_modify (p : PendingObjects) (h k : Handle) (f : TaskUse → TaskUse) :
    (p.modify h f).get? k = if k = h then (p.get? k).map f else p.get? k := by
  obtain ⟨entries, released⟩ := p
  simp only [get?, modify]
  induction entries with
  | nil => simp
  | cons e es ih =>
    by_cases hk : k = h
    · subst hk
      by_cases he : e.1 = k <;> simp_all
    · by_cases he : e.1 = h
      · have hne : h ≠ k := Ne.symm hk
        simp_all
      · by_cases hek : e.1 = k <;> simp_all

theorem get?_upsert (p : PendingObjects) (h k : Handle) (f : TaskUse → TaskUse) :
    (p.upsert h f).get? k = if k = h then some (f (p.use h)) else p.get? k := by
  unfold upsert
  cases hp : p.get? h with
  | some u =>
    simp only [get?_modify, use, hp, Option.getD_some]
    by_cases hk : k = h
    · subst hk; simp [hp]
    · simp [hk]
  | none =>
    by_cases hk : k = h
    · subst hk
      simp only [get?, Option.map_eq_none_iff] at hp
      simp [get?, use, hp, List.find?_append]
    · have : (h == k) = false := by simp [Ne.symm hk]
      simp [get?, List.find?_append, hk, this]

end PendingObjects

def sortHandles (hs : List Handle) : List Handle :=
  hs.mergeSort fun a b => a.bits.toNat ≤ b.bits.toNat

/-- What the collector sees of the tasks: nothing, the whole registry, or only its
outputs and waits. -/
inductive Scheduler
  | none | registry | minimal
deriving DecidableEq, Repr, Inhabited

structure Tasks where
  scheduler : Scheduler := .none
  registry : PendingObjects := {}
deriving DecidableEq, Repr, Inhabited

namespace Tasks

def isPending (t : Tasks) (h : Handle) : Bool :=
  match t.scheduler with
  | .none => false
  | .registry | .minimal => t.registry.isPending h

def isInUse (t : Tasks) (h : Handle) : Bool :=
  match t.scheduler with
  | .none | .minimal => false
  | .registry => t.registry.isInUse h

def isHeld (t : Tasks) (h : Handle) : Bool := t.isPending h || t.isInUse h

def held (t : Tasks) : List Handle :=
  match t.scheduler with
  | .none => []
  | .registry | .minimal => t.registry.held

def awaitOutput (t : Tasks) (h : Handle) : Tasks :=
  match t.scheduler with
  | .none => t
  | .registry | .minimal => { t with registry := t.registry.settleOutputs h }

def awaitInput (t : Tasks) (h : Handle) : Tasks :=
  match t.scheduler with
  | .none => t
  | .registry | .minimal => { t with registry := t.registry.settleInputs h }

def releaseCached (t : Tasks) : Tasks :=
  match t.scheduler with
  | .none | .minimal => t
  | .registry => { t with registry := t.registry.releaseCached }

end Tasks

end ManagedHeap
