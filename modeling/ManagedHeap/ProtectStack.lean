import ManagedHeap.Error

/-!
# The protection stack

Handles on this stack are roots until they are popped. Reaching the nominal
depth is recoverable once: the push fails, and a red zone just deep enough for
reporting the failure is unlocked until the depth falls below the nominal one
again. Running out of the red zone too is a fault.
-/

namespace ManagedHeap

structure ProtectStack where
  slots : Array Handle
  nominal : Nat
  redZone : Nat
  /-- The depth at which the next push does not fit. -/
  limit : Nat
deriving Repr, Inhabited

namespace ProtectStack

def empty (nominal redZone : Nat) : ProtectStack :=
  { slots := #[], nominal, redZone, limit := nominal }

def depth (s : ProtectStack) : Nat := s.slots.size

def inRedZone (s : ProtectStack) : Bool := s.limit > s.nominal

/-- Push a handle and answer its index, or unlock the red zone. Depths are machine words. -/
def push (s : ProtectStack) (h : Handle) : Except Fault (Except HeapError Nat × ProtectStack) :=
  if s.depth < s.limit then
    .ok (.ok s.depth, { s with slots := s.slots.push h })
  else if s.limit = s.nominal ∧ 0 < s.redZone then
    .ok (.error (.protectStackOverflow s.nominal),
      { s with limit := (s.nominal + s.redZone) % (wordMax + 1) })
  else
    .error .redZoneExhausted

def truncate (s : ProtectStack) (depth : Nat) : ProtectStack :=
  let slots := s.slots.shrink depth
  let limit := if s.limit > s.nominal ∧ slots.size < s.nominal then s.nominal else s.limit
  { s with slots, limit }

def pop (s : ProtectStack) (n : Nat) : Except Fault ProtectStack :=
  if n > s.depth then .error (.popTooMany s.depth n) else .ok (s.truncate (s.depth - n))

def reprotect (s : ProtectStack) (h : Handle) (index : Nat) : Except Fault ProtectStack :=
  if index < s.depth then .ok { s with slots := s.slots.setIfInBounds index h }
  else .error (.reprotectAbove index s.depth)

theorem depth_truncate (s : ProtectStack) (d : Nat) : (s.truncate d).depth = min d s.depth := by
  simp [truncate, depth]

end ProtectStack

end ManagedHeap
