import ManagedHeap.Header
import ManagedHeap.Config

/-!
# Collection policy

When an allocation collects first, and how deep. A level collects all
generations up to its own. The next automatic collection goes deeper when its
level has run too often in a row or recovers too little, and a full collection
is due at a fixed period. Policy never decides which objects survive.
-/

namespace ManagedHeap

inductive Level
  | minor | mid | full
deriving DecidableEq, Repr, Inhabited

namespace Level

def index : Level → Nat
  | minor => 0
  | mid => 1
  | full => 2

def ofIndex : Nat → Level
  | 0 => minor
  | 1 => mid
  | _ => full

def name : Level → String
  | minor => "Minor"
  | mid => "Mid"
  | full => "Full"

def deeper? : Level → Option Level
  | minor => some mid
  | mid => some full
  | full => none

def upward : Level → List Level
  | minor => [minor, mid, full]
  | mid => [mid, full]
  | full => [full]

def covers (l : Level) (g : Generation) : Bool := g.index ≤ l.index

def promotionTarget (l : Level) : Generation := .ofIndex (l.index + 1)

theorem covers_mono {l : Level} {g k : Generation} (h : g.index ≤ k.index)
    (hk : l.covers k = true) : l.covers g = true := by
  simp only [covers, decide_eq_true_eq] at *
  omega

end Level

/-- Why a collection ran. -/
inductive Reason
  | requested | countdown | largeAllocation | exhausted | torture
deriving DecidableEq, Repr, Inhabited

def Reason.name : Reason → String
  | requested => "Requested"
  | countdown => "Countdown"
  | largeAllocation => "LargeAllocation"
  | exhausted => "Exhausted"
  | torture => "Torture"

/-- Objects and big chunks of one generation. -/
structure GenerationUsage where
  objects : Nat := 0
  bigChunks : Nat := 0
deriving DecidableEq, Repr, Inhabited

/-- One value for each generation. -/
structure PerGeneration (α : Type) where
  young : α
  middle : α
  old : α
deriving DecidableEq, Repr, Inhabited

namespace PerGeneration

variable {α : Type}

def get (p : PerGeneration α) : Generation → α
  | .young => p.young
  | .middle => p.middle
  | .old => p.old

def modify (p : PerGeneration α) (g : Generation) (f : α → α) : PerGeneration α :=
  match g with
  | .young => { p with young := f p.young }
  | .middle => { p with middle := f p.middle }
  | .old => { p with old := f p.old }

def replicate (a : α) : PerGeneration α := ⟨a, a, a⟩

def toList (p : PerGeneration α) : List α := [p.young, p.middle, p.old]

theorem get_modify (p : PerGeneration α) (g k : Generation) (f : α → α) :
    (p.modify g f).get k = if k = g then f (p.get k) else p.get k := by
  cases g <;> cases k <;> simp [get, modify]

end PerGeneration

/-- The countdown to the next collection and the memory of the past ones. -/
structure Strategy where
  interval : Nat
  sinceCollection : Nat := 0
  minorLimit : Nat
  midLimit : Nat
  minorCount : Nat := 0
  midCount : Nat := 0
  fullPeriod : Nat
  sinceFull : Nat := 0
  recovery : PerGeneration Float := .replicate 1.0
  minRecovery : Float
  smoothing : Float
  largeFraction : Float
deriving Repr, Inhabited

namespace Strategy

def ofConfig (c : Config) : Strategy :=
  { interval := c.collectInterval, minorLimit := c.minorLimit, midLimit := c.midLimit,
    fullPeriod := c.fullPeriod, minRecovery := c.minRecovery,
    smoothing := c.recoverySmoothing, largeFraction := c.largeFraction }

/-- Large requests never collect first while the live big storage is below this. -/
def largeFloor : Nat := 4096

def noteAllocation (s : Strategy) : Strategy :=
  { s with sinceCollection := s.sinceCollection + 1 }

def countdownExpired (s : Strategy) : Bool := s.interval ≤ s.sinceCollection

def toFloat (n : Nat) : Float := (UInt64.ofNat n).toFloat

def trigger (s : Strategy) (chunks liveChunks : Nat) : Option Reason :=
  if 0 < chunks && largeFloor ≤ liveChunks &&
      toFloat chunks > s.largeFraction * toFloat liveChunks then
    some .largeAllocation
  else if s.countdownExpired then some .countdown
  else none

def chooseLevel (s : Strategy) : Level :=
  if s.fullPeriod ≤ s.sinceFull + 1 then .full
  else if s.minorLimit ≤ s.minorCount || s.recovery.young < s.minRecovery then
    if s.midLimit ≤ s.midCount || s.recovery.middle < s.minRecovery then .full else .mid
  else .minor

def smooth (s : Strategy) (old : Float) (before freed : Nat) : Float :=
  if before = 0 then old
  else s.smoothing * (toFloat freed / toFloat before) + (1.0 - s.smoothing) * old

/-- Take note of a finished collection: the objects there were and those reclaimed. -/
def record (s : Strategy) (level : Level) (before freed : PerGeneration Nat) : Strategy :=
  let update (g : Generation) (old : Float) : Float :=
    if level.covers g then s.smooth old (before.get g) (freed.get g) else old
  let s := { s with
    recovery :=
      { young := update .young s.recovery.young
        middle := update .middle s.recovery.middle
        old := update .old s.recovery.old }
    sinceCollection := 0 }
  match level with
  | .minor => { s with minorCount := s.minorCount + 1, sinceFull := s.sinceFull + 1 }
  | .mid =>
    { s with minorCount := 0, midCount := s.midCount + 1, sinceFull := s.sinceFull + 1 }
  | .full => { s with minorCount := 0, midCount := 0, sinceFull := 0 }

end Strategy

end ManagedHeap
