import ManagedHeap.Handle
import ManagedHeap.Kind
import ManagedHeap.Decimal

/-!
# Configuration

Limits and policy constants of a heap, the checks a configuration has to pass,
and the reading of a configuration from named text variables. A variable whose
text cannot be read leaves the default in place.
-/

namespace ManagedHeap

structure Config where
  /-- Cells of one segment. -/
  segmentCells : Nat := 1024
  /-- Limit on the total number of cells. -/
  maxCells : Option Nat := none
  /-- Limit on the live storage of large vectors, in chunks. -/
  maxVectorChunks : Option Nat := none
  /-- Allocations between two collections. -/
  collectInterval : Nat := 10000
  /-- Minor collections in a row before the next goes deeper. -/
  minorLimit : Nat := 20
  /-- Middle collections in a row before the next goes deeper. -/
  midLimit : Nat := 5
  /-- Collections per full collection. -/
  fullPeriod : Nat := 50
  /-- Smoothed recovery below which the next collection goes deeper. -/
  minRecovery : Float := 0.2
  /-- Weight of the newest recovery sample. -/
  recoverySmoothing : Float := 0.5
  /-- Share of the live big storage above which a large request collects first. -/
  largeFraction : Float := 0.25
  /-- Lowest collection level that traces symbol names. -/
  nameMarkLevel : Nat := 1
  /-- Nominal depth of the protection stack. -/
  protectDepth : Nat := 50000
  /-- Extra depth while an overflow is being reported. -/
  redZone : Nat := 1000
  /-- Buckets of the string cache at the start. -/
  cacheInitial : Nat := 1024
  /-- Most buckets of the string cache. -/
  cacheMax : Nat := 1048576
  /-- Collect before every allocation. -/
  torture : Bool := false
  /-- Report every collection. -/
  verbose : Bool := false
deriving Repr, Inhabited

/-- Why a configuration is refused. -/
inductive ConfigError
  | zero (field : String)
  | segmentTooLarge (cells : Nat)
  | notPowerOfTwo (field : String) (value : Nat)
  | fractionOutOfRange (field : String) (value : Float)
  | cacheBounds (initial max : Nat)
  | limitBelowSegment (max segment : Nat)
  | invalidLevel (level : Nat)
deriving Repr, Inhabited

namespace ConfigError

def name : ConfigError → String
  | zero _ => "Zero"
  | segmentTooLarge _ => "SegmentTooLarge"
  | notPowerOfTwo _ _ => "NotPowerOfTwo"
  | fractionOutOfRange _ _ => "FractionOutOfRange"
  | cacheBounds _ _ => "CacheBounds"
  | limitBelowSegment _ _ => "LimitBelowSegment"
  | invalidLevel _ => "InvalidLevel"

def message : ConfigError → String
  | zero field => s!"{field} must be non-zero"
  | segmentTooLarge cells =>
    s!"segment_cells {cells} exceeds the handle offset capacity of {maxSegmentCells}"
  | notPowerOfTwo field value => s!"{field} must be a power of two, got {value}"
  | fractionOutOfRange field value =>
    field ++ " must lie in (0, 1], got " ++ Decimal.plain value
  | cacheBounds initial max =>
    s!"string_cache_max_size {max} is below string_cache_initial_size {initial}"
  | limitBelowSegment max segment =>
    s!"max_cells {max} cannot hold a single segment of {segment} cells"
  | invalidLevel level => s!"name_mark_level must be 0, 1 or 2, got {level}"

def detail : ConfigError → String
  | zero field => s!"Zero \x7b field: \"{field}\" \x7d"
  | segmentTooLarge cells => s!"SegmentTooLarge({cells})"
  | notPowerOfTwo field value =>
    s!"NotPowerOfTwo \x7b field: \"{field}\", value: {value} \x7d"
  | fractionOutOfRange field value =>
    s!"FractionOutOfRange \x7b field: \"{field}\", value: " ++ Decimal.listing value ++ " \x7d"
  | cacheBounds initial max => s!"CacheBounds \x7b initial: {initial}, max: {max} \x7d"
  | limitBelowSegment max segment =>
    s!"LimitBelowSegment \x7b max: {max}, segment: {segment} \x7d"
  | invalidLevel level => s!"InvalidLevel({level})"

end ConfigError

def isPowerOfTwo (n : Nat) : Bool := n != 0 && 1 <<< n.log2 == n

namespace Config

/-- The first of the named values that fails the test, as an error. -/
def refuse {α : Type} (fields : List (String × α)) (ok : α → Bool)
    (error : String → α → ConfigError) : Except ConfigError Unit :=
  match fields.find? fun f => !ok f.2 with
  | some (field, value) => .error (error field value)
  | none => .ok ()

theorem refuse_eq_ok_iff {α : Type} (fields : List (String × α)) (ok : α → Bool)
    (error : String → α → ConfigError) :
    refuse fields ok error = .ok () ↔ ∀ f ∈ fields, ok f.2 = true := by
  unfold refuse
  cases hf : fields.find? fun f => !ok f.2 with
  | none => simpa using hf
  | some f =>
    have hmem := List.mem_of_find?_eq_some hf
    have hbad := List.find?_some hf
    simp only [reduceCtorEq, false_iff]
    intro all
    simp [all f hmem] at hbad

/-- The checks of a configuration, in the order in which they are reported. -/
def validate (c : Config) : Except ConfigError Unit := do
  refuse
    [("segment_cells", c.segmentCells), ("collect_interval", c.collectInterval),
      ("full_collection_period", c.fullPeriod), ("protect_stack_size", c.protectDepth),
      ("protect_red_zone", c.redZone), ("string_cache_initial_size", c.cacheInitial)]
    (· != 0) (fun field _ => .zero field)
  if c.segmentCells > maxSegmentCells then
    throw (.segmentTooLarge c.segmentCells)
  match c.maxCells with
  | some max => if max < c.segmentCells then throw (.limitBelowSegment max c.segmentCells)
  | none => pure ()
  refuse
    [("string_cache_initial_size", c.cacheInitial), ("string_cache_max_size", c.cacheMax)]
    isPowerOfTwo .notPowerOfTwo
  if c.cacheMax < c.cacheInitial then
    throw (.cacheBounds c.cacheInitial c.cacheMax)
  refuse
    [("min_recovery", c.minRecovery), ("recovery_smoothing", c.recoverySmoothing),
      ("large_alloc_fraction", c.largeFraction)]
    (fun x => x > 0 && x ≤ 1) .fractionOutOfRange
  if c.nameMarkLevel > 2 then
    throw (.invalidLevel c.nameMarkLevel)

def isBlank (c : Char) : Bool :=
  let n := c.toNat
  (9 ≤ n && n ≤ 13) || n == 32 || n == 0x85 || n == 0xA0 || n == 0x1680 ||
    (0x2000 ≤ n && n ≤ 0x200A) || n == 0x2028 || n == 0x2029 || n == 0x202F ||
    n == 0x205F || n == 0x3000

def trim (text : List Char) : List Char :=
  ((text.dropWhile isBlank).reverse.dropWhile isBlank).reverse

def digit? (c : Char) : Option Nat :=
  if '0' ≤ c && c ≤ '9' then some (c.toNat - '0'.toNat) else none

def readWord? (text : String) : Option Nat :=
  let body := match trim text.toList with
    | '+' :: rest => rest
    | all => all
  if body.isEmpty then none
  else
    (body.mapM digit?).bind fun ds =>
      let n := ds.foldl (fun n d => 10 * n + d) 0
      if n ≤ wordMax then some n else none

def readSwitch? (text : String) : Option Bool :=
  let word := String.ofList ((trim text.toList).map Char.toLower)
  if ["1", "true", "yes", "on"].contains word then some true
  else if ["0", "false", "no", "off"].contains word then some false
  else none

/-- The default configuration with the variables that can be read laid over it. A limit
of zero is no limit. -/
def ofVariables (lookup : String → Option String) : Config :=
  let word (name : String) (ok : Nat → Bool) : Option Nat :=
    ((lookup name).bind readWord?).filter ok
  let switch (name : String) : Option Bool := (lookup name).bind readSwitch?
  let limit (name : String) : Option Nat := word name (0 < ·)
  let d : Config := {}
  { d with
    segmentCells := (word "SEGMENT_CELLS" fun n => 0 < n && n ≤ maxSegmentCells).getD d.segmentCells
    maxCells := limit "MAX_CELLS"
    maxVectorChunks := limit "MAX_VECTOR_CHUNKS"
    collectInterval := (word "COLLECT_INTERVAL" (0 < ·)).getD d.collectInterval
    fullPeriod := (word "FULL_PERIOD" (0 < ·)).getD d.fullPeriod
    nameMarkLevel := (word "NAME_MARK_LEVEL" (· ≤ 2)).getD d.nameMarkLevel
    protectDepth := (word "PPSTACK_SIZE" (0 < ·)).getD d.protectDepth
    torture := (switch "TORTURE").getD d.torture
    verbose := (switch "VERBOSE").getD d.verbose }

end Config

end ManagedHeap
