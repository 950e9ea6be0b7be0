import ManagedHeap.Heap.Basic

/-!
# The string cache

Buckets of interned strings, chained through their attribute slots. The marker
skips those slots, so the cache keeps no string alive; the sweep takes a string
out of its chain right before its cell is released. A string that names a
symbol is never taken out. The number of buckets doubles when the load passes
17/20.
-/

namespace ManagedHeap

namespace StringCache

def bucketOf (c : StringCache) (hash : UInt32) : Nat := hash.toNat % c.buckets.size

def head (c : StringCache) (bucket : Nat) : Handle := c.buckets[bucket]?.getD .nil

def setHead (c : StringCache) (bucket : Nat) (h : Handle) : StringCache :=
  { c with buckets := c.buckets.setIfInBounds bucket h }

/-- One more string would pass the load factor, and there is room to grow. -/
def needsGrowth (c : StringCache) : Bool :=
  c.buckets.size < c.maxSize && 17 * c.buckets.size < 20 * (c.entries + 1)

end StringCache

namespace HeapM

def modifyStrings (f : StringCache → StringCache) : HeapM Unit :=
  modify fun heap => { heap with strings := f heap.strings }

def searchChain (bytes : Bytes) (encoding : Encoding) (hash : UInt32) (cursor : Handle) :
    Nat → HeapM (Option Handle)
  | 0 => throw .unfinished
  | fuel + 1 => do
    if cursor.isNil then return none
    let cell ← cell cursor
    match cell.payload with
    | .charString b e h =>
      if h = hash ∧ e = encoding ∧ b = bytes then return some cursor
      else searchChain bytes encoding hash cell.attrib fuel
    | _ => searchChain bytes encoding hash cell.attrib fuel

def findCached (bytes : Bytes) (encoding : Encoding) (hash : UInt32) : HeapM (Option Handle) := do
  let strings := (← get).strings
  searchChain bytes encoding hash (strings.head (strings.bucketOf hash)) (← walkBound)

def cachedHash (h : Handle) : HeapM UInt32 := do
  match ← payload h with
  | .charString _ _ hash => return hash
  | _ => wrongKind h .cachedString

def linkString (h : Handle) (hash : UInt32) : HeapM Unit := do
  let strings := (← get).strings
  let bucket := strings.bucketOf hash
  let next := strings.head bucket
  updateCell h fun c => { c with attrib := next }
  modifyStrings fun strings => strings.setHead bucket h

def relinkChain (cursor : Handle) : Nat → HeapM Unit
  | 0 => throw .unfinished
  | fuel + 1 => do
    if cursor.isNil then return
    let next := (← cell cursor).attrib
    linkString cursor (← cachedHash cursor)
    relinkChain next fuel

def relinkChains (fuel : Nat) : List Handle → HeapM Unit
  | [] => pure ()
  | head :: heads => do
    relinkChain head fuel
    relinkChains fuel heads

/-- Double the buckets, up to the most there may be, and relink every string. -/
def growStrings : HeapM Unit := do
  let old := (← get).strings
  let size := min (old.buckets.size * 2) old.maxSize
  modifyStrings fun strings => { strings with buckets := Array.replicate size .nil }
  relinkChains (← walkBound) old.buckets.toList
  note (.cacheResized size old.entries)

def cacheString (h : Handle) (bytes : Bytes) (encoding : Encoding) (hash : UInt32)
    (ascii : Bool) : HeapM Unit := do
  updateCell h fun c =>
    { c.mapFlags fun fs => { fs with cached := true, ascii := fs.ascii || ascii } with
      payload := .charString bytes encoding hash }
  if (← get).strings.needsGrowth then growStrings
  linkString h hash
  modifyStrings fun strings => { strings with entries := strings.entries + 1 }

def isCachedString (h : Handle) : HeapM Bool := do
  if (← kind h) = .charString then return (← flags h).cached else return false

def unlinkString (h next cursor : Handle) : Nat → HeapM Unit
  | 0 => throw .unfinished
  | fuel + 1 => do
    if cursor.isNil then throw (.stringMissing h)
    let link := (← cell cursor).attrib
    if link = h then updateCell cursor fun c => { c with attrib := next }
    else unlinkString h next link fuel

/-- Take an unmarked string out of the cache, unless it names a symbol. Answers whether
its cell may be released. -/
def evictString (h : Handle) (fs : Flags) : HeapM Bool := do
  if fs.symbolName then return false
  let hash ← cachedHash h
  let strings := (← get).strings
  let bucket := strings.bucketOf hash
  let next := (← cell h).attrib
  if strings.head bucket = h then
    modifyStrings fun strings => strings.setHead bucket next
  else
    unlinkString h next (strings.head bucket) (← walkBound)
  modifyStrings fun strings => { strings with entries := strings.entries - 1 }
  return true

end HeapM

end ManagedHeap
