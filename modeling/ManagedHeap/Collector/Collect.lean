import ManagedHeap.Collector.Weak
import ManagedHeap.Collector.Sweep

/-!
# Collections

A collection settles the tasks, marks from the roots and from what tasks hold,
resolves the weak records, sweeps, and tells the policy how it went. Finalizers
never run inside a collection.
-/

namespace ManagedHeap

/-- Everything a heap reports about itself. -/
structure Stats where
  classes : List ClassUsage
  liveObjects : Nat
  capacity : Nat
  bigChunks : Nat
  generations : PerGeneration GenerationUsage
  collections : PerGeneration Nat
  recovery : PerGeneration Float
  finalizersRun : Nat
  finalizerFailures : Nat
  pendingFinalizers : Nat
  weakRefs : Nat
  cachedStrings : Nat
  stringBuckets : Nat
  remembered : Nat
  protectDepth : Nat
  taskWaits : Nat
deriving Repr, Inhabited

namespace HeapM

def setPhase (phase : Phase) : HeapM Unit :=
  modify fun heap => { heap with counters := { heap.counters with phase } }

def awaitTasks (h : Handle) : HeapM Unit :=
  modify fun heap =>
    { heap with
      tasks := (heap.tasks.awaitOutput h).awaitInput h
      counters := { heap.counters with taskWaits := heap.counters.taskWaits + 1 } }

def awaitLarge : List Handle → HeapM Unit
  | [] => pure ()
  | h :: hs => do
    let arena := (← get).arena
    if arena.contains h then
      let c ← arena.classOf h
      if c.isLarge then awaitTasks h
    awaitLarge hs

def quiesce (level : Level) : HeapM Unit := do
  modify fun heap => { heap with tasks := heap.tasks.releaseCached }
  if level = .full then awaitLarge (← get).tasks.held

def marking {α : Type} (act : MarkM α) : HeapM (α × Nat) :=
  onArena fun arena =>
    match act { arena } with
    | .ok (a, m) => .ok ((a, m.marked), m.arena)
    | .error e => .error e

/-- Mark everything that survives. Answers how many weak records became ready, and how
many objects were marked. -/
def markAll (level : Level) : HeapM (Nat × Nat) := do
  let heap ← get
  let scan : Scan := { level, withNames := heap.config.nameMarkLevel ≤ level.index }
  clearLookupCaches heap.symbols.handles
  let roots ← rootHandles
  let remembered := heap.remembered.toList
  let tasks := heap.tasks
  let chain := heap.weak
  marking do
    MarkM.markRoots scan roots remembered
    MarkM.markTasks scan tasks
    MarkM.resolveWeak scan chain

def stats : HeapM Stats := do
  let pendingFinalizers ← pendingFinalizerCount
  let heap ← get
  return {
    classes := NodeClass.all.map heap.arena.usage
    liveObjects := heap.arena.liveCells
    capacity := heap.arena.capacity
    bigChunks := heap.bigChunksLive
    generations := heap.generations
    collections := heap.counters.collections
    recovery := heap.strategy.recovery
    finalizersRun := heap.finalizers.run
    finalizerFailures := heap.finalizers.failed
    pendingFinalizers
    weakRefs := heap.weak.length
    cachedStrings := heap.strings.entries
    stringBuckets := heap.strings.buckets.size
    remembered := heap.remembered.size
    protectDepth := heap.protect.depth
    taskWaits := heap.counters.taskWaits }

def collect (level : Level) (reason : Reason) : HeapM Outcome := do
  if (← get).collecting then throw .reentered
  modify fun heap => { heap with collecting := true }
  let before := (← get).objectCounts
  setPhase .quiescing
  quiesce level
  setPhase .marking
  let (newlyReady, marked) ← markAll level
  setPhase .sweeping
  let freed ← sweep level
  let kept ← pruneRemembered (← get).remembered.toList
  modify fun heap => { heap with remembered := kept.toArray }
  setPhase .adjusting
  let g := level.index
  modify fun heap =>
    { heap with
      strategy := heap.strategy.record level before freed
      counters :=
        { heap.counters with
          collections := heap.counters.collections.modify (.ofIndex g) (· + 1) }
      journal := heap.journal.record (.collected level) }
  let outcome : Outcome := { level, reason, marked, freed, newlyReady }
  note (.collectionFinished level reason marked outcome.totalFreed)
  if (← get).config.verbose then
    let stats ← stats
    note (.collectionReport level (← get).counters.collections stats.liveObjects stats.bigChunks)
  modify fun heap =>
    { heap with
      counters := { heap.counters with last := some outcome, phase := .idle }
      collecting := false }
  return outcome

end HeapM

end ManagedHeap
