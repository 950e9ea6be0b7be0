import ManagedHeap.Session.Reply
import ManagedHeap.Heap.Duplicate

/-!
# Sessions

A session runs steps on a heap. Its state beside the heap holds the registers,
the scripts of the routines, and the record of their runs. A finalizer runs a
script with the steps of the session itself, one level deeper; the number of
levels is bounded, and so is every loop over what scripts leave behind.
-/

namespace ManagedHeap

namespace Session

def assign {α β : Type} [BEq α] (pairs : List (α × β)) (name : α) (value : β) : List (α × β) :=
  (name, value) :: pairs.filter fun p => !(p.1 == name)

/-- The state around the heap. -/
structure State where
  registers : List (String × Handle) := []
  protectSlots : List (String × Nat) := []
  scopes : List (String × RecoveryScope) := []
  /-- What the heap calls each root source, by the number that the session gave it. -/
  sources : Array Nat := #[]
  scripts : List (Nat × Script) := []
  runs : Array (Run Reply) := #[]
deriving Inhabited

abbrev SessionM := HostM State

namespace State

def register (s : State) (name : String) : Handle := (s.registers.lookup name).getD .nil

def setRegister (s : State) (name : String) (h : Handle) : State :=
  { s with registers := assign s.registers name h }

def script (s : State) (routine : Nat) : Script := (s.scripts.lookup routine).getD {}

/-- What the heap calls a root source, unless a later source goes by the same name: then
the earlier one was left behind with an earlier heap. -/
def currentSource? (s : State) (number : Nat) : Option Nat :=
  s.sources[number]?.filter fun id => !(s.sources.toList.drop (number + 1)).contains id

end State

def value : Operand → SessionM Handle
  | .handle h => return h
  | .register name => return (← getThe State).register name

def values (os : List Operand) : SessionM (List Handle) := os.mapM value

def request (host : Host State) (r : Request) : Attempt State Handle := do
  let value (o : Operand) : Attempt State Handle := liftM (value o)
  match r with
  | .allocate kind length roots => HostM.allocate host kind length (← liftM (values roots))
  | .cons car cdr => HostM.cons host (← value car) (← value cdr)
  | .lcons car cdr => HostM.lcons host (← value car) (← value cdr)
  | .closure formals body env =>
    HostM.makeClosure host (← value formals) (← value body) (← value env)
  | .environment names vals parent =>
    HostM.makeEnvironment host (← liftM (values names)) (← liftM (values vals)) (← value parent)
  | .promise expr env => HostM.makePromise host (← value expr) (← value env)
  | .externalPtr address tag inner =>
    HostM.makeExternalPtr host address (← value tag) (← value inner)
  | .byteCode code consts => HostM.makeByteCode host (← value code) (← value consts)
  | .nativeFunction routine => HostM.makeNativeFunction host routine
  | .string bytes encoding => HostM.internString host bytes encoding
  | .symbol name => HostM.internSymbol host name
  | .duplicate h => HostM.duplicate host (← value h)
  | .duplicateIfShared h => HostM.duplicateIfShared host (← value h)
  | .weakRef key val finalizer onExit =>
    HostM.makeWeakRef host (← value key) (← value val) (← value finalizer) onExit
  | .nativeFinalizer key routine onExit =>
    HostM.registerFinalizer host (← value key) (.native routine) onExit
  | .closureFinalizer key closure onExit =>
    HostM.registerFinalizer host (← value key) (.closure (← value closure)) onExit

def ask (q : Query) (h : Handle) : HeapM Reply := do
  match q with
  | .isLive => return .flag (← HeapM.isLive h)
  | .kind => return .kind (← HeapM.kind h)
  | .generation => return .generation (← HeapM.generation h)
  | .flags => return .flags (← HeapM.flags h)
  | .attrib => return .handle (← HeapM.attrib h)
  | .length => return .number (← HeapM.length h)
  | .car => return .handle (← HeapM.car h)
  | .cdr => return .handle (← HeapM.cdr h)
  | .tag => return .handle (← HeapM.tag h)
  | .listLength => return .number (← HeapM.listLength h)
  | .charBytes => return .bytes (← HeapM.charBytes h)
  | .encoding => return .encoding (← HeapM.encoding h)
  | .isCachedString => return .flag (← HeapM.isCachedString h)
  | .realData => return .reals (← HeapM.realData h)
  | .integerData => return .integers (← HeapM.integerData h)
  | .rawData => return .bytes (← HeapM.rawData h)
  | .closureParts =>
    let (formals, body, env) ← HeapM.closureParts h
    return .handles [formals, body, env]
  | .envEnclos => return .handle (← HeapM.envEnclos h)
  | .promiseValue => return .handle (← HeapM.promiseValue h)
  | .externalAddress => return .number (← HeapM.externalAddress h)
  | .inspect => return .object h (← HeapM.cell h)
  | .refCount => return .refCount (← HeapM.refCount h)
  | .sharing => return .sharing (← HeapM.sharing h)
  | .mayMutate => return .flag (← HeapM.mayMutate h)
  | .symbolName => return .handle (← HeapM.symbolName h)
  | .symbolValue => return .handle (← HeapM.symbolValue h)
  | .symbolLookupCache => return .handle (← HeapM.symbolLookupCache h)
  | .weakRefKey => return .ofExcept .handle (← HeapM.weakRefKey h)
  | .weakRefValue => return .ofExcept .handle (← HeapM.weakRefValue h)
  | .heldByTask => return .flag ((← get).tasks.isHeld h)

/-- Every live object that is not permanent, in the order of handles. -/
def objects (arena : Arena) : List (Handle × Cell) :=
  arena.positions.filterMap fun h =>
    (arena.get? h).bind fun c => if c.flags.permanent then none else some (h, c)

def report (r : Report) : HeapM Reply := do
  let heap ← get
  match r with
  | .dump => return .objects (objects heap.arena)
  | .stats => return .stats (← HeapM.stats)
  | .config => return .config heap.config
  | .symbolCount => return .number heap.symbols.size
  | .protectDepth => return .number heap.protect.depth
  | .contextDepth => return .number heap.roots.contexts.size
  | .byteCodeDepth => return .number heap.roots.byteCode.size
  | .weakRefCount => return .number heap.weak.length
  | .hasPendingFinalizers => return .flag (0 < (← HeapM.pendingFinalizerCount))
  | .pendingFinalizerCount => return .number (← HeapM.pendingFinalizerCount)
  | .phase => return .phase heap.counters.phase
  | .lastCollection =>
    match heap.counters.last with
    | some outcome => return .outcome outcome
    | none => return .unit
  | .pendingObjects => return .handles (sortHandles heap.tasks.held)
  | .released => return .number heap.tasks.registry.released

def set : Setter → Handle → Handle → HeapM Unit
  | .car => HeapM.setCar
  | .cdr => HeapM.setCdr
  | .tag => HeapM.setTag
  | .attrib => HeapM.setAttrib
  | .promiseValue => HeapM.setPromiseValue
  | .symbolValue => HeapM.setSymbolValue

/-- Let a task act on an object. Answers what the registry then says of it. -/
def task (a : TaskAction) (h : Handle) : HeapM Reply := do
  let act : PendingObjects → PendingObjects := match a with
    | .beginOutput => (·.beginOutput h)
    | .finishOutput => (·.finishOutput h)
    | .beginInput => (·.beginInput h)
    | .finishInput => (·.finishInput h)
  modify fun heap =>
    { heap with tasks := { heap.tasks with registry := act heap.tasks.registry } }
  let registry := (← get).tasks.registry
  return .taskState (registry.isPending h) (registry.isInUse h)

def fieldValues (fields : List (ContextField × Operand)) :
    SessionM (List (ContextField × Handle)) :=
  fields.mapM fun f => return (f.1, ← value f.2)

def contextReply : Option EvalContext → Reply
  | some c => .handles c.handles
  | none => .unit

/-- Go on with a new heap. The task registry, the journal and the history stay. -/
def renewHeap : SessionM Unit := do
  let old ← getThe Heap
  let fresh ← liftM (m := Except Fault) (Heap.build {} old.strings.hash)
  MonadStateOf.set { fresh with
    journal :=
      { old.journal with
        observing := false
        history := old.journal.history ++ fresh.journal.history }
    tasks := { registry := old.tasks.registry } }

/-- Finalize the heap for its end and go on with a fresh one. The journal and the registry
of tasks stay; the observer, the evaluator and the scheduler go with the old heap. -/
def replaceHeap (host : Host State) : SessionM Unit := do
  let _ ← HostM.runExitFinalizers host
  renewHeap

def perform (host : Host State) : Command → SessionM Reply
  | .request r => return .ofExcept .handle (← (request host r).run)
  | .allocateFast kind length => return .handle (← HeapM.allocateFast kind length)
  | .ask q h => do ask q (← value h)
  | .report r => report r
  | .vectorElt h index => return .ofExcept .handle (← HeapM.vectorElt (← value h) index)
  | .set s h v => do
    set s (← value h) (← value v)
    return .unit
  | .setVectorElt h index v =>
    return .ofExcept (fun _ => .unit) (← HeapM.setVectorElt (← value h) index (← value v))
  | .setObjectBit h b => do
    HeapM.setObjectBit (← value h) b
    return .unit
  | .touch h => return .number (← HeapM.touch (← value h))
  | .setReal h vs => return .number (← HeapM.setRealData (← value h) vs)
  | .setInteger h vs => return .number (← HeapM.setIntegerData (← value h) vs)
  | .setRaw h vs => return ((← HeapM.setRawData (← value h) vs).map Reply.number).getD .notRaw
  | .incrementRefCount h => do
    HeapM.incrementRefCount (← value h)
    return .unit
  | .decrementRefCount h => do
    HeapM.decrementRefCount (← value h)
    return .unit
  | .defineVar env sym v => do
    let result ← (HostM.defineVar host (← value env) (← value sym) (← value v)).run
    return .ofExcept (fun _ => .unit) result
  | .findVar env sym => return .ofHandle? (← HeapM.findVar (← value env) (← value sym))
  | .findVarInFrame env sym =>
    return .ofHandle? (← HeapM.findVarInFrame (← value env) (← value sym))
  | .removeVar env sym => return .flag (← HeapM.removeVar (← value env) (← value sym))
  | .pushRoot h => return .ofExcept (fun _ => .unit) (← HeapM.pushRoot (← value h))
  | .pushRootWithIndex h slot => do
    let result ← HeapM.pushRoot (← value h)
    if let .ok index := result then
      modifyThe State fun s => { s with protectSlots := assign s.protectSlots slot index }
    return .ofExcept .number result
  | .reprotect h slot => do
    if let some index := (← getThe State).protectSlots.lookup slot then
      HeapM.reprotect (← value h) index
    return .unit
  | .popRoots n => do
    HeapM.popRoots n
    return .number (← HeapM.protectDepth)
  | .preserve h => do
    let h ← value h
    HeapM.modifyRoots (·.preserve h)
    return .unit
  | .release h => do
    match (← getThe Heap).roots.release? (← value h) with
    | some roots =>
      HeapM.modifyRoots fun _ => roots
      return .flag true
    | none => return .flag false
  | .beginContext fields => do
    let fields ← fieldValues fields
    HeapM.modifyRoots (·.beginContext (({} : EvalContext).setAll fields))
    return .number (← getThe Heap).roots.contexts.size
  | .setContext fields => do
    let fields ← fieldValues fields
    HeapM.modifyRoots (·.modifyContext (·.setAll fields))
    return contextReply (← getThe Heap).roots.contexts.back?
  | .endContext => do
    let (context, roots) := (← getThe Heap).roots.endContext
    HeapM.modifyRoots fun _ => roots
    return contextReply context
  | .byteCodePush h => do
    let h ← value h
    HeapM.modifyRoots (·.pushByteCode h)
    return .number (← getThe Heap).roots.byteCode.size
  | .byteCodePop n => do
    HeapM.modifyRoots (·.popByteCode n)
    return .number (← getThe Heap).roots.byteCode.size
  | .setHandlerStack h => do
    let h ← value h
    HeapM.modifyRoots fun r => { r with handlerStack := h }
    return .unit
  | .setRestartStack h => do
    let h ← value h
    HeapM.modifyRoots fun r => { r with restartStack := h }
    return .unit
  | .addRootSource hs => do
    let (id, roots) := (← getThe Heap).roots.addSource (← values hs)
    HeapM.modifyRoots fun _ => roots
    let number := (← getThe State).sources.size
    modifyThe State fun s => { s with sources := s.sources.push id }
    return .number number
  | .setRootSource number hs => do
    let hs ← values hs
    if let some id := (← getThe State).currentSource? number then
      HeapM.modifyRoots (·.setSource id hs)
    return .unit
  | .removeRootSource number => do
    let some id := (← getThe State).sources[number]? | return .flag false
    match (← getThe Heap).roots.removeSource? id with
    | some roots =>
      HeapM.modifyRoots fun _ => roots
      return .flag true
    | none => return .flag false
  | .runPendingFinalizers => return .number (← HostM.runPendingFinalizers host)
  | .runExitFinalizers => return .number (← HostM.runExitFinalizers host)
  | .enterScope name => do
    let scope ← HeapM.enterRecovery
    modifyThe State fun s => { s with scopes := assign s.scopes name scope }
    return .unit
  | .leaveScope name => do
    match (← getThe State).scopes.lookup name with
    | some scope => return .flag (← HeapM.leaveRecovery scope)
    | none => return .unit
  | .setEvaluator name routine => do
    modifyThe Heap fun heap => { heap with evaluator := some { name, routine } }
    return .unit
  | .collect level => return .outcome (← HostM.requestCollection host level)
  | .observe => do
    modifyThe Heap fun heap => { heap with journal := { heap.journal with observing := true } }
    return .unit
  | .stopObserving => do
    modifyThe Heap fun heap => { heap with journal := { heap.journal with observing := false } }
    return .unit
  | .freed => do
    let freed := (← getThe Heap).journal.freed.toList
    modifyThe Heap fun heap => { heap with journal := { heap.journal with freed := #[] } }
    return .freed freed
  | .log => do
    let events := (← getThe Heap).journal.events.toList
    modifyThe Heap fun heap => { heap with journal := { heap.journal with events := #[] } }
    return .events events
  | .runs => do
    let runs := (← getThe State).runs.toList
    modifyThe State fun s => { s with runs := #[] }
    return .runs runs
  | .setScheduler scheduler => do
    modifyThe Heap fun heap => { heap with tasks := { heap.tasks with scheduler } }
    return .unit
  | .task a h => do task a (← value h)
  | .move h => return .handle (← value h)
  | .replaceHeap => do
    replaceHeap host
    return .unit

/-- Repeat a round until it answers an error. A round answers its last reply. -/
def repeatRounds (round : SessionM (Option Reply)) (completed : Nat) (last : Option Reply) :
    Nat → SessionM Reply
  | 0 => return .rounds completed last
  | n + 1 => do
    let reply ← round
    if (reply.map Reply.isError).getD false then return .rounds completed reply
    repeatRounds round (completed + 1) (reply.or last) n

mutual

def runStep (host : Host State) : Step → SessionM Reply
  | .command c store => do
    let reply ← perform host c
    if let some name := store then
      if let some h := reply.handle? then
        modifyThe State fun s => s.setRegister name h
    return reply
  | .scope steps => do
    let base ← HeapM.protectDepth
    let replies ← runSteps host steps
    HeapM.closeScope base
    return .scope base replies (← HeapM.protectDepth)
  | .times n steps => repeatRounds (runRound host steps) 0 none n
  | .setScript routine steps ending => do
    modifyThe State fun s => { s with scripts := assign s.scripts routine { steps, ending } }
    return .unit

def runSteps (host : Host State) : List Step → SessionM (List Reply)
  | [] => return []
  | step :: steps => do
    let reply ← runStep host step
    let replies ← runSteps host steps
    return reply :: replies

def runRound (host : Host State) : List Step → SessionM (Option Reply)
  | [] => return none
  | step :: steps => do
    let reply ← runStep host step
    if reply.isError then return some reply
    return (← runRound host steps).or (some reply)

end

def runScript (host : Host State) (caller : Caller) (routine : Nat) (key : Handle) :
    SessionM (Except FinalizerError Unit) := do
  let script := (← getThe State).script routine
  let live ← HeapM.isLive key
  let index := (← getThe State).runs.size
  modifyThe State fun s =>
    { s.setRegister "key" key with runs := s.runs.push { caller, key, live } }
  let replies ← runSteps host script.steps
  modifyThe State fun s =>
    { s with runs := s.runs.modify index fun run => { run with replies := some replies } }
  match script.ending with
  | .ok => return .ok ()
  | .error message => return .error ⟨message⟩
  | .panic p => return .error (.ofPanic p)

def loopBound : Nat := 1000000

def nestingBound : Nat := 1000

/-- The foreign code of a session: the scripts, nested at most so many levels deep. -/
def hostWithin : Nat → Host State
  | 0 =>
    { fuel := loopBound
      native := fun _ _ => throwThe Fault .unfinished
      evaluate := fun _ _ _ => throwThe Fault .unfinished }
  | levels + 1 =>
    { fuel := loopBound
      native := fun routine key =>
        runScript (hostWithin levels) (.native routine) routine key
      evaluate := fun e finalizer key =>
        runScript (hostWithin levels) (.evaluator e.name finalizer) e.routine key }

def host : Host State := hostWithin nestingBound

/-- The replies of the steps that were completed, and the fault that stopped the rest. -/
structure Transcript where
  replies : List Reply
  fault : Option Fault
deriving Inhabited

/-- Run steps until one of them faults. The heap is finalized at the end. -/
def transcribe (state : State) (heap : Heap) : List Step → Transcript
  | [] =>
    match ((replaceHeap host).run state).run heap with
    | .error fault => { replies := [], fault := some fault }
    | .ok _ => { replies := [], fault := none }
  | step :: steps =>
    match ((runStep host step).run state).run heap with
    | .error fault => { replies := [], fault := some fault }
    | .ok ((reply, state), heap) =>
      let rest := transcribe state heap steps
      { rest with replies := reply :: rest.replies }

end Session

def runSession (config : Config) (steps : List Session.Step) :
    Except HeapError Session.Transcript :=
  match Heap.withConfig config with
  | .error fault => .ok { replies := [], fault := some fault }
  | .ok (.error e) => .error e
  | .ok (.ok heap) => .ok (Session.transcribe {} heap steps)

end ManagedHeap
