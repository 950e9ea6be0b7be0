import ManagedHeap.Proofs.CopyInvariant

/-!
# Sessions keep the invariant

Every command keeps the invariant as long as the foreign code does, and the foreign code of
a session runs commands. So every heap that a session reaches from a new one is sound,
whatever the scripts of its finalizers do in between.
-/

namespace ManagedHeap

namespace Session

open HostM

variable {host : Host State}

theorem value_safe (o : Operand) : Safe (value o) := by
  cases o with
  | handle h => exact .pure
  | register name => exact .bind (Triple.getState fun _ _ => id) fun _ => .pure

theorem mapM_safe {α β : Type} {f : α → SessionM β} (hf : ∀ a, Safe (f a)) (as : List α) :
    Safe (as.mapM f) := by
  induction as with
  | nil => exact .pure
  | cons a as ih =>
    rw [List.mapM_cons]
    exact .bind (hf a) fun b => .bind ih fun bs => .pure

theorem values_safe (os : List Operand) : Safe (values os) := mapM_safe value_safe os

theorem fieldValues_safe (fields : List (ContextField × Operand)) : Safe (fieldValues fields) := by
  unfold fieldValues
  exact mapM_safe (fun f => .bind (value_safe f.2) fun _ => .pure) fields

theorem modifyState_safe {f : State → State} : Safe (modifyThe State f : SessionM PUnit) :=
  Triple.modifyState fun _ => id

theorem request_safe (hhost : host.Safe) (r : Request) : Attempt.Safe (request host r) := by
  have hvalue : ∀ o, Attempt.Safe (liftM (value o) : Attempt State Handle) :=
    fun o => .liftHost (value_safe o)
  have hvalues : ∀ os, Attempt.Safe (liftM (values os) : Attempt State (List Handle)) :=
    fun os => .liftHost (values_safe os)
  cases r with
  | allocate kind length roots =>
    exact .bind (hvalues roots) fun roots =>
      (allocate_fresh hhost).conseq (fun _ => id) (fun _ _ hs => hs.1) fun _ => id
  | cons car cdr =>
    exact .bind (hvalue car) fun car => .bind (hvalue cdr) fun cdr =>
      construct_safe hhost ⟨rfl, by simp, by simp [Payload.children]⟩
  | lcons car cdr =>
    exact .bind (hvalue car) fun car => .bind (hvalue cdr) fun cdr =>
      construct_safe hhost ⟨rfl, by simp, by simp [Payload.children]⟩
  | closure formals body env =>
    exact .bind (hvalue formals) fun formals => .bind (hvalue body) fun body =>
      .bind (hvalue env) fun env =>
      construct_safe hhost ⟨rfl, by simp, by simp [Payload.children]⟩
  | environment names vals parent =>
    exact .bind (hvalues names) fun names => .bind (hvalues vals) fun vals =>
      .bind (hvalue parent) fun parent => makeEnvironment_safe hhost
  | promise expr env =>
    refine .bind (hvalue expr) fun expr => .bind (hvalue env) fun env =>
      construct_safe hhost ⟨rfl, by simp, ?_⟩
    simp [Payload.children]
  | externalPtr address tag inner =>
    exact .bind (hvalue tag) fun tag => .bind (hvalue inner) fun inner =>
      construct_safe hhost ⟨rfl, by simp, by simp [Payload.children]⟩
  | byteCode code consts =>
    exact .bind (hvalue code) fun code => .bind (hvalue consts) fun consts =>
      construct_safe hhost ⟨rfl, by simp, by simp [Payload.children]⟩
  | nativeFunction routine => exact makeNativeFunction_safe hhost
  | string bytes encoding =>
    exact (internString_cached hhost).conseq (fun _ => id) (fun _ _ hs => hs.1) fun _ => id
  | symbol name => exact internSymbol_safe hhost
  | duplicate h => exact .bind (hvalue h) fun h => duplicate_safe hhost
  | duplicateIfShared h => exact .bind (hvalue h) fun h => duplicateIfShared_safe hhost
  | weakRef key val finalizer onExit =>
    exact .bind (hvalue key) fun key => .bind (hvalue val) fun val =>
      .bind (hvalue finalizer) fun finalizer => makeWeakRef_safe hhost
  | nativeFinalizer key routine onExit =>
    exact .bind (hvalue key) fun key => registerFinalizer_safe hhost
  | closureFinalizer key closure onExit =>
    exact .bind (hvalue key) fun key => .bind (hvalue closure) fun closure =>
      registerFinalizer_safe hhost

theorem set_safe (s : Setter) (h v : Handle) : HeapM.Safe (set s h v) := by
  cases s
  case car => exact .setCar
  case cdr => exact .setCdr
  case tag => exact .setTag
  case attrib => exact .setAttrib
  case promiseValue => exact .setPromiseValue
  case symbolValue => exact .setSymbolValue

theorem renewHeap_safe : Safe renewHeap := by
  refine Triple.bind (.getHeap (Q := fun old _ => old.Sound) fun _ => id) fun old => ?_
  refine Triple.bind (.liftExcept (Q := fun fresh _ => old.Sound ∧ fresh.Sound) ?_) fun fresh => ?_
  · intro heap fresh hold hbuild
    have hcells : ({} : Config).segmentCells ≤ maxSegmentCells := by simp [maxSegmentCells]
    exact ⟨hold, Heap.build_sound hcells (by decide) hbuild⟩
  · refine .setHeap fun heap hs => ?_
    exact (hs.2.retask { registry := old.tasks.registry } hs.1.registered).aside rfl rfl rfl rfl rfl

theorem replaceHeap_safe (hhost : host.Safe) : Safe (replaceHeap host) :=
  .bind (.runExitFinalizers hhost) fun _ => renewHeap_safe

theorem aside_safe {f : Heap → Heap} {r : Reply}
    (hf : ∀ heap, ∃ evaluator journal, f heap = { heap with evaluator, journal }) : Safe (do
      modifyThe Heap f
      return r : SessionM Reply) := by
  refine .bind (Triple.modifyHeap fun heap hs => ?_) fun _ => .pure
  obtain ⟨evaluator, journal, hsame⟩ := hf heap
  rw [hsame]
  exact hs.aside rfl rfl rfl rfl rfl

theorem perform_safe (hhost : host.Safe) (c : Command) : Safe (perform host c) := by
  cases c
  case request r => exact .bind (request_safe hhost r).run fun _ => .pure
  case allocateFast kind length =>
    refine .bind (.lift ?_) fun _ => .pure
    intro heap h heap' hs hrun
    exact (HeapM.run_allocateFast hs hrun).1
  case ask q h => exact .bind (value_safe h) fun h => .reads .ask
  case report r => exact .reads .report
  case vectorElt h index =>
    exact .bind (value_safe h) fun h => .bind (.reads .vectorElt) fun _ => .pure
  case set s h v =>
    exact .bind (value_safe h) fun h => .bind (value_safe v) fun v =>
      .bind (.lift (set_safe s h v)) fun _ => .pure
  case setVectorElt h index v =>
    exact .bind (value_safe h) fun h => .bind (value_safe v) fun v =>
      .bind (.lift .setVectorElt) fun _ => .pure
  case setObjectBit h b =>
    exact .bind (value_safe h) fun h => .bind (.lift .setObjectBit) fun _ => .pure
  case touch h => exact .bind (value_safe h) fun h => .bind (.lift .touch) fun _ => .pure
  case setReal h vs =>
    exact .bind (value_safe h) fun h => .bind (.lift .setRealData) fun _ => .pure
  case setInteger h vs =>
    exact .bind (value_safe h) fun h => .bind (.lift .setIntegerData) fun _ => .pure
  case setRaw h vs =>
    exact .bind (value_safe h) fun h => .bind (.lift .setRawData) fun _ => .pure
  case incrementRefCount h =>
    exact .bind (value_safe h) fun h => .bind (.lift .incrementRefCount) fun _ => .pure
  case decrementRefCount h =>
    exact .bind (value_safe h) fun h => .bind (.lift .decrementRefCount) fun _ => .pure
  case defineVar env sym v =>
    exact .bind (value_safe env) fun env => .bind (value_safe sym) fun sym =>
      .bind (value_safe v) fun v => .bind (defineVar_safe hhost).run fun _ => .pure
  case findVar env sym =>
    exact .bind (value_safe env) fun env => .bind (value_safe sym) fun sym =>
      .bind (.lift .findVar) fun _ => .pure
  case findVarInFrame env sym =>
    exact .bind (value_safe env) fun env => .bind (value_safe sym) fun sym =>
      .bind (.reads .findVarInFrame) fun _ => .pure
  case removeVar env sym =>
    exact .bind (value_safe env) fun env => .bind (value_safe sym) fun sym =>
      .bind (.lift .removeVar) fun _ => .pure
  case pushRoot h => exact .bind (value_safe h) fun h => .bind (.lift .pushRoot) fun _ => .pure
  case pushRootWithIndex h slot =>
    refine .bind (value_safe h) fun h => .bind (.lift .pushRoot) fun result => ?_
    cases result with
    | ok index => exact .bind modifyState_safe fun _ => .pure
    | error e => exact .pure
  case reprotect h slot =>
    refine .bind (Triple.getState fun _ _ => id) fun state => ?_
    cases state.protectSlots.lookup slot with
    | none => exact .pure
    | some index =>
      exact .bind (value_safe h) fun h => .bind (.lift .reprotect) fun _ => .pure
  case popRoots n =>
    exact .bind (.lift .popRoots) fun _ => .bind (.reads .protectDepth) fun _ => .pure
  case preserve h => exact .bind (value_safe h) fun h => .bind (.lift .modifyRoots) fun _ => .pure
  case release h =>
    refine .bind .getHeap fun heap => .bind (value_safe h) fun h => ?_
    cases heap.roots.release? h with
    | none => exact .pure
    | some roots =>
      exact .bind (.lift .modifyRoots) fun _ => .pure
  case beginContext fields =>
    exact .bind (fieldValues_safe fields) fun fields => .bind (.lift .modifyRoots) fun _ =>
      .bind .getHeap fun _ => .pure
  case setContext fields =>
    exact .bind (fieldValues_safe fields) fun fields => .bind (.lift .modifyRoots) fun _ =>
      .bind .getHeap fun _ => .pure
  case endContext => exact .bind .getHeap fun heap => .bind (.lift .modifyRoots) fun _ => .pure
  case byteCodePush h =>
    exact .bind (value_safe h) fun h => .bind (.lift .modifyRoots) fun _ =>
      .bind .getHeap fun _ => .pure
  case byteCodePop n =>
    exact .bind (.lift .modifyRoots) fun _ => .bind .getHeap fun _ => .pure
  case setHandlerStack h =>
    exact .bind (value_safe h) fun h => .bind (.lift .modifyRoots) fun _ => .pure
  case setRestartStack h =>
    exact .bind (value_safe h) fun h => .bind (.lift .modifyRoots) fun _ => .pure
  case addRootSource hs =>
    exact .bind .getHeap fun heap => .bind (values_safe hs) fun hs =>
      .bind (.lift .modifyRoots) fun _ => .bind (Triple.getState fun _ _ => id) fun state =>
      .bind modifyState_safe fun _ => .pure
  case setRootSource number hs =>
    refine .bind (values_safe hs) fun hs => .bind (Triple.getState fun _ _ => id) fun state => ?_
    cases state.currentSource? number with
    | none => exact .pure
    | some id =>
      exact .bind (.lift .modifyRoots) fun _ => .pure
  case removeRootSource number =>
    refine .bind (Triple.getState fun _ _ => id) fun state => ?_
    cases state.sources[number]? with
    | none => exact .pure
    | some id =>
      refine .bind .getHeap fun heap => ?_
      cases heap.roots.removeSource? id with
      | none => exact .pure
      | some roots =>
        exact .bind (.lift .modifyRoots) fun _ => .pure
  case runPendingFinalizers => exact .bind (.runPendingFinalizers hhost) fun _ => .pure
  case runExitFinalizers => exact .bind (.runExitFinalizers hhost) fun _ => .pure
  case enterScope name =>
    exact .bind (.reads .enterRecovery) fun scope => .bind modifyState_safe fun _ => .pure
  case leaveScope name =>
    refine .bind (Triple.getState fun _ _ => id) fun state => ?_
    cases state.scopes.lookup name with
    | none => exact .pure
    | some scope =>
      exact .bind (.lift .leaveRecovery) fun _ => .pure
  case setEvaluator name routine =>
    refine aside_safe ?_
    exact fun heap => ⟨_, _, rfl⟩
  case collect level => exact .bind (.requestCollection hhost level) fun _ => .pure
  case observe =>
    refine aside_safe ?_
    exact fun heap => ⟨_, _, rfl⟩
  case stopObserving =>
    refine aside_safe ?_
    exact fun heap => ⟨_, _, rfl⟩
  case freed =>
    refine .bind .getHeap fun heap => aside_safe ?_
    exact fun heap => ⟨_, _, rfl⟩
  case log =>
    refine .bind .getHeap fun heap => aside_safe ?_
    exact fun heap => ⟨_, _, rfl⟩
  case runs =>
    exact .bind (Triple.getState fun _ _ => id) fun state => .bind modifyState_safe fun _ => .pure
  case setScheduler scheduler => exact .bind (.lift .setScheduler) fun _ => .pure
  case task a h => exact .bind (value_safe h) fun h => .lift .task
  case move h => exact .bind (value_safe h) fun h => .pure
  case replaceHeap => exact .bind (replaceHeap_safe hhost) fun _ => .pure

theorem repeatRounds_safe {round : SessionM (Option Reply)} (hround : Safe round) (n : Nat)
    (completed : Nat) (last : Option Reply) : Safe (repeatRounds round completed last n) := by
  induction n generalizing completed last with
  | zero => exact .pure
  | succ n ih =>
    refine .bind hround fun reply => ?_
    split
    · exact .pure
    · exact ih _ _

mutual

theorem runStep_safe (hhost : host.Safe) : ∀ step, Safe (runStep host step)
  | .command c store => by
    rw [runStep]
    refine .bind (perform_safe hhost c) fun reply => ?_
    cases store with
    | none => exact .pure
    | some name =>
      cases reply.handle? with
      | none => exact .pure
      | some h => exact .bind modifyState_safe fun _ => .pure
  | .scope steps => by
    rw [runStep]
    exact .bind (.reads .protectDepth) fun base => .bind (runSteps_safe hhost steps) fun replies =>
      .bind (.lift .closeScope) fun _ => .bind (.reads .protectDepth) fun _ => .pure
  | .times n steps => by
    rw [runStep]
    exact repeatRounds_safe (runRound_safe hhost steps) n 0 none
  | .setScript routine steps ending => by
    rw [runStep]
    exact .bind modifyState_safe fun _ => .pure

theorem runSteps_safe (hhost : host.Safe) : ∀ steps, Safe (runSteps host steps)
  | [] => by
    rw [runSteps]
    exact .pure
  | step :: steps => by
    rw [runSteps]
    exact .bind (runStep_safe hhost step) fun reply =>
      .bind (runSteps_safe hhost steps) fun replies => .pure

theorem runRound_safe (hhost : host.Safe) : ∀ steps, Safe (runRound host steps)
  | [] => by
    rw [runRound]
    exact .pure
  | step :: steps => by
    rw [runRound]
    refine .bind (runStep_safe hhost step) fun reply => ?_
    split
    · exact .pure
    · exact .bind (runRound_safe hhost steps) fun last => .pure

end

theorem runScript_safe (hhost : host.Safe) (caller : Caller) (routine : Nat) (key : Handle) :
    Safe (runScript host caller routine key) := by
  refine .bind (Triple.getState fun _ _ => id) fun state => .bind (.reads .isLive) fun live =>
    .bind (Triple.getState fun _ _ => id) fun before => .bind modifyState_safe fun _ =>
    .bind (runSteps_safe hhost _) fun replies => .bind modifyState_safe fun _ => ?_
  cases (state.script routine).ending <;> exact .pure

theorem hostWithin_safe (levels : Nat) : (hostWithin levels).Safe := by
  induction levels with
  | zero => exact ⟨fun _ _ => .throw, fun _ _ _ => .throw⟩
  | succ levels ih =>
    exact ⟨fun routine key => runScript_safe ih _ routine key,
      fun evaluator _ key => runScript_safe ih _ evaluator.routine key⟩

/-- The states of sessions that start on a new heap with a valid configuration and any hash
function. -/
inductive Reachable : State → Heap → Prop
  | new {config : Config} {hash : Bytes → Encoding → UInt32} {heap : Heap} :
      config.validate = .ok () → Heap.build config hash = .ok heap → Reachable {} heap
  | step {levels : Nat} {step : Step} {reply : Reply} {state state' : State}
      {heap heap' : Heap} : Reachable state heap →
      ((runStep (hostWithin levels) step).run state).run heap = .ok ((reply, state'), heap') →
      Reachable state' heap'

/-- Every heap that a session reaches is sound. -/
theorem Reachable.sound {state : State} {heap : Heap} (hr : Reachable state heap) : heap.Sound := by
  induction hr with
  | new hvalid hbuild =>
    obtain ⟨hcells, hnames⟩ := Config.validate_eq_ok hvalid
    exact Heap.build_sound hcells hnames hbuild
  | step _ hrun ih => exact runStep_safe (hostWithin_safe _) _ _ _ _ _ ih hrun

theorem Reachable.runSteps {levels : Nat} {steps : List Step} {replies : List Reply}
    {state state' : State} {heap heap' : Heap} (hr : Reachable state heap)
    (hrun : ((runSteps (hostWithin levels) steps).run state).run heap =
      .ok ((replies, state'), heap')) : Reachable state' heap' := by
  induction steps generalizing state heap replies with
  | nil =>
    rw [Session.runSteps] at hrun
    obtain ⟨hsame, rfl⟩ := run_pure.mp hrun
    injection hsame with _ hstate
    exact hstate ▸ hr
  | cons step steps ih =>
    rw [Session.runSteps, StateT.run_bind] at hrun
    obtain ⟨⟨reply, mid⟩, between, hfirst, hrest⟩ := run_bind.mp hrun
    rw [StateT.run_bind] at hrest
    obtain ⟨⟨later, last⟩, final, hlater, hend⟩ := run_bind.mp hrest
    obtain ⟨hsame, rfl⟩ := run_pure.mp hend
    injection hsame with _ hstate
    subst hstate
    exact ih (.step hr hfirst) hlater

/-- The heap after steps of a session on a new heap. -/
def opened (config : Config) (steps : List Step) : Except Fault Heap := do
  let heap ← Heap.build config Heap.mixHash
  let (_, heap) ← ((runSteps Session.host steps).run {}).run heap
  return heap

theorem reachable_of_opened {config : Config} {steps : List Step} {heap : Heap}
    (hvalid : config.validate = .ok ()) (ho : opened config steps = .ok heap) :
    ∃ state, Reachable state heap := by
  simp only [opened, except_bind] at ho
  obtain ⟨start, hbuild, ⟨⟨replies, state⟩, last⟩, hrun, hlast⟩ := ho
  obtain rfl : last = heap := Except.ok.inj hlast
  exact ⟨state, .runSteps (.new hvalid hbuild) hrun⟩

theorem Reply.eq_of_isSome_handle? {reply : Reply} (hr : reply.handle?.isSome = true) :
    ∃ h, reply = .handle h := by
  cases reply with
  | handle h => exact ⟨h, rfl⟩
  | _ => cases hr

def Reply.isShortOf (kind : Kind) (length : Nat) : Reply → Bool
  | .error (.outOfMemory k n) => k == kind && n == length
  | _ => false

theorem Reply.eq_of_isShortOf {kind : Kind} {length : Nat} {reply : Reply}
    (hr : reply.isShortOf kind length = true) : reply = .error (.outOfMemory kind length) := by
  cases reply with
  | error e => cases e <;> simp_all [isShortOf]
  | _ => cases hr

/-- Steps of a session on a new heap, and a collection in the end. -/
def collected (config : Config) (steps : List Step) (level : Level) :
    Except Fault (Heap × Outcome × Heap) := do
  let heap ← opened config steps
  let (o, heap') ← (HeapM.collect level .requested).run heap
  return (heap, o, heap')

theorem collected_eq_ok {config : Config} {steps : List Step} {level : Level}
    {heap heap' : Heap} {o : Outcome}
    (hc : collected config steps level = .ok (heap, o, heap')) :
    opened config steps = .ok heap ∧
      (HeapM.collect level .requested).run heap = .ok (o, heap') := by
  simp only [collected, except_bind] at hc
  obtain ⟨start, ho, ⟨p, last⟩, hrun, hend⟩ := hc
  injection hend with hend
  injection hend with hheap hend
  injection hend with houtcome hlast
  subst hheap houtcome hlast
  exact ⟨ho, hrun⟩

/-- The remembered list holds just the live objects with the flag, each of them once. Every
object with an edge to a younger one is among them. -/
theorem remembered_exact {state : State} {heap : Heap} (hr : Reachable state heap) :
    heap.remembered.toList.Nodup ∧
      (∀ h, h ∈ heap.remembered ↔
        ∃ c, heap.arena.get? h = some c ∧ c.flags.remembered = true) ∧
      ∀ h c k d, heap.arena.get? h = some c → c.flags.permanent = false → k ∈ c.edges true →
        heap.arena.get? k = some d →
        d.header.generation.index < c.header.generation.index → h ∈ heap.remembered := by
  have hs := hr.sound
  refine ⟨hs.once, fun h => hs.listed, ?_⟩
  intro h c k d hc hperm hk hd hlt
  exact hs.listed.mpr ⟨c, hc, hs.barred hc hperm hk hd hlt⟩

/-- A pair grows old and then gets a young one into its head. -/
def pairWritten : List Step :=
  [.command (.request (.cons (.handle .nil) (.handle .nil))) (some "a"),
    .command (.pushRoot (.register "a")) none,
    .command (.collect .full) none,
    .command (.request (.cons (.handle .nil) (.handle .nil))) (some "b"),
    .command (.set .car (.register "a") (.register "b")) none]

/-- The old pair is remembered. -/
theorem remembered_pairWritten : ∃ heap, opened { segmentCells := 4 } pairWritten = .ok heap ∧
    heap.remembered.toList = [⟨2⟩] ∧
    ∃ c, heap.arena.get? ⟨2⟩ = some c ∧ c.flags.remembered = true := by
  obtain ⟨heap, ho, htest⟩ := except_of_test
    (x := opened { segmentCells := 4 } pairWritten)
    (p := fun heap => heap.remembered.toList == [⟨2⟩]) (by decide +kernel)
  obtain ⟨state, hr⟩ := reachable_of_opened rfl ho
  have hlist := eq_of_beq htest
  refine ⟨heap, ho, hlist, ((remembered_exact hr).2.1 ⟨2⟩).mp ?_⟩
  rw [← Array.mem_toList_iff, hlist]
  exact List.mem_singleton_self _

end Session

end ManagedHeap
