import ManagedHeap.Proofs.SessionHistories
import ManagedHeap.Proofs.ConstructorEffects

/-!
# Sessions as effects

Every command is composed of operations on the heap alone, if the foreign code is, and the
foreign code of a session runs commands. So whatever a session does to a heap comes down to
operations.
-/

namespace ManagedHeap

namespace Session

open HostM

variable {start : Heap} {host : Host State}

theorem value_composed (o : Operand) : Composed start (value o) := by
  cases o with
  | handle h => exact .pure
  | register name => exact .bind (Triple.getState fun _ _ => id) fun _ => .pure

theorem mapM_composed {α β : Type} {f : α → SessionM β} (hf : ∀ a, Composed start (f a))
    (as : List α) : Composed start (as.mapM f) := by
  induction as with
  | nil => exact .pure
  | cons a as ih =>
    rw [List.mapM_cons]
    exact .bind (hf a) fun b => .bind ih fun bs => .pure

theorem values_composed (os : List Operand) : Composed start (values os) :=
  mapM_composed value_composed os

theorem fieldValues_composed (fields : List (ContextField × Operand)) :
    Composed start (fieldValues fields) := by
  unfold fieldValues
  exact mapM_composed (fun f => .bind (value_composed f.2) fun _ => .pure) fields

theorem getState_composed : Composed start (getThe State : SessionM State) :=
  Triple.getState fun _ _ => id

theorem modifyState_composed {f : State → State} :
    Composed start (modifyThe State f : SessionM PUnit) := Triple.modifyState fun _ => id

theorem modifyRoots_composed {f : RootSet → RootSet} :
    Composed start (liftM (HeapM.modifyRoots f) : SessionM PUnit) :=
  .modifyRoots

theorem request_composed (hhost : host.Composed start) (r : Request) :
    Attempt.Composed start (request host r) := by
  have hvalue : ∀ o, Attempt.Composed start (liftM (value o) : Attempt State Handle) :=
    fun o => .liftHost (value_composed o)
  have hvalues : ∀ os, Attempt.Composed start (liftM (values os) : Attempt State (List Handle)) :=
    fun os => .liftHost (values_composed os)
  cases r with
  | allocate kind length roots =>
    exact .bind (hvalues roots) fun roots =>
      (allocate_composed hhost).conseq (fun _ => id) (fun _ _ hc => hc.1) fun _ => id
  | cons car cdr =>
    exact .bind (hvalue car) fun car => .bind (hvalue cdr) fun cdr =>
      construct_composed hhost ⟨rfl, by simp, by simp [Payload.children]⟩
        (.of_append [.nil] rfl (by simp)) rfl
  | lcons car cdr =>
    exact .bind (hvalue car) fun car => .bind (hvalue cdr) fun cdr =>
      construct_composed hhost ⟨rfl, by simp, by simp [Payload.children]⟩
        (.of_append [.nil] rfl (by simp)) rfl
  | closure formals body env =>
    exact .bind (hvalue formals) fun formals => .bind (hvalue body) fun body =>
      .bind (hvalue env) fun env =>
      construct_composed hhost ⟨rfl, by simp, by simp [Payload.children]⟩
        (.refl _) rfl
  | environment names vals parent =>
    exact .bind (hvalues names) fun names => .bind (hvalues vals) fun vals =>
      .bind (hvalue parent) fun parent => makeEnvironment_composed hhost
  | promise expr env =>
    refine .bind (hvalue expr) fun expr => .bind (hvalue env) fun env =>
      construct_composed hhost ⟨rfl, by simp, ?_⟩
        (.of_append [.unbound] rfl (by simp)) rfl
    simp [Payload.children]
  | externalPtr address tag inner =>
    exact .bind (hvalue tag) fun tag => .bind (hvalue inner) fun inner =>
      construct_composed hhost ⟨rfl, by simp, by simp [Payload.children]⟩
        (.refl _) rfl
  | byteCode code consts =>
    exact .bind (hvalue code) fun code => .bind (hvalue consts) fun consts =>
      construct_composed hhost ⟨rfl, by simp, by simp [Payload.children]⟩
        (.refl _) rfl
  | nativeFunction routine => exact makeNativeFunction_composed hhost
  | string bytes encoding => exact internString_composed hhost
  | symbol name => exact internSymbol_composed hhost
  | duplicate h => exact .bind (hvalue h) fun h => duplicate_composed hhost
  | duplicateIfShared h => exact .bind (hvalue h) fun h => duplicateIfShared_composed hhost
  | weakRef key val finalizer onExit =>
    exact .bind (hvalue key) fun key => .bind (hvalue val) fun val =>
      .bind (hvalue finalizer) fun finalizer => makeWeakRef_composed hhost
  | nativeFinalizer key routine onExit =>
    exact .bind (hvalue key) fun key => registerFinalizer_composed hhost
  | closureFinalizer key closure onExit =>
    exact .bind (hvalue key) fun key => .bind (hvalue closure) fun closure =>
      registerFinalizer_composed hhost

theorem set_composed (s : Setter) (h v : Handle) : HeapM.Composed start (set s h v) := by
  cases s
  case car => exact .basic .setCar
  case cdr => exact .basic .setCdr
  case tag => exact .basic .setTag
  case attrib => exact .basic .setAttrib
  case promiseValue => exact .basic .setPromiseValue
  case symbolValue => exact .basic .setSymbolValue

theorem replaceHeap_composed (hhost : host.Composed start) :
    Composed start (replaceHeap host) := by
  refine .bind (.runExitFinalizers hhost) fun _ => ?_
  refine Triple.bind (.getHeap (Q := fun old heap => start.Comes heap ∧ old = heap)
    fun heap hc => ⟨hc, rfl⟩) fun old => ?_
  refine Triple.bind (.liftExcept (Q := fun fresh heap => (start.Comes heap ∧ old = heap) ∧
    Heap.build {} old.strings.hash = .ok fresh) fun heap fresh hold hbuild => ⟨hold, hbuild⟩)
    fun fresh => .setHeap ?_
  rintro heap ⟨⟨hc, rfl⟩, hbuild⟩
  have hvalid : ({} : Config).Valid := Config.valid_of_ok rfl
  have hfresh := Heap.build_sound hvalid.few hvalid.names hbuild
  refine hc.tail ⟨?_, .of_born (.renewed hvalid hbuild)⟩ (.renew hbuild)
  exact (hfresh.retask { registry := old.tasks.registry } hc.1.1.registered).aside rfl rfl rfl rfl rfl

theorem aside_composed {f : Heap → Heap} {r : Reply}
    (hf : ∀ heap, ∃ evaluator journal, f heap = { heap with evaluator, journal } ∧
      journal.history = heap.journal.history) :
    Composed start (do
      modifyThe Heap f
      return r : SessionM Reply) := by
  refine .bind (Triple.modifyHeap fun heap hc => ?_) fun _ => .pure
  obtain ⟨evaluator, journal, hsame, hhistory⟩ := hf heap
  rw [hsame]
  have hcells := Journal.ofCells_congr hhistory
  refine hc.tail ⟨hc.1.1.aside rfl rfl rfl rfl rfl, ?_⟩ (.beside ⟨hcells, _, _, _, _, _, _, _, rfl⟩)
  exact hc.1.2.retouched (.aside rfl rfl (Heap.pace_congr rfl rfl rfl rfl hcells)) (.aside rfl)

theorem pushRoot_composed {h : Handle} :
    Composed start (liftM (HeapM.pushRoot h) : SessionM (Except HeapError Nat)) :=
  .lift (.besides (.of_retouches .pushRoot .pushRoot .pushRoot) .pushRoot)

theorem perform_composed (hhost : host.Composed start) (c : Command) :
    Composed start (perform host c) := by
  cases c
  case request r => exact .bind (request_composed hhost r).run fun _ => .pure
  case allocateFast kind length =>
    exact .bind (.basic .allocateFast) fun _ => .pure
  case ask q h => exact .bind (value_composed h) fun h => .reads .ask
  case report r => exact .reads .report
  case vectorElt h index =>
    exact .bind (value_composed h) fun h => .bind (.reads .vectorElt) fun _ => .pure
  case set s h v =>
    exact .bind (value_composed h) fun h => .bind (value_composed v) fun v =>
      .bind (.lift (set_composed s h v)) fun _ => .pure
  case setVectorElt h index v =>
    exact .bind (value_composed h) fun h => .bind (value_composed v) fun v =>
      .bind (.basic .setVectorElt) fun _ => .pure
  case setObjectBit h b =>
    exact .bind (value_composed h) fun h => .bind (.basic .setObjectBit) fun _ =>
      .pure
  case touch h =>
    exact .bind (value_composed h) fun h => .bind (.basic .touch) fun _ => .pure
  case setReal h vs =>
    exact .bind (value_composed h) fun h => .bind (.basic .setRealData) fun _ => .pure
  case setInteger h vs =>
    exact .bind (value_composed h) fun h => .bind (.basic .setIntegerData) fun _ =>
      .pure
  case setRaw h vs =>
    exact .bind (value_composed h) fun h => .bind (.basic .setRawData) fun _ => .pure
  case incrementRefCount h =>
    exact .bind (value_composed h) fun h =>
      .bind (.basic .incrementRefCount) fun _ => .pure
  case decrementRefCount h =>
    exact .bind (value_composed h) fun h =>
      .bind (.basic .decrementRefCount) fun _ => .pure
  case defineVar env sym v =>
    exact .bind (value_composed env) fun env => .bind (value_composed sym) fun sym =>
      .bind (value_composed v) fun v => .bind (defineVar_composed hhost).run fun _ => .pure
  case findVar env sym =>
    exact .bind (value_composed env) fun env => .bind (value_composed sym) fun sym =>
      .bind (.basic .findVar) fun _ => .pure
  case findVarInFrame env sym =>
    exact .bind (value_composed env) fun env => .bind (value_composed sym) fun sym =>
      .bind (.reads .findVarInFrame) fun _ => .pure
  case removeVar env sym =>
    exact .bind (value_composed env) fun env => .bind (value_composed sym) fun sym =>
      .bind (.basic .removeVar) fun _ => .pure
  case pushRoot h =>
    exact .bind (value_composed h) fun h => .bind pushRoot_composed fun _ => .pure
  case pushRootWithIndex h slot =>
    refine .bind (value_composed h) fun h => .bind pushRoot_composed fun result => ?_
    cases result with
    | ok index => exact .bind modifyState_composed fun _ => .pure
    | error e => exact .pure
  case reprotect h slot =>
    refine .bind getState_composed fun state => ?_
    cases state.protectSlots.lookup slot with
    | none => exact .pure
    | some index =>
      exact .bind (value_composed h) fun h => .bind (.lift (.besides
        (.of_retouches .reprotect .onProtect .onProtect) .onProtect)) fun _ => .pure
  case popRoots n =>
    exact .bind (.lift (.besides (.of_retouches .popRoots .onProtect .onProtect) .onProtect))
      fun _ => .bind (.reads .protectDepth) fun _ => .pure
  case preserve h =>
    exact .bind (value_composed h) fun h => .bind modifyRoots_composed fun _ => .pure
  case release h =>
    refine .bind .getHeap fun heap => .bind (value_composed h) fun h => ?_
    cases heap.roots.release? h with
    | none => exact .pure
    | some roots =>
      exact .bind modifyRoots_composed fun _ => .pure
  case beginContext fields =>
    exact .bind (fieldValues_composed fields) fun fields => .bind modifyRoots_composed fun _ =>
      .bind .getHeap fun _ => .pure
  case setContext fields =>
    exact .bind (fieldValues_composed fields) fun fields => .bind modifyRoots_composed fun _ =>
      .bind .getHeap fun _ => .pure
  case endContext => exact .bind .getHeap fun heap => .bind modifyRoots_composed fun _ => .pure
  case byteCodePush h =>
    exact .bind (value_composed h) fun h => .bind modifyRoots_composed fun _ =>
      .bind .getHeap fun _ => .pure
  case byteCodePop n => exact .bind modifyRoots_composed fun _ => .bind .getHeap fun _ => .pure
  case setHandlerStack h =>
    exact .bind (value_composed h) fun h => .bind modifyRoots_composed fun _ => .pure
  case setRestartStack h =>
    exact .bind (value_composed h) fun h => .bind modifyRoots_composed fun _ => .pure
  case addRootSource hs =>
    exact .bind .getHeap fun heap => .bind (values_composed hs) fun hs =>
      .bind modifyRoots_composed fun _ => .bind getState_composed fun state =>
      .bind modifyState_composed fun _ => .pure
  case setRootSource number hs =>
    refine .bind (values_composed hs) fun hs => .bind getState_composed fun state => ?_
    cases state.currentSource? number with
    | none => exact .pure
    | some id => exact .bind modifyRoots_composed fun _ => .pure
  case removeRootSource number =>
    refine .bind getState_composed fun state => ?_
    cases state.sources[number]? with
    | none => exact .pure
    | some id =>
      refine .bind .getHeap fun heap => ?_
      cases heap.roots.removeSource? id with
      | none => exact .pure
      | some roots => exact .bind modifyRoots_composed fun _ => .pure
  case runPendingFinalizers => exact .bind (.runPendingFinalizers hhost) fun _ => .pure
  case runExitFinalizers => exact .bind (.runExitFinalizers hhost) fun _ => .pure
  case enterScope name =>
    exact .bind (.reads .enterRecovery) fun scope => .bind modifyState_composed fun _ => .pure
  case leaveScope name =>
    refine .bind getState_composed fun state => ?_
    cases state.scopes.lookup name with
    | none => exact .pure
    | some scope => exact .bind .leaveRecovery fun _ => .pure
  case setEvaluator name routine => exact aside_composed fun heap => ⟨_, _, rfl, rfl⟩
  case collect level => exact .bind (.requestCollection hhost level) fun _ => .pure
  case observe => exact aside_composed fun heap => ⟨_, _, rfl, rfl⟩
  case stopObserving => exact aside_composed fun heap => ⟨_, _, rfl, rfl⟩
  case freed => exact .bind .getHeap fun heap => aside_composed fun heap => ⟨_, _, rfl, rfl⟩
  case log => exact .bind .getHeap fun heap => aside_composed fun heap => ⟨_, _, rfl, rfl⟩
  case runs =>
    exact .bind getState_composed fun state => .bind modifyState_composed fun _ => .pure
  case setScheduler scheduler =>
    exact .bind (.lift (.besides (.of_retouches .setScheduler
      (.modify (fun _ => rfl) (fun _ => rfl) fun _ => rfl) (.modify fun _ => rfl))
      (.modify fun _ => ⟨rfl, _, _, _, _, _, _, _, rfl⟩))) fun _ => .pure
  case task a h =>
    exact .bind (value_composed h) fun h =>
      .lift (.besides (.of_retouches .task .task .task) .task)
  case move h => exact .bind (value_composed h) fun h => .pure
  case replaceHeap => exact .bind (replaceHeap_composed hhost) fun _ => .pure

theorem repeatRounds_composed {round : SessionM (Option Reply)} (hround : Composed start round)
    (n : Nat) (completed : Nat) (last : Option Reply) :
    Composed start (repeatRounds round completed last n) := by
  induction n generalizing completed last with
  | zero => exact .pure
  | succ n ih =>
    refine .bind hround fun reply => ?_
    split
    · exact .pure
    · exact ih _ _

mutual

theorem runStep_composed (hhost : host.Composed start) :
    ∀ step, Composed start (runStep host step)
  | .command c store => by
    rw [runStep]
    refine .bind (perform_composed hhost c) fun reply => ?_
    cases store with
    | none => exact .pure
    | some name =>
      cases reply.handle? with
      | none => exact .pure
      | some h => exact .bind modifyState_composed fun _ => .pure
  | .scope steps => by
    rw [runStep]
    exact .bind (.reads .protectDepth) fun base => .bind (runSteps_composed hhost steps) fun replies =>
      .bind .closeScope fun _ => .bind (.reads .protectDepth) fun _ => .pure
  | .times n steps => by
    rw [runStep]
    exact repeatRounds_composed (runRound_composed hhost steps) n 0 none
  | .setScript routine steps ending => by
    rw [runStep]
    exact .bind modifyState_composed fun _ => .pure

theorem runSteps_composed (hhost : host.Composed start) :
    ∀ steps, Composed start (runSteps host steps)
  | [] => by
    rw [runSteps]
    exact .pure
  | step :: steps => by
    rw [runSteps]
    exact .bind (runStep_composed hhost step) fun reply =>
      .bind (runSteps_composed hhost steps) fun replies => .pure

theorem runRound_composed (hhost : host.Composed start) :
    ∀ steps, Composed start (runRound host steps)
  | [] => by
    rw [runRound]
    exact .pure
  | step :: steps => by
    rw [runRound]
    refine .bind (runStep_composed hhost step) fun reply => ?_
    split
    · exact .pure
    · exact .bind (runRound_composed hhost steps) fun last => .pure

end

theorem runScript_composed (hhost : host.Composed start) (caller : Caller) (routine : Nat)
    (key : Handle) : Composed start (runScript host caller routine key) := by
  refine .bind getState_composed fun state => .bind (.reads .isLive) fun live =>
    .bind getState_composed fun before => .bind modifyState_composed fun _ =>
    .bind (runSteps_composed hhost _) fun replies => .bind modifyState_composed fun _ => ?_
  cases (state.script routine).ending <;> exact .pure

theorem hostWithin_composed (levels : Nat) : (hostWithin levels).Composed start := by
  induction levels with
  | zero => exact ⟨hostWithin_traced 0, fun _ _ => .throw, fun _ _ _ => .throw⟩
  | succ levels ih =>
    exact ⟨hostWithin_traced (levels + 1),
      fun routine key => runScript_composed ih _ routine key,
      fun evaluator _ key => runScript_composed ih _ evaluator.routine key⟩

theorem runStep_comes {levels : Nat} {step : Step} {state state' : State} {heap heap' : Heap}
    {reply : Reply} (ht : heap.SoundWithHistory)
    (hrun : ((runStep (hostWithin levels) step).run state).run heap = .ok ((reply, state'), heap')) :
    heap.Comes heap' :=
  runStep_composed (hostWithin_composed levels) step state heap (reply, state') heap' ⟨ht, .refl⟩ hrun

/-- Operations lead from a new heap to every heap that a session reaches. -/
theorem Reachable.comes {state : State} {heap : Heap} (hr : Reachable state heap) :
    ∃ start : Heap, start.Born ∧ start.Comes heap := by
  induction hr with
  | @new config hash heap hvalid hbuild =>
    have hr : Reachable {} heap := .new hvalid hbuild
    exact ⟨heap, .build (Config.valid_of_ok hvalid) hbuild, hr.soundWithHistory, .refl⟩
  | step _ hrun ih =>
    obtain ⟨start, hborn, hcomes⟩ := ih
    exact ⟨start, hborn, runStep_composed (hostWithin_composed _) _ _ _ _ _ hcomes hrun⟩

end Session

end ManagedHeap
