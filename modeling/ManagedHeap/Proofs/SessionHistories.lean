import ManagedHeap.Proofs.ConstructorHistories
import ManagedHeap.Proofs.SessionInvariant

/-!
# The history of a session's heap

Every command goes on with the history of the heap, if the foreign code does, and the foreign
code of a session runs commands. So every heap that a session reaches has a history since it
was new.
-/

namespace ManagedHeap

namespace Session

open HostM

variable {host : Host State}

theorem value_traced (o : Operand) : Traced (value o) := by
  cases o with
  | handle h => exact .pure
  | register name => exact .bind (Triple.getState fun _ _ => id) fun _ => .pure

theorem mapM_traced {α β : Type} {f : α → SessionM β} (hf : ∀ a, Traced (f a)) (as : List α) :
    Traced (as.mapM f) := by
  induction as with
  | nil => exact .pure
  | cons a as ih =>
    rw [List.mapM_cons]
    exact .bind (hf a) fun b => .bind ih fun bs => .pure

theorem values_traced (os : List Operand) : Traced (values os) := mapM_traced value_traced os

theorem fieldValues_traced (fields : List (ContextField × Operand)) :
    Traced (fieldValues fields) := by
  unfold fieldValues
  exact mapM_traced (fun f => .bind (value_traced f.2) fun _ => .pure) fields

theorem getState_traced : Traced (getThe State : SessionM State) := Triple.getState fun _ _ => id

theorem modifyState_traced {f : State → State} : Traced (modifyThe State f : SessionM PUnit) :=
  Triple.modifyState fun _ => id

theorem modifyRoots_traced {f : RootSet → RootSet} :
    Traced (liftM (HeapM.modifyRoots f) : SessionM PUnit) :=
  .retouch .modifyRoots .modifyRoots .modifyRoots

theorem request_traced (hhost : host.Traced) (r : Request) : Attempt.Traced (request host r) := by
  have hvalue : ∀ o, Attempt.Traced (liftM (value o) : Attempt State Handle) :=
    fun o => .liftHost (value_traced o)
  have hvalues : ∀ os, Attempt.Traced (liftM (values os) : Attempt State (List Handle)) :=
    fun os => .liftHost (values_traced os)
  cases r with
  | allocate kind length roots =>
    exact .bind (hvalues roots) fun roots =>
      (allocate_sized hhost).conseq (fun _ => id) (fun _ _ ht => ht.1) fun _ => id
  | cons car cdr =>
    exact .bind (hvalue car) fun car => .bind (hvalue cdr) fun cdr =>
      construct_traced hhost ⟨rfl, by simp, by simp [Payload.children]⟩
        (.of_append [.nil] rfl (by simp)) rfl
  | lcons car cdr =>
    exact .bind (hvalue car) fun car => .bind (hvalue cdr) fun cdr =>
      construct_traced hhost ⟨rfl, by simp, by simp [Payload.children]⟩
        (.of_append [.nil] rfl (by simp)) rfl
  | closure formals body env =>
    exact .bind (hvalue formals) fun formals => .bind (hvalue body) fun body =>
      .bind (hvalue env) fun env =>
      construct_traced hhost ⟨rfl, by simp, by simp [Payload.children]⟩
        (.refl _) rfl
  | environment names vals parent =>
    exact .bind (hvalues names) fun names => .bind (hvalues vals) fun vals =>
      .bind (hvalue parent) fun parent => makeEnvironment_traced hhost
  | promise expr env =>
    refine .bind (hvalue expr) fun expr => .bind (hvalue env) fun env =>
      construct_traced hhost ⟨rfl, by simp, ?_⟩
        (.of_append [.unbound] rfl (by simp)) rfl
    simp [Payload.children]
  | externalPtr address tag inner =>
    exact .bind (hvalue tag) fun tag => .bind (hvalue inner) fun inner =>
      construct_traced hhost ⟨rfl, by simp, by simp [Payload.children]⟩
        (.refl _) rfl
  | byteCode code consts =>
    exact .bind (hvalue code) fun code => .bind (hvalue consts) fun consts =>
      construct_traced hhost ⟨rfl, by simp, by simp [Payload.children]⟩
        (.refl _) rfl
  | nativeFunction routine => exact makeNativeFunction_traced hhost
  | string bytes encoding => exact internString_traced hhost
  | symbol name => exact internSymbol_traced hhost
  | duplicate h => exact .bind (hvalue h) fun h => duplicate_traced hhost
  | duplicateIfShared h => exact .bind (hvalue h) fun h => duplicateIfShared_traced hhost
  | weakRef key val finalizer onExit =>
    exact .bind (hvalue key) fun key => .bind (hvalue val) fun val =>
      .bind (hvalue finalizer) fun finalizer => makeWeakRef_traced hhost
  | nativeFinalizer key routine onExit =>
    exact .bind (hvalue key) fun key => registerFinalizer_traced hhost
  | closureFinalizer key closure onExit =>
    exact .bind (hvalue key) fun key => .bind (hvalue closure) fun closure =>
      registerFinalizer_traced hhost

theorem set_traced (s : Setter) (h v : Handle) : HeapM.Traced (set s h v) := by
  cases s
  case car => exact .setCar
  case cdr => exact .of_retouches .setCdr .setCdr .setCdr
  case tag => exact .of_retouches .setTag .setTag .setTag
  case attrib => exact .of_retouches .setAttrib .setAttrib .setAttrib
  case promiseValue => exact .of_retouches .setPromiseValue .setPromiseValue .setPromiseValue
  case symbolValue => exact .of_retouches .setSymbolValue .setSymbolValue .setSymbolValue

theorem replaceHeap_traced (hhost : host.Traced) : Traced (replaceHeap host) := by
  refine .bind (.runExitFinalizers hhost) fun _ => ?_
  refine Triple.bind (.getHeap (Q := fun old _ => old.Sound) fun _ ht => ht.1) fun old => ?_
  refine Triple.bind (.liftExcept (Q := fun fresh _ => (old.Sound ∧ fresh.Sound) ∧
    Heap.build {} old.strings.hash = .ok fresh) ?_) fun fresh => ?_
  · intro heap fresh hold hbuild
    have hvalid : ({} : Config).Valid := Config.valid_of_ok rfl
    exact ⟨⟨hold, Heap.build_sound hvalid.few hvalid.names hbuild⟩, hbuild⟩
  · refine .setHeap fun heap hs =>
      ⟨?_, .of_born (.renewed (Config.valid_of_ok rfl) hs.2)⟩
    exact (hs.1.2.retask { registry := old.tasks.registry } hs.1.1.registered).aside rfl rfl rfl rfl rfl

theorem aside_traced {f : Heap → Heap} {r : Reply}
    (hf : ∀ heap, ∃ evaluator journal, f heap = { heap with evaluator, journal } ∧
      journal.history = heap.journal.history) : Traced (do
      modifyThe Heap f
      return r : SessionM Reply) := by
  refine .bind (Triple.modifyHeap fun heap ht => ?_) fun _ => .pure
  obtain ⟨evaluator, journal, hsame, hhistory⟩ := hf heap
  rw [hsame]
  exact ⟨ht.1.aside rfl rfl rfl rfl rfl, ht.2.retouched
    (.aside rfl rfl (Heap.pace_congr rfl rfl rfl rfl (Journal.ofCells_congr hhistory))) (.aside rfl)⟩

theorem perform_traced (hhost : host.Traced) (c : Command) : Traced (perform host c) := by
  cases c
  case request r => exact .bind (request_traced hhost r).run fun _ => .pure
  case allocateFast kind length =>
    have hfast : HeapM.Traced (HeapM.allocateFast kind length) :=
      HeapM.issues_allocateFast.conseq (fun _ => id) fun _ _ ht => ht.1
    exact .bind (.lift hfast) fun _ => .pure
  case ask q h => exact .bind (value_traced h) fun h => .reads .ask
  case report r => exact .reads .report
  case vectorElt h index =>
    exact .bind (value_traced h) fun h => .bind (.reads .vectorElt) fun _ => .pure
  case set s h v =>
    exact .bind (value_traced h) fun h => .bind (value_traced v) fun v =>
      .bind (.lift (set_traced s h v)) fun _ => .pure
  case setVectorElt h index v =>
    exact .bind (value_traced h) fun h => .bind (value_traced v) fun v =>
      .bind (.retouch .setVectorElt .setVectorElt .setVectorElt) fun _ => .pure
  case setObjectBit h b =>
    exact .bind (value_traced h) fun h => .bind (.retouch .setObjectBit .setObjectBit .setObjectBit) fun _ =>
      .pure
  case touch h =>
    exact .bind (value_traced h) fun h => .bind (.retouch .touch .touch .touch) fun _ => .pure
  case setReal h vs =>
    exact .bind (value_traced h) fun h => .bind (.retouch .setRealData .setRealData .setRealData) fun _ => .pure
  case setInteger h vs =>
    exact .bind (value_traced h) fun h => .bind (.retouch .setIntegerData .setIntegerData .setIntegerData) fun _ =>
      .pure
  case setRaw h vs =>
    exact .bind (value_traced h) fun h => .bind (.retouch .setRawData .setRawData .setRawData) fun _ => .pure
  case incrementRefCount h =>
    exact .bind (value_traced h) fun h =>
      .bind (.retouch .incrementRefCount .incrementRefCount .incrementRefCount) fun _ => .pure
  case decrementRefCount h =>
    exact .bind (value_traced h) fun h =>
      .bind (.lift .decrementRefCount) fun _ => .pure
  case defineVar env sym v =>
    exact .bind (value_traced env) fun env => .bind (value_traced sym) fun sym =>
      .bind (value_traced v) fun v => .bind (defineVar_traced hhost).run fun _ => .pure
  case findVar env sym =>
    exact .bind (value_traced env) fun env => .bind (value_traced sym) fun sym =>
      .bind (.retouch .findVar .findVar .findVar) fun _ => .pure
  case findVarInFrame env sym =>
    exact .bind (value_traced env) fun env => .bind (value_traced sym) fun sym =>
      .bind (.reads .findVarInFrame) fun _ => .pure
  case removeVar env sym =>
    exact .bind (value_traced env) fun env => .bind (value_traced sym) fun sym =>
      .bind (.lift .removeVar) fun _ => .pure
  case pushRoot h =>
    exact .bind (value_traced h) fun h => .bind (.retouch .pushRoot .pushRoot .pushRoot) fun _ => .pure
  case pushRootWithIndex h slot =>
    refine .bind (value_traced h) fun h => .bind (.retouch .pushRoot .pushRoot .pushRoot) fun result => ?_
    cases result with
    | ok index => exact .bind modifyState_traced fun _ => .pure
    | error e => exact .pure
  case reprotect h slot =>
    refine .bind getState_traced fun state => ?_
    cases state.protectSlots.lookup slot with
    | none => exact .pure
    | some index =>
      exact .bind (value_traced h) fun h => .bind (.retouch .reprotect .onProtect .onProtect) fun _ => .pure
  case popRoots n =>
    exact .bind (.retouch .popRoots .onProtect .onProtect) fun _ => .bind (.reads .protectDepth) fun _ => .pure
  case preserve h =>
    exact .bind (value_traced h) fun h => .bind modifyRoots_traced fun _ => .pure
  case release h =>
    refine .bind .getHeap fun heap => .bind (value_traced h) fun h => ?_
    cases heap.roots.release? h with
    | none => exact .pure
    | some roots =>
      exact .bind modifyRoots_traced fun _ => .pure
  case beginContext fields =>
    exact .bind (fieldValues_traced fields) fun fields => .bind modifyRoots_traced fun _ =>
      .bind .getHeap fun _ => .pure
  case setContext fields =>
    exact .bind (fieldValues_traced fields) fun fields => .bind modifyRoots_traced fun _ =>
      .bind .getHeap fun _ => .pure
  case endContext => exact .bind .getHeap fun heap => .bind modifyRoots_traced fun _ => .pure
  case byteCodePush h =>
    exact .bind (value_traced h) fun h => .bind modifyRoots_traced fun _ =>
      .bind .getHeap fun _ => .pure
  case byteCodePop n => exact .bind modifyRoots_traced fun _ => .bind .getHeap fun _ => .pure
  case setHandlerStack h =>
    exact .bind (value_traced h) fun h => .bind modifyRoots_traced fun _ => .pure
  case setRestartStack h =>
    exact .bind (value_traced h) fun h => .bind modifyRoots_traced fun _ => .pure
  case addRootSource hs =>
    exact .bind .getHeap fun heap => .bind (values_traced hs) fun hs =>
      .bind modifyRoots_traced fun _ => .bind getState_traced fun state =>
      .bind modifyState_traced fun _ => .pure
  case setRootSource number hs =>
    refine .bind (values_traced hs) fun hs => .bind getState_traced fun state => ?_
    cases state.currentSource? number with
    | none => exact .pure
    | some id => exact .bind modifyRoots_traced fun _ => .pure
  case removeRootSource number =>
    refine .bind getState_traced fun state => ?_
    cases state.sources[number]? with
    | none => exact .pure
    | some id =>
      refine .bind .getHeap fun heap => ?_
      cases heap.roots.removeSource? id with
      | none => exact .pure
      | some roots => exact .bind modifyRoots_traced fun _ => .pure
  case runPendingFinalizers => exact .bind (.runPendingFinalizers hhost) fun _ => .pure
  case runExitFinalizers => exact .bind (.runExitFinalizers hhost) fun _ => .pure
  case enterScope name =>
    exact .bind (.reads .enterRecovery) fun scope => .bind modifyState_traced fun _ => .pure
  case leaveScope name =>
    refine .bind getState_traced fun state => ?_
    cases state.scopes.lookup name with
    | none => exact .pure
    | some scope => exact .bind (.retouch .leaveRecovery .leaveRecovery .leaveRecovery) fun _ => .pure
  case setEvaluator name routine => exact aside_traced fun heap => ⟨_, _, rfl, rfl⟩
  case collect level => exact .bind (.requestCollection hhost level) fun _ => .pure
  case observe => exact aside_traced fun heap => ⟨_, _, rfl, rfl⟩
  case stopObserving => exact aside_traced fun heap => ⟨_, _, rfl, rfl⟩
  case freed => exact .bind .getHeap fun heap => aside_traced fun heap => ⟨_, _, rfl, rfl⟩
  case log => exact .bind .getHeap fun heap => aside_traced fun heap => ⟨_, _, rfl, rfl⟩
  case runs =>
    exact .bind getState_traced fun state => .bind modifyState_traced fun _ => .pure
  case setScheduler scheduler =>
    exact .bind (.retouch .setScheduler (.modify (fun _ => rfl) (fun _ => rfl) fun _ => rfl)
      (.modify fun _ => rfl)) fun _ => .pure
  case task a h => exact .bind (value_traced h) fun h => .retouch .task .task .task
  case move h => exact .bind (value_traced h) fun h => .pure
  case replaceHeap => exact .bind (replaceHeap_traced hhost) fun _ => .pure

theorem repeatRounds_traced {round : SessionM (Option Reply)} (hround : Traced round) (n : Nat)
    (completed : Nat) (last : Option Reply) : Traced (repeatRounds round completed last n) := by
  induction n generalizing completed last with
  | zero => exact .pure
  | succ n ih =>
    refine .bind hround fun reply => ?_
    split
    · exact .pure
    · exact ih _ _

mutual

theorem runStep_traced (hhost : host.Traced) : ∀ step, Traced (runStep host step)
  | .command c store => by
    rw [runStep]
    refine .bind (perform_traced hhost c) fun reply => ?_
    cases store with
    | none => exact .pure
    | some name =>
      cases reply.handle? with
      | none => exact .pure
      | some h => exact .bind modifyState_traced fun _ => .pure
  | .scope steps => by
    rw [runStep]
    exact .bind (.reads .protectDepth) fun base => .bind (runSteps_traced hhost steps) fun replies =>
      .bind (.retouch .closeScope .closeScope .closeScope) fun _ => .bind (.reads .protectDepth) fun _ => .pure
  | .times n steps => by
    rw [runStep]
    exact repeatRounds_traced (runRound_traced hhost steps) n 0 none
  | .setScript routine steps ending => by
    rw [runStep]
    exact .bind modifyState_traced fun _ => .pure

theorem runSteps_traced (hhost : host.Traced) : ∀ steps, Traced (runSteps host steps)
  | [] => by
    rw [runSteps]
    exact .pure
  | step :: steps => by
    rw [runSteps]
    exact .bind (runStep_traced hhost step) fun reply =>
      .bind (runSteps_traced hhost steps) fun replies => .pure

theorem runRound_traced (hhost : host.Traced) : ∀ steps, Traced (runRound host steps)
  | [] => by
    rw [runRound]
    exact .pure
  | step :: steps => by
    rw [runRound]
    refine .bind (runStep_traced hhost step) fun reply => ?_
    split
    · exact .pure
    · exact .bind (runRound_traced hhost steps) fun last => .pure

end

theorem runScript_traced (hhost : host.Traced) (caller : Caller) (routine : Nat) (key : Handle) :
    Traced (runScript host caller routine key) := by
  refine .bind getState_traced fun state => .bind (.reads .isLive) fun live =>
    .bind getState_traced fun before => .bind modifyState_traced fun _ =>
    .bind (runSteps_traced hhost _) fun replies => .bind modifyState_traced fun _ => ?_
  cases (state.script routine).ending <;> exact .pure

theorem hostWithin_traced (levels : Nat) : (hostWithin levels).Traced := by
  induction levels with
  | zero => exact ⟨hostWithin_safe 0, fun _ _ => .throw, fun _ _ _ => .throw⟩
  | succ levels ih =>
    exact ⟨hostWithin_safe (levels + 1), fun routine key => runScript_traced ih _ routine key,
      fun evaluator _ key => runScript_traced ih _ evaluator.routine key⟩

/-- Every heap that a session reaches is sound, and it and its counts have a history. -/
theorem Reachable.soundWithHistory {state : State} {heap : Heap} (hr : Reachable state heap) :
    heap.SoundWithHistory := by
  induction hr with
  | @new config hash heap hvalid hbuild =>
    have hv := Config.valid_of_ok hvalid
    exact ⟨Heap.build_sound hv.few hv.names hbuild, .of_born (.build hv hbuild)⟩
  | step _ hrun ih => exact runStep_traced (hostWithin_traced _) _ _ _ _ _ ih hrun

/-- Every heap that a session reaches is sound and has a history. -/
theorem Reachable.traced {state : State} {heap : Heap} (hr : Reachable state heap) :
    heap.Traced := ⟨hr.soundWithHistory.1, hr.soundWithHistory.2.1⟩

end Session

end ManagedHeap
