import ManagedHeap.Proofs.AllocationOnChain
import ManagedHeap.Proofs.SessionCacheSteps
import ManagedHeap.Proofs.NewHeap

/-!
# No session meets a broken chain

The commands of a session keep the chain unbroken, and so do the scripts that finalizers run, as
long as none of them goes on with another heap: a pass would look for its next record there.
-/

namespace ManagedHeap

namespace Session

open HostM

variable {t : Terms State} {I : State → Prop} {P : Heap → Prop} {host : Host State}
  {scripts : Command → Prop}

/-! Reading operands is on any terms. -/

theorem value_on (o : Operand) : On t P (value o) fun _ => P := by
  cases o with
  | handle h => exact .pure fun _ => id
  | register name => exact .bind (.getState fun _ _ _ => id) fun _ => .pure fun _ => id

theorem mapM_on {α β : Type} {f : α → SessionM β} (hf : ∀ a, On t P (f a) fun _ => P)
    (as : List α) : On t P (as.mapM f) fun _ => P := by
  induction as with
  | nil => exact .pure fun _ => id
  | cons a as ih =>
    rw [List.mapM_cons]
    exact .bind (hf a) fun b => .bind ih fun bs => .pure fun _ => id

theorem values_on (os : List Operand) : On t P (values os) fun _ => P := mapM_on value_on os

theorem fieldValues_on (fields : List (ContextField × Operand)) :
    On t P (fieldValues fields) fun _ => P := by
  unfold fieldValues
  exact mapM_on (fun f => .bind (value_on f.2) fun _ => .pure fun _ => id) fields

theorem getState_on : On t P (getThe State : SessionM State) fun _ => P := .getState fun _ _ _ => id

theorem modifyState_on {g : State → State} (hg : ∀ state, (g state).scripts = state.scripts) :
    Unbroken (State.Obeys scripts) (modifyThe State g : SessionM PUnit) :=
  .modifyState (fun state hs => hs.congr (hg state)) fun _ => id

theorem request_unbroken (hsafe : host.Safe) (hhost : host.Unbroken I) (r : Request) : Attempt.Unbroken I (request host r) := by
  have hvalue : ∀ o, Attempt.Unbroken I (liftM (value o) : Attempt State Handle) :=
    fun o => .liftHost (value_on o)
  have hvalues : ∀ os, Attempt.Unbroken I (liftM (values os) : Attempt State (List Handle)) :=
    fun os => .liftHost (values_on os)
  cases r with
  | allocate kind length roots =>
    exact .bind (hvalues roots) fun roots =>
      (on_allocate hhost).conseq (fun _ => id) fun _ _ hs => hs.1
  | cons car cdr =>
    exact .bind (hvalue car) fun car => .bind (hvalue cdr) fun cdr =>
      construct_unbroken hhost (by decide) ⟨rfl, by simp, by simp [Payload.children]⟩
  | lcons car cdr =>
    exact .bind (hvalue car) fun car => .bind (hvalue cdr) fun cdr =>
      construct_unbroken hhost (by decide) ⟨rfl, by simp, by simp [Payload.children]⟩
  | closure formals body env =>
    exact .bind (hvalue formals) fun formals => .bind (hvalue body) fun body =>
      .bind (hvalue env) fun env =>
      construct_unbroken hhost (by decide) ⟨rfl, by simp, by simp [Payload.children]⟩
  | environment names vals parent =>
    exact .bind (hvalues names) fun names => .bind (hvalues vals) fun vals =>
      .bind (hvalue parent) fun parent => makeEnvironment_unbroken hhost
  | promise expr env =>
    refine .bind (hvalue expr) fun expr => .bind (hvalue env) fun env =>
      construct_unbroken hhost (by decide) ⟨rfl, by simp, ?_⟩
    simp [Payload.children]
  | externalPtr address tag inner =>
    exact .bind (hvalue tag) fun tag => .bind (hvalue inner) fun inner =>
      construct_unbroken hhost (by decide) ⟨rfl, by simp, by simp [Payload.children]⟩
  | byteCode code consts =>
    exact .bind (hvalue code) fun code => .bind (hvalue consts) fun consts =>
      construct_unbroken hhost (by decide) ⟨rfl, by simp, by simp [Payload.children]⟩
  | nativeFunction routine => exact makeNativeFunction_unbroken hhost
  | string bytes encoding => exact internString_unbroken hhost
  | symbol name => exact internSymbol_unbroken hsafe hhost
  | duplicate h => exact .bind (hvalue h) fun h => duplicate_unbroken hhost
  | duplicateIfShared h => exact .bind (hvalue h) fun h => duplicateIfShared_unbroken hhost
  | weakRef key val finalizer onExit =>
    exact .bind (hvalue key) fun key => .bind (hvalue val) fun val =>
      .bind (hvalue finalizer) fun finalizer => makeWeakRef_unbroken hhost
  | nativeFinalizer key routine onExit =>
    exact .bind (hvalue key) fun key => registerFinalizer_unbroken hhost
  | closureFinalizer key closure onExit =>
    exact .bind (hvalue key) fun key => .bind (hvalue closure) fun closure =>
      registerFinalizer_unbroken hhost

theorem tame_set (s : Setter) (h v : Handle) : Tame (set s h v) := by
  cases s
  case car => exact .setCar
  case cdr => exact .setCdr
  case tag => exact .setTag
  case attrib => exact .setAttrib
  case promiseValue => exact .setPromiseValue
  case symbolValue => exact .setSymbolValue

theorem report_unbroken (q : Report) : Unbroken I (liftM (report q) : SessionM Reply) := by
  refine On.lift (.of_ends (fun heap e hread _ he => ?_) fun heap reply heap' hread hs hrun => ?_)
  · have hfails : FailsIn Fault.OffChain Heap.Readable (report q) fun _ _ => True := by
      refine .bind (Q := fun _ => Heap.Readable) (.get fun _ => id) fun now => ?_
      cases q
      case stats => exact .bind HeapM.offChain_stats fun _ => StopsAt.pure
      case hasPendingFinalizers | pendingFinalizerCount =>
        exact .bind HeapM.offChain_pendingFinalizerCount fun _ => StopsAt.pure
      case lastCollection =>
        dsimp only
        split <;> exact .pure fun _ _ => trivial
      all_goals exact .pure fun _ _ => trivial
    exact (hfails heap hread).1 e he
  · obtain rfl := HeapM.Reads.report heap reply heap' hrun
    exact ⟨hread, .refl _, hs⟩

theorem modifyRoots_unbroken {g : RootSet → RootSet} :
    Unbroken I (liftM (HeapM.modifyRoots g) : SessionM PUnit) :=
  .modifyHeap (fun _ => rfl) (fun _ => rfl) (fun _ => rfl) (fun _ => rfl) (fun _ => rfl) (fun _ => rfl)
    fun _ => rfl

theorem aside_unbroken {f : Heap → Heap} {r : Reply}
    (hf : ∀ heap, ∃ evaluator journal, f heap = { heap with evaluator, journal }) : Unbroken I (do
      modifyThe Heap f
      return r : SessionM Reply) := by
  have hsame : ∀ heap, (f heap).config = heap.config ∧ (f heap).arena = heap.arena ∧
      (f heap).strings = heap.strings ∧ (f heap).remembered = heap.remembered ∧
      (f heap).tasks = heap.tasks ∧ (f heap).weak = heap.weak ∧
      (f heap).finalizers.running = heap.finalizers.running := by
    intro heap
    obtain ⟨evaluator, journal, hrest⟩ := hf heap
    rw [hrest]
    exact ⟨rfl, rfl, rfl, rfl, rfl, rfl, rfl⟩
  exact .bind (.modifyHeap (fun heap => (hsame heap).1) (fun heap => (hsame heap).2.1)
    (fun heap => (hsame heap).2.2.1) (fun heap => (hsame heap).2.2.2.1)
    (fun heap => (hsame heap).2.2.2.2.1) (fun heap => (hsame heap).2.2.2.2.2.1)
    fun heap => (hsame heap).2.2.2.2.2.2) fun _ => .pure

theorem perform_unbroken (hsafe : host.Safe) (hhost : host.Unbroken (State.Obeys scripts))
    {c : Command} (hc : c ≠ .replaceHeap) : Unbroken (State.Obeys scripts) (perform host c) := by
  cases c
  case request r => exact .bind (request_unbroken hsafe hhost r).run fun _ => .pure
  case allocateFast kind length =>
    exact On.bind (.lift HeapM.on_allocateFast) fun _ => .pure fun _ h => h.1
  case ask q h => exact .bind (value_on h) fun h => .reads .ask .ask
  case report r => exact report_unbroken r
  case vectorElt h index =>
    exact .bind (value_on h) fun h => .bind (.reads .vectorElt .vectorElt) fun _ => .pure
  case set s h v =>
    exact .bind (value_on h) fun h => .bind (value_on v) fun v =>
      .bind (.preservesRecords (tame_set s h v) (set_safe s h v) (set_preservesRecords s h v)) fun _ => .pure
  case setVectorElt h index v =>
    exact .bind (value_on h) fun h => .bind (value_on v) fun v =>
      .bind (.preservesRecords .setVectorElt .setVectorElt .setVectorElt) fun _ => .pure
  case setObjectBit h b =>
    exact .bind (value_on h) fun h => .bind (.preservesRecords .setObjectBit .setObjectBit .setObjectBit) fun _ => .pure
  case touch h => exact .bind (value_on h) fun h => .bind (.preservesRecords .touch .touch .touch) fun _ => .pure
  case setReal h vs =>
    exact .bind (value_on h) fun h => .bind (.preservesRecords .setRealData .setRealData .setRealData) fun _ => .pure
  case setInteger h vs =>
    exact .bind (value_on h) fun h => .bind (.preservesRecords .setIntegerData .setIntegerData .setIntegerData) fun _ => .pure
  case setRaw h vs =>
    exact .bind (value_on h) fun h => .bind (.preservesRecords .setRawData .setRawData .setRawData) fun _ => .pure
  case incrementRefCount h =>
    exact .bind (value_on h) fun h => .bind (.preservesRecords .incrementRefCount .incrementRefCount .incrementRefCount) fun _ => .pure
  case decrementRefCount h =>
    exact .bind (value_on h) fun h => .bind (.preservesRecords .decrementRefCount .decrementRefCount .decrementRefCount) fun _ => .pure
  case defineVar env sym v =>
    exact .bind (value_on env) fun env => .bind (value_on sym) fun sym =>
      .bind (value_on v) fun v => .bind (defineVar_unbroken hhost).run fun _ => .pure
  case findVar env sym =>
    exact .bind (value_on env) fun env => .bind (value_on sym) fun sym =>
      .bind (.preservesRecords .findVar .findVar .findVar) fun _ => .pure
  case findVarInFrame env sym =>
    exact .bind (value_on env) fun env => .bind (value_on sym) fun sym =>
      .bind (.reads .findVarInFrame .findVarInFrame) fun _ => .pure
  case removeVar env sym =>
    exact .bind (value_on env) fun env => .bind (value_on sym) fun sym =>
      .bind (.preservesRecords .removeVar .removeVar .removeVar) fun _ => .pure
  case pushRoot h => exact .bind (value_on h) fun h => .bind (.preservesRecords .pushRoot .pushRoot .pushRoot) fun _ => .pure
  case pushRootWithIndex h slot =>
    refine .bind (value_on h) fun h => .bind (.preservesRecords .pushRoot .pushRoot .pushRoot) fun result => ?_
    cases result with
    | ok index => exact .bind (modifyState_on fun _ => rfl) fun _ => .pure
    | error e => exact .pure
  case reprotect h slot =>
    refine .bind getState_on fun state => ?_
    cases state.protectSlots.lookup slot with
    | none => exact .pure
    | some index =>
      exact .bind (value_on h) fun h => .bind (.preservesRecords .reprotect .reprotect .reprotect) fun _ => .pure
  case popRoots n =>
    exact .bind (.preservesRecords .popRoots .popRoots .popRoots) fun _ => .bind (.reads .protectDepth .protectDepth) fun _ => .pure
  case preserve h => exact .bind (value_on h) fun h => .bind modifyRoots_unbroken fun _ => .pure
  case release h =>
    refine .bind .getHeap fun heap => .bind (value_on h) fun h => ?_
    cases heap.roots.release? h with
    | none => exact .pure
    | some roots => exact .bind modifyRoots_unbroken fun _ => .pure
  case beginContext fields =>
    exact .bind (fieldValues_on fields) fun fields => .bind modifyRoots_unbroken fun _ =>
      .bind .getHeap fun _ => .pure
  case setContext fields =>
    exact .bind (fieldValues_on fields) fun fields => .bind modifyRoots_unbroken fun _ =>
      .bind .getHeap fun _ => .pure
  case endContext =>
    exact .bind .getHeap fun heap => .bind modifyRoots_unbroken fun _ => .pure
  case byteCodePush h =>
    exact .bind (value_on h) fun h => .bind modifyRoots_unbroken fun _ =>
      .bind .getHeap fun _ => .pure
  case byteCodePop n =>
    exact .bind modifyRoots_unbroken fun _ => .bind .getHeap fun _ => .pure
  case setHandlerStack h =>
    exact .bind (value_on h) fun h => .bind modifyRoots_unbroken fun _ => .pure
  case setRestartStack h =>
    exact .bind (value_on h) fun h => .bind modifyRoots_unbroken fun _ => .pure
  case addRootSource hs =>
    exact .bind .getHeap fun heap => .bind (values_on hs) fun hs =>
      .bind modifyRoots_unbroken fun _ => .bind getState_on fun state =>
      .bind (modifyState_on fun _ => rfl) fun _ => .pure
  case setRootSource number hs =>
    refine .bind (values_on hs) fun hs => .bind getState_on fun state => ?_
    cases state.currentSource? number with
    | none => exact .pure
    | some id =>
      exact .bind modifyRoots_unbroken fun _ => .pure
  case removeRootSource number =>
    refine .bind getState_on fun state => ?_
    cases state.sources[number]? with
    | none => exact .pure
    | some id =>
      refine .bind .getHeap fun heap => ?_
      cases heap.roots.removeSource? id with
      | none => exact .pure
      | some roots => exact .bind modifyRoots_unbroken fun _ => .pure
  case runPendingFinalizers => exact .bind (.runPendingFinalizers hhost) fun _ => .pure
  case runExitFinalizers => exact .bind (.runExitFinalizers hhost) fun _ => .pure
  case enterScope name =>
    exact .bind (.reads .enterRecovery .enterRecovery) fun scope => .bind (modifyState_on fun _ => rfl) fun _ => .pure
  case leaveScope name =>
    refine .bind getState_on fun state => ?_
    cases state.scopes.lookup name with
    | none => exact .pure
    | some scope => exact .bind .leaveRecovery fun _ => .pure
  case setEvaluator name routine =>
    refine aside_unbroken ?_
    exact fun heap => ⟨_, _, rfl⟩
  case collect level => exact .bind (.requestCollection hhost level) fun _ => .pure
  case observe =>
    refine aside_unbroken ?_
    exact fun heap => ⟨_, _, rfl⟩
  case stopObserving =>
    refine aside_unbroken ?_
    exact fun heap => ⟨_, _, rfl⟩
  case freed =>
    refine .bind .getHeap fun heap => aside_unbroken ?_
    exact fun heap => ⟨_, _, rfl⟩
  case log =>
    refine .bind .getHeap fun heap => aside_unbroken ?_
    exact fun heap => ⟨_, _, rfl⟩
  case runs =>
    exact .bind getState_on fun state => .bind (modifyState_on fun _ => rfl) fun _ => .pure
  case setScheduler scheduler =>
    exact .bind (.preservesRecords .modify .setScheduler (.modify (fun _ => rfl) (fun _ => rfl) (fun _ => rfl)
      fun _ => rfl)) fun _ => .pure
  case task a h => exact .bind (value_on h) fun h => .preservesRecords .task .task .task
  case move h => exact .bind (value_on h) fun h => .pure
  case replaceHeap => exact absurd rfl hc


def Resting (renews : Prop) (heap : Heap) : Prop :=
  heap.Sound ∧ (renews → heap.finalizers.running = false)

theorem Resting.of_unbroken {renews : Prop} {α : Type} {act : SessionM α} (hact : Unbroken I act) :
    On (.unbroken I) (Resting renews) act fun _ => Resting renews := by
  intro state hstate heap hread hrests
  refine (hact state hstate heap hread hrests.1).conseq (fun _ => id) fun p heap' hend => ?_
  obtain ⟨hread', hp, hstate', hs'⟩ := hend
  exact ⟨hread', hp, hstate', hs', fun hrenews => hp.running.trans (hrests.2 hrenews)⟩

theorem build_default (hash : Bytes → Encoding → UInt32) : ∃ heap, Heap.build {} hash = .ok heap :=
  Heap.build_ends (by decide) (by decide) (by decide)

theorem replaceHeap_on (hhost : host.Unbroken I) :
    On (.unbroken I) (Resting True) (replaceHeap host) fun _ => Resting True := by
  refine .bind (Resting.of_unbroken (.runExitFinalizers hhost)) fun ran => .ends ?_
  rintro state heap hstate hread ⟨hs, hrests⟩
  obtain ⟨fresh, hbuild⟩ := build_default heap.strings.hash
  obtain ⟨hchain, htally⟩ := Heap.build_chain hbuild
  have hfresh : fresh.Sound := Heap.build_sound (by simp [maxSegmentCells]) (by decide) hbuild
  have hrunning : fresh.finalizers.running = heap.finalizers.running :=
    (congrArg Tally.running htally).trans (hrests trivial).symm
  refine ⟨⟨⟩, state, { fresh with
      journal := { heap.journal with
        observing := false
        history := heap.journal.history ++ fresh.journal.history }
      tasks := { registry := heap.tasks.registry } }, ?_, hstate, ?_, ⟨hrunning, ?_⟩, ?_, ?_⟩
  · refine run_bindM.mpr ⟨heap, state, heap, rfl, run_bindM.mpr ⟨fresh, state, heap, ?_, rfl⟩⟩
    rw [hbuild]
    rfl
  · exact Heap.Readable.aside ⟨[], hchain⟩ rfl rfl
  · exact fun hrunning _ _ => absurd ((hrests trivial).symm.trans hrunning) Bool.false_ne_true
  · exact (hfresh.retask { registry := heap.tasks.registry } hs.registered).aside rfl rfl rfl rfl rfl
  · exact fun _ => congrArg Tally.running htally

section

variable {renews : Prop} (hsafe : host.Safe) (hhost : host.Unbroken (State.Obeys scripts))

include hsafe hhost

theorem perform_resting {c : Command} (hc : c = .replaceHeap → renews) :
    On (.unbroken (State.Obeys scripts)) (Resting renews) (perform host c)
      fun _ => Resting renews := by
  by_cases hsame : c = .replaceHeap
  · subst hsame
    rw [eq_true (hc rfl)]
    exact .bind (replaceHeap_on hhost) fun _ => .pure fun _ => id
  · exact Resting.of_unbroken (perform_unbroken hsafe hhost hsame)

end

theorem repeatRounds_on {round : SessionM (Option Reply)} (hround : On t P round fun _ => P)
    (n : Nat) (completed : Nat) (last : Option Reply) :
    On t P (repeatRounds round completed last n) fun _ => P := by
  induction n generalizing completed last with
  | zero => exact .pure fun _ => id
  | succ n ih =>
    refine .bind hround fun reply => ?_
    split
    · exact .pure fun _ => id
    · exact ih _ _

/-- The commands that a session may give while finalizers rest if it goes on with other heaps, and
those that it always may give. -/
def Stays (renews : Prop) (c : Command) : Prop := c = .replaceHeap → renews

variable {renews : Prop}

mutual

theorem runStep_resting (hsafe : host.Safe) (hhost : host.Unbroken (State.Obeys (Stays False))) :
    ∀ {step : Step}, step.Obeys (Stays renews) (Stays False) →
      On (.unbroken (State.Obeys (Stays False))) (Resting renews) (runStep host step)
        fun _ => Resting renews
  | .command c store, hstep => by
    rw [runStep]
    rw [Step.Obeys] at hstep
    refine .bind (perform_resting hsafe hhost hstep) fun reply => ?_
    cases store with
    | none => exact .pure fun _ => id
    | some name =>
      cases reply.handle? with
      | none => exact .pure fun _ => id
      | some h => exact .bind (Resting.of_unbroken (modifyState_on fun _ => rfl)) fun _ => .pure fun _ => id
  | .scope steps, hstep => by
    rw [runStep]
    rw [Step.Obeys] at hstep
    exact .bind (Resting.of_unbroken (.reads .protectDepth .protectDepth)) fun base =>
      .bind (runSteps_resting hsafe hhost hstep) fun replies =>
      .bind (Resting.of_unbroken (.preservesRecords .closeScope .closeScope .closeScope)) fun _ =>
      .bind (Resting.of_unbroken (.reads .protectDepth .protectDepth)) fun _ => .pure fun _ => id
  | .times n steps, hstep => by
    rw [runStep]
    rw [Step.Obeys] at hstep
    exact repeatRounds_on (runRound_resting hsafe hhost hstep) n 0 none
  | .setScript routine steps ending, hstep => by
    rw [runStep]
    rw [Step.Obeys] at hstep
    exact .bind (.modifyState (fun _ hs => hs.assign hstep) fun _ => id) fun _ => .pure fun _ => id

theorem runSteps_resting (hsafe : host.Safe) (hhost : host.Unbroken (State.Obeys (Stays False))) :
    ∀ {steps : List Step}, Obey (Stays renews) (Stays False) steps →
      On (.unbroken (State.Obeys (Stays False))) (Resting renews) (runSteps host steps)
        fun _ => Resting renews
  | [], _ => by
    rw [runSteps]
    exact .pure fun _ => id
  | step :: steps, hsteps => by
    rw [runSteps]
    rw [Obey] at hsteps
    exact .bind (runStep_resting hsafe hhost hsteps.1) fun reply =>
      .bind (runSteps_resting hsafe hhost hsteps.2) fun replies => .pure fun _ => id

theorem runRound_resting (hsafe : host.Safe) (hhost : host.Unbroken (State.Obeys (Stays False))) :
    ∀ {steps : List Step}, Obey (Stays renews) (Stays False) steps →
      On (.unbroken (State.Obeys (Stays False))) (Resting renews) (runRound host steps)
        fun _ => Resting renews
  | [], _ => by
    rw [runRound]
    exact .pure fun _ => id
  | step :: steps, hsteps => by
    rw [runRound]
    rw [Obey] at hsteps
    refine .bind (runStep_resting hsafe hhost hsteps.1) fun reply => ?_
    split
    · exact .pure fun _ => id
    · exact .bind (runRound_resting hsafe hhost hsteps.2) fun last => .pure fun _ => id

end

theorem runScript_unbroken (hsafe : host.Safe) (hhost : host.Unbroken (State.Obeys (Stays False)))
    (caller : Caller) (routine : Nat) (key : Handle) :
    Unbroken (State.Obeys (Stays False)) (runScript host caller routine key) := by
  refine On.bind (Q := fun state heap => heap.Sound ∧ state.Obeys (Stays False))
    (.getState fun _ _ hstate hs => ⟨hs, hstate⟩) fun state => .of_and fun hstate => ?_
  have hrests : On (.unbroken (State.Obeys (Stays False))) (Resting False)
      (runSteps host (state.script routine).steps) fun _ => Resting False :=
    runSteps_resting hsafe hhost (hstate.script routine)
  have hsteps : Unbroken (State.Obeys (Stays False))
      (runSteps host (state.script routine).steps) :=
    hrests.conseq (fun _ hs => ⟨hs, nofun⟩) fun _ _ h => h.1
  refine Unbroken.bind (.reads .isLive .isLive) fun live => .bind getState_on fun before =>
    .bind (modifyState_on fun _ => rfl) fun _ => .bind hsteps fun replies =>
    .bind (modifyState_on fun _ => rfl) fun _ => ?_
  cases (state.script routine).ending <;> exact .pure

theorem hostWithin_unbroken (levels : Nat) :
    (hostWithin levels).Unbroken (State.Obeys (Stays False)) := by
  induction levels with
  | zero => exact ⟨fun _ _ => .throw id, fun _ _ _ => .throw id⟩
  | succ levels ih =>
    exact ⟨fun routine key => runScript_unbroken (hostWithin_safe levels) ih _ routine key,
      fun evaluator _ key => runScript_unbroken (hostWithin_safe levels) ih _ evaluator.routine key⟩

end Session

end ManagedHeap
