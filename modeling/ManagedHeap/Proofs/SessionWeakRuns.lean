import ManagedHeap.Proofs.AllocationWeakRuns
import ManagedHeap.Proofs.SessionInvariant

/-!
# What copies and sessions do to the weak chain

Copies are made with allocations and setters, and a command of a session is an operation, so
all of them have runs of the weak chain. The foreign code of a session runs commands.
-/

namespace ManagedHeap

namespace HostM

variable {ω : Type} {host : Host ω} {copyOne : Handle → Attempt ω Handle}

theorem copyPairs_hasWeakRun (hhost : host.HasWeakRun) (hcopy : ∀ h, Attempt.HasWeakRun (copyOne h)) {index : Nat}
    (fuel : Nat) (head tail cursor : Handle) :
    Attempt.HasWeakRun (copyPairs host copyOne index head tail cursor fuel) := by
  induction fuel generalizing head tail cursor with
  | zero => exact .throwFault
  | succ fuel ih =>
    refine .bind (.reads .kind) fun k => ?_
    split
    · exact .pure
    · refine .bind (.reads .car) fun car => .bind (hcopy car) fun element =>
        .bind (.reads .kind) fun cellKind => .bind (.reads .tag) fun cellTag => ?_
      refine Attempt.WeakRunTriple.bind (weakRunTriple_allocate hhost) fun cell =>
        .conseq (P := Heap.Sound) ?_ (fun _ hs => hs.1) fun _ _ => id
      refine Attempt.HasWeakRun.bind (.preservesRecords .setCar .setCar) fun _ => .bind (.preservesRecords .setTag .setTag) fun _ => ?_
      have hend : ∀ head, Attempt.HasWeakRun (ω := ω) (do
          let next ← HeapM.cdr cursor
          copyPairs host copyOne index head cell next fuel) :=
        fun head => .bind (.reads .cdr) fun next => ih head cell next
      split
      · exact .bind (.preservesRecords .reprotect .reprotect) fun _ => hend cell
      · exact .bind (.preservesRecords .setCdr .setCdr) fun _ => hend head

theorem copyPairlist_hasWeakRun (hhost : host.HasWeakRun) (hcopy : ∀ h, Attempt.HasWeakRun (copyOne h))
    {h : Handle} : Attempt.HasWeakRun (copyPairlist host copyOne h) := by
  refine .protecting (.bind (.attempt .pushRoot .pushRoot) fun index => .bind (.liftHost .stepBound)
    fun bound => .bind (copyPairs_hasWeakRun hhost hcopy bound .nil .nil h) fun result => ?_)
  obtain ⟨head, tail, rest⟩ := result
  dsimp only
  split
  · exact .bind (hcopy rest) fun last => .bind (.preservesRecords .setCdr .setCdr) fun _ => .pure
  · exact .pure

theorem copyElements_hasWeakRun (hcopy : ∀ h, Attempt.HasWeakRun (copyOne h)) {h copy : Handle}
    (places : List Nat) : Attempt.HasWeakRun (copyElements copyOne h copy places) := by
  induction places with
  | nil => exact .pure
  | cons i rest ih =>
    exact .bind (.attempt (.of_reads .vectorElt) (.of_reads .vectorElt)) fun old => .bind (hcopy old) fun element =>
      .bind (.attempt .setVectorElt .setVectorElt) fun _ => ih

theorem copyVector_hasWeakRun (hhost : host.HasWeakRun) (hcopy : ∀ h, Attempt.HasWeakRun (copyOne h))
    {h : Handle} : Attempt.HasWeakRun (copyVector host copyOne h) := by
  refine .bind (.reads .kind) fun kind => .bind (.reads .length) fun length => .protecting ?_
  refine Attempt.WeakRunTriple.bind (weakRunTriple_allocate hhost) fun copy =>
    .conseq (P := Heap.Sound) ?_ (fun _ hs => hs.1) fun _ _ => id
  exact Attempt.HasWeakRun.bind (.attempt .pushRoot .pushRoot) fun _ =>
    .bind (copyElements_hasWeakRun hcopy (List.range length)) fun _ => .pure

theorem copyStrings_hasWeakRun (hhost : host.HasWeakRun) {h : Handle} :
    Attempt.HasWeakRun (copyStrings host h) := by
  refine Attempt.WeakRunTriple.bind (.lift (.preservesRecords HeapM.payload_spec (.of_reads .payload))) fun p => ?_
  cases p
  case handles elements =>
    refine .bind (.lift (.preservesRecords HeapM.kind_suits (.of_reads .kind))) fun kind =>
      .of_and fun hsuits => ?_
    have hkind : kind ≠ .weakRef := by
      rintro rfl
      exact nomatch hsuits
    refine .bind (weakRunTriple_allocate hhost) fun copy => .bind (.lift (.preservesRecords
      ((HeapM.countReferences_fresh elements.toList).conseq (fun _ hs => ⟨hs.1, hs.2.1⟩)
        fun _ _ => id) (.countReferences _))) fun _ => ?_
    refine .bind (Q := fun _ => Heap.Sound) (.lift (.preservesFlags (HeapM.setPayload_counted
      ⟨hsuits, nofun, fun k hk => .inl hk⟩) ?_)) fun _ => Attempt.HasWeakRun.pure
    rintro heap u heap' ⟨⟨hs, hfresh⟩, -⟩ hrun
    obtain ⟨c, hc, -⟩ := id hfresh
    exact HeapM.PreservesRecords.rewrite hc (hfresh.fields? hs hkind hc) rfl hrun
  all_goals
    exact .conseq (P := Heap.Sound) (Attempt.HasWeakRun.reads .wrongKind) (fun _ hs => hs.1)
      fun _ _ => id

theorem copyData_weakRunTriple (hhost : host.HasWeakRun) {h : Handle} {data : Kind}
    (hdata : data ∈ [.charString, .logicalVector, .integerVector, .realVector, .rawVector]) :
    Attempt.WeakRunTriple (fun heap => heap.Sound ∧ ∃ c, heap.arena.get? h = some c ∧ c.kind = data)
      (copyData host h) (fun _ => Heap.Sound) Heap.Sound := by
  refine .bind (.lift (.preservesRecords HeapM.payload_suits (.of_reads .payload))) fun p =>
    .of_and fun hp => ?_
  refine .bind (.lift (.preservesRecords HeapM.kind_suits (.of_reads .kind))) fun kind =>
    .of_and fun hsuits => ?_
  have hkind : kind ≠ .weakRef := by
    rintro rfl
    cases p <;> cases data <;> simp_all [Payload.suits]
  have hfits : p.Fits kind [] := Payload.fits_of_data hp hdata hsuits
  exact .bind (weakRunTriple_allocate hhost) fun copy => .bind (.lift (weakRunTriple_setPayload hkind hsuits)) fun _ =>
    .pure fun heap hfilled => HeapM.countReferences_filled hfits heap ⟨⟩ heap hfilled rfl

theorem copyAttributes_hasWeakRun (hcopy : ∀ h, Attempt.HasWeakRun (copyOne h)) {h copy : Handle} :
    Attempt.HasWeakRun (copyAttributes copyOne h copy) := by
  refine .bind (.reads .attrib) fun attached => .bind (.reads .flags) fun flags => ?_
  have hend : Attempt.HasWeakRun (ω := ω) (do
      HeapM.updateCell copy (Cell.mapFlags fun fs =>
        { fs with object := fs.object || flags.object, s4Object := fs.s4Object || flags.s4Object })
      return copy) :=
    .bind (.preservesRecords (.updateCell fun _ _ _ _ => ⟨.header rfl rfl rfl rfl rfl rfl rfl rfl id, rfl⟩)
      (.updateCell (fun _ => rfl) (fun _ => rfl) fun _ => ⟨id, id⟩)) fun _ => .pure
  dsimp only
  split
  · refine .bind (.protecting ?_) fun _ => hend
    exact .bind (.attempt .pushRoot .pushRoot) fun _ => .bind (hcopy attached) fun value =>
      .preservesRecords .setAttrib .setAttrib
  · exact hend

theorem copyWithin_hasWeakRun (hhost : host.HasWeakRun) (fuel : Nat) (h : Handle) :
    Attempt.HasWeakRun (copyWithin host fuel h) := by
  induction fuel generalizing h with
  | zero => exact .throwFault
  | succ fuel ih =>
    refine Attempt.HasWeakRun.bind (.preservesRecords .awaitOutput .awaitOutput) fun _ =>
      Attempt.WeakRunTriple.bind (.lift (.preservesRecords HeapM.kind_spec (.of_reads .kind))) fun k => ?_
    have hdata : k ∈ [.charString, .logicalVector, .integerVector, .realVector, .rawVector] →
        Attempt.WeakRunTriple (fun heap => heap.Sound ∧ ∃ c, heap.arena.get? h = some c ∧ c.kind = k) (do
          copyAttributes (copyWithin host fuel) h (← copyData host h))
          (fun _ => Heap.Sound) Heap.Sound :=
      fun hk => .bind (copyData_weakRunTriple hhost hk) fun copy => copyAttributes_hasWeakRun ih
    have hplain : ∀ {act : Attempt ω Handle}, Attempt.HasWeakRun act →
        Attempt.WeakRunTriple (fun heap => heap.Sound ∧ ∃ c, heap.arena.get? h = some c ∧ c.kind = k) act
          (fun _ => Heap.Sound) Heap.Sound :=
      fun hact => .conseq hact (fun _ hs => hs.1) fun _ _ => id
    cases k
    case pair | language =>
      exact hplain (.bind (copyPairlist_hasWeakRun hhost ih) fun copy => copyAttributes_hasWeakRun ih)
    case list | expression =>
      exact hplain (.bind (copyVector_hasWeakRun hhost ih) fun copy => copyAttributes_hasWeakRun ih)
    case stringVector =>
      exact hplain (.bind (copyStrings_hasWeakRun hhost) fun copy => copyAttributes_hasWeakRun ih)
    case charString =>
      refine .bind (.lift (.preservesRecords (.of_reads .flags fun _ _ => id) (.of_reads .flags))) fun flags => ?_
      split
      · exact hplain .pure
      · exact hdata (by simp)
    case logicalVector | integerVector | realVector | rawVector => exact hdata (by simp)
    case closure =>
      refine hplain (.bind (.reads .closureParts) fun parts => ?_)
      obtain ⟨formals, body, env⟩ := parts
      refine .bind (construct_hasWeakRun hhost (by decide) ⟨rfl, nofun, ?_⟩) fun copy => copyAttributes_hasWeakRun ih
      simp [Payload.children]
    all_goals exact hplain .pure

theorem duplicate_hasWeakRun (hhost : host.HasWeakRun) {h : Handle} : Attempt.HasWeakRun (duplicate host h) :=
  .protecting (.bind (.attempt .pushRoot .pushRoot) fun _ => .bind (.liftHost .stepBound) fun bound =>
    copyWithin_hasWeakRun hhost bound h)

theorem duplicateIfShared_hasWeakRun (hhost : host.HasWeakRun) {h : Handle} :
    Attempt.HasWeakRun (duplicateIfShared host h) := by
  refine .bind (.reads .mayMutate) fun free => ?_
  split
  · exact .pure
  · exact duplicate_hasWeakRun hhost

end HostM

namespace RootSet

variable {r roots : RootSet}

theorem transient_release? {h : Handle} (hr : r.release? h = some roots) :
    roots.transient = r.transient := by
  unfold release? at hr
  split at hr
  · exact nomatch hr
  · rw [← Option.some.inj hr]

theorem transient_removeSource? {id : Nat} (hr : r.removeSource? id = some roots) :
    roots.transient = r.transient := by
  unfold removeSource? at hr
  split at hr
  · rw [← Option.some.inj hr]
  · exact nomatch hr

end RootSet

theorem Heap.build_chain {config : Config} {hash : Bytes → Encoding → UInt32} {heap : Heap}
    (hb : build config hash = .ok heap) : heap.Chain [] ∧ heap.tally = ⟨0, false, [.opened config]⟩ := by
  have hbeside : heap.weak = { head := .nil, length := 0 } ∧
      heap.tally = ⟨0, false, [.opened config]⟩ := by
    replace hb := furnish_of_build hb
    simp only [furnish] at hb
    split at hb
    · simp only [except_bind, pure, Except.pure, Except.ok.injEq] at hb
      obtain ⟨_, -, _, -, rfl⟩ := hb
      exact ⟨rfl, rfl⟩
    · cases hb
  refine ⟨⟨?_, ?_, List.nodup_nil, ?_⟩, hbeside.2⟩
  · rw [hbeside.1]
    exact .nil
  · rw [hbeside.1]
    rfl
  · intro r f hf
    obtain ⟨c, hc, hcf⟩ := Option.bind_eq_some_iff.mp hf
    obtain ⟨kind, payload, rfl, ⟨-, rfl⟩ | ⟨-, rfl⟩⟩ := build_cells hb hc <;> cases hcf

namespace Session

open HostM

variable {H : Host State → Prop} {host : Host State}

theorem run_liftExcept {α : Type} {act : Except Fault α} {state state' : State}
    {heap heap' : Heap} {a : α}
    (hrun : ((liftM act : SessionM α).run state).run heap = .ok ((a, state'), heap')) :
    act = .ok a ∧ state' = state ∧ heap' = heap := by
  change ((liftM (liftM act : HeapM α) : SessionM α).run state).run heap = _ at hrun
  obtain ⟨hstate, hlifted⟩ := run_liftM.mp hrun
  obtain ⟨hact, hheap⟩ := run_lift.mp hlifted
  exact ⟨hact, hstate, hheap.symm⟩

theorem value_weakRunTriple {P : Heap → Prop} (o : Operand) : WeakRunTriple P (value o) fun _ => P := by
  cases o with
  | handle h => exact .pure fun _ => id
  | register name => exact .bind (.getState fun _ _ => id) fun _ => .pure fun _ => id

theorem value_hasWeakRun (o : Operand) : HasWeakRun (value o) := value_weakRunTriple o

theorem mapM_weakRunTriple {P : Heap → Prop} {α β : Type} {f : α → SessionM β}
    (hf : ∀ a, WeakRunTriple P (f a) fun _ => P) (as : List α) : WeakRunTriple P (as.mapM f) fun _ => P := by
  induction as with
  | nil => exact .pure fun _ => id
  | cons a as ih =>
    rw [List.mapM_cons]
    exact .bind (hf a) fun b => .bind ih fun bs => .pure fun _ => id

theorem values_weakRunTriple {P : Heap → Prop} (os : List Operand) : WeakRunTriple P (values os) fun _ => P :=
  mapM_weakRunTriple value_weakRunTriple os

theorem values_hasWeakRun (os : List Operand) : HasWeakRun (values os) := values_weakRunTriple os

theorem fieldValues_hasWeakRun (fields : List (ContextField × Operand)) :
    HasWeakRun (fieldValues fields) := by
  unfold fieldValues
  exact mapM_weakRunTriple (fun f => HasWeakRun.bind (value_hasWeakRun f.2) fun _ => .pure) fields

theorem modifyState_hasWeakRun {f : State → State} : HasWeakRun (modifyThe State f : SessionM PUnit) :=
  WeakRunTriple.modifyState fun _ => id

theorem request_hasWeakRun (hhost : host.HasWeakRun) (r : Request) : Attempt.HasWeakRun (request host r) := by
  have hvalue : ∀ o, Attempt.HasWeakRun (liftM (value o) : Attempt State Handle) :=
    fun o => .liftHost (value_hasWeakRun o)
  have hvalues : ∀ os, Attempt.HasWeakRun (liftM (values os) : Attempt State (List Handle)) :=
    fun os => .liftHost (values_hasWeakRun os)
  cases r with
  | allocate kind length roots =>
    exact .bind (hvalues roots) fun roots =>
      (weakRunTriple_allocate hhost).conseq (fun _ => id) fun _ _ hs => hs.1
  | cons car cdr =>
    exact .bind (hvalue car) fun car => .bind (hvalue cdr) fun cdr =>
      construct_hasWeakRun hhost (by decide) ⟨rfl, by simp, by simp [Payload.children]⟩
  | lcons car cdr =>
    exact .bind (hvalue car) fun car => .bind (hvalue cdr) fun cdr =>
      construct_hasWeakRun hhost (by decide) ⟨rfl, by simp, by simp [Payload.children]⟩
  | closure formals body env =>
    exact .bind (hvalue formals) fun formals => .bind (hvalue body) fun body =>
      .bind (hvalue env) fun env =>
      construct_hasWeakRun hhost (by decide) ⟨rfl, by simp, by simp [Payload.children]⟩
  | environment names vals parent =>
    exact .bind (hvalues names) fun names => .bind (hvalues vals) fun vals =>
      .bind (hvalue parent) fun parent => makeEnvironment_hasWeakRun hhost
  | promise expr env =>
    refine .bind (hvalue expr) fun expr => .bind (hvalue env) fun env =>
      construct_hasWeakRun hhost (by decide) ⟨rfl, by simp, ?_⟩
    simp [Payload.children]
  | externalPtr address tag inner =>
    exact .bind (hvalue tag) fun tag => .bind (hvalue inner) fun inner =>
      construct_hasWeakRun hhost (by decide) ⟨rfl, by simp, by simp [Payload.children]⟩
  | byteCode code consts =>
    exact .bind (hvalue code) fun code => .bind (hvalue consts) fun consts =>
      construct_hasWeakRun hhost (by decide) ⟨rfl, by simp, by simp [Payload.children]⟩
  | nativeFunction routine => exact makeNativeFunction_hasWeakRun hhost
  | string bytes encoding =>
    exact internString_hasWeakRun hhost
  | symbol name => exact internSymbol_hasWeakRun hhost
  | duplicate h => exact .bind (hvalue h) fun h => duplicate_hasWeakRun hhost
  | duplicateIfShared h => exact .bind (hvalue h) fun h => duplicateIfShared_hasWeakRun hhost
  | weakRef key val finalizer onExit =>
    exact .bind (hvalue key) fun key => .bind (hvalue val) fun val =>
      .bind (hvalue finalizer) fun finalizer => makeWeakRef_hasWeakRun hhost
  | nativeFinalizer key routine onExit =>
    exact .bind (hvalue key) fun key => registerFinalizer_hasWeakRun hhost
  | closureFinalizer key closure onExit =>
    exact .bind (hvalue key) fun key => .bind (hvalue closure) fun closure =>
      registerFinalizer_hasWeakRun hhost

theorem set_preservesRecords (s : Setter) (h v : Handle) : HeapM.PreservesRecords (set s h v) := by
  cases s
  case car => exact .setCar
  case cdr => exact .setCdr
  case tag => exact .setTag
  case attrib => exact .setAttrib
  case promiseValue => exact .setPromiseValue
  case symbolValue => exact .setSymbolValue

theorem replaceHeap_hasWeakRun (hhost : host.HasWeakRun) : HasWeakRun (replaceHeap host) := by
  refine .bind (.runExitFinalizers hhost) fun ran => ?_
  refine .of fun state heap u state' heap' _ hs hrun => ?_
  refine ⟨renewHeap_safe _ _ _ _ hs hrun, ?_⟩
  obtain ⟨_, _, _, hold, hbuild⟩ := run_bindM.mp hrun
  cases hold
  obtain ⟨fresh, _, old, hfresh, hset⟩ := run_bindM.mp hbuild
  obtain ⟨hmade, -, rfl⟩ := run_liftExcept hfresh
  obtain ⟨hchain, htally⟩ := Heap.build_chain hmade
  obtain ⟨-, rfl⟩ := run_pure.mp hset
  have hkeeps : fresh.Preserves { fresh with
      journal := { old.journal with
        observing := false
        history := old.journal.history ++ fresh.journal.history }
      tasks := { registry := old.tasks.registry } } := .aside rfl rfl
  have hcount : fresh.finalizers.run = 0 := congrArg Tally.run htally
  have hrests : fresh.finalizers.running = false := congrArg Tally.running htally
  have hentries : fresh.journal.ofRecords = [.opened {}] := congrArg Tally.entries htally
  exact .of_renewed (hkeeps.chain hchain) (Tally.ext hcount hrests
    (.trans (Journal.ofRecords_append rfl) (congrArg (old.journal.ofRecords ++ ·) hentries)))

theorem aside_hasWeakRun {f : Heap → Heap} {r : Reply}
    (hf : ∀ heap, ∃ evaluator journal, f heap = { heap with evaluator, journal } ∧
      journal.history = heap.journal.history) : HasWeakRun (do
      modifyThe Heap f
      return r : SessionM Reply) := by
  refine .bind (WeakRunTriple.lift (.preservesFlags (P := Heap.Sound) (.modify fun heap hs => ?_) ?_)) fun _ => .pure
  · obtain ⟨evaluator, journal, hsame, hhistory⟩ := hf heap
    rw [hsame]
    exact hs.aside rfl rfl rfl rfl rfl
  · intro heap u heap' _ hrun
    obtain rfl := run_modify.mp hrun
    obtain ⟨evaluator, journal, hsame, hhistory⟩ := hf heap
    rw [hsame]
    exact .aside rfl rfl (Heap.tally_congr rfl (Journal.ofRecords_congr hhistory)) rfl

theorem modifyRoots_hasWeakRun {f : RootSet → RootSet} (hf : ∀ r, (f r).transient = r.transient) :
    HasWeakRun (liftM (HeapM.modifyRoots f) : SessionM PUnit) := .preservesRecords .modifyRoots (.modifyRoots hf)

theorem setRoots_weakRunTriple {old : Heap} {roots : RootSet}
    (hsame : roots.transient = old.roots.transient) :
    WeakRunTriple (fun heap => heap.Sound ∧ old.roots.transient = heap.roots.transient)
      (liftM (HeapM.modifyRoots fun _ => roots) : SessionM PUnit) fun _ => Heap.Sound := by
  refine .lift (.preservesFlags (.conseq (P := Heap.Sound) HeapM.Safe.modifyRoots (fun _ h => h.1)
    fun _ _ => id) ?_)
  rintro heap u heap' ⟨-, hkept⟩ hrun
  obtain rfl := run_modify.mp hrun
  exact .aside rfl rfl rfl (hsame.trans hkept)

theorem getRoots_weakRunTriple : WeakRunTriple Heap.Sound (getThe Heap : SessionM Heap)
    fun old heap => heap.Sound ∧ old.roots.transient = heap.roots.transient :=
  .getHeap fun _ hs => ⟨hs, rfl⟩

theorem perform_hasWeakRun (hhost : host.HasWeakRun) (c : Command) : HasWeakRun (perform host c) := by
  cases c
  case request r => exact .bind (request_hasWeakRun hhost r).run fun _ => .pure
  case allocateFast kind length =>
    exact WeakRunTriple.bind (.lift HeapM.weakRunTriple_allocateFast) fun _ => .pure fun _ h => h.1
  case ask q h => exact .bind (value_hasWeakRun h) fun h => .reads .ask
  case report r => exact .reads .report
  case vectorElt h index =>
    exact .bind (value_hasWeakRun h) fun h => .bind (.reads .vectorElt) fun _ => .pure
  case set s h v =>
    exact .bind (value_hasWeakRun h) fun h => .bind (value_hasWeakRun v) fun v =>
      .bind (.preservesRecords (set_safe s h v) (set_preservesRecords s h v)) fun _ => .pure
  case setVectorElt h index v =>
    exact .bind (value_hasWeakRun h) fun h => .bind (value_hasWeakRun v) fun v =>
      .bind (.preservesRecords .setVectorElt .setVectorElt) fun _ => .pure
  case setObjectBit h b =>
    exact .bind (value_hasWeakRun h) fun h => .bind (.preservesRecords .setObjectBit .setObjectBit) fun _ => .pure
  case touch h => exact .bind (value_hasWeakRun h) fun h => .bind (.preservesRecords .touch .touch) fun _ => .pure
  case setReal h vs =>
    exact .bind (value_hasWeakRun h) fun h => .bind (.preservesRecords .setRealData .setRealData) fun _ => .pure
  case setInteger h vs =>
    exact .bind (value_hasWeakRun h) fun h => .bind (.preservesRecords .setIntegerData .setIntegerData) fun _ => .pure
  case setRaw h vs =>
    exact .bind (value_hasWeakRun h) fun h => .bind (.preservesRecords .setRawData .setRawData) fun _ => .pure
  case incrementRefCount h =>
    exact .bind (value_hasWeakRun h) fun h => .bind (.preservesRecords .incrementRefCount .incrementRefCount) fun _ => .pure
  case decrementRefCount h =>
    exact .bind (value_hasWeakRun h) fun h => .bind (.preservesRecords .decrementRefCount .decrementRefCount) fun _ => .pure
  case defineVar env sym v =>
    exact .bind (value_hasWeakRun env) fun env => .bind (value_hasWeakRun sym) fun sym =>
      .bind (value_hasWeakRun v) fun v => .bind (defineVar_hasWeakRun hhost).run fun _ => .pure
  case findVar env sym =>
    exact .bind (value_hasWeakRun env) fun env => .bind (value_hasWeakRun sym) fun sym =>
      .bind (.preservesRecords .findVar .findVar) fun _ => .pure
  case findVarInFrame env sym =>
    exact .bind (value_hasWeakRun env) fun env => .bind (value_hasWeakRun sym) fun sym =>
      .bind (.reads .findVarInFrame) fun _ => .pure
  case removeVar env sym =>
    exact .bind (value_hasWeakRun env) fun env => .bind (value_hasWeakRun sym) fun sym =>
      .bind (.preservesRecords .removeVar .removeVar) fun _ => .pure
  case pushRoot h => exact .bind (value_hasWeakRun h) fun h => .bind (.preservesRecords .pushRoot .pushRoot) fun _ => .pure
  case pushRootWithIndex h slot =>
    refine .bind (value_hasWeakRun h) fun h => .bind (.preservesRecords .pushRoot .pushRoot) fun result => ?_
    cases result with
    | ok index => exact .bind modifyState_hasWeakRun fun _ => .pure
    | error e => exact .pure
  case reprotect h slot =>
    refine .bind (WeakRunTriple.getState fun _ _ => id) fun state => ?_
    cases state.protectSlots.lookup slot with
    | none => exact .pure
    | some index =>
      exact .bind (value_hasWeakRun h) fun h => .bind (.preservesRecords .reprotect .reprotect) fun _ => .pure
  case popRoots n =>
    exact .bind (.preservesRecords .popRoots .popRoots) fun _ => .bind (.reads .protectDepth) fun _ => .pure
  case preserve h => exact .bind (value_hasWeakRun h) fun h => .bind (modifyRoots_hasWeakRun fun _ => rfl) fun _ => .pure
  case release h =>
    refine WeakRunTriple.bind getRoots_weakRunTriple fun heap => .bind (value_weakRunTriple h) fun h => ?_
    cases hroots : heap.roots.release? h with
    | none => exact .pure fun _ h => h.1
    | some roots =>
      exact .bind (setRoots_weakRunTriple (RootSet.transient_release? hroots)) fun _ => HasWeakRun.pure
  case beginContext fields =>
    exact .bind (fieldValues_hasWeakRun fields) fun fields => .bind (modifyRoots_hasWeakRun fun _ => rfl) fun _ =>
      .bind .getHeap fun _ => .pure
  case setContext fields =>
    exact .bind (fieldValues_hasWeakRun fields) fun fields => .bind (modifyRoots_hasWeakRun fun _ => rfl) fun _ =>
      .bind .getHeap fun _ => .pure
  case endContext =>
    exact WeakRunTriple.bind getRoots_weakRunTriple fun heap => .bind (setRoots_weakRunTriple rfl) fun _ => HasWeakRun.pure
  case byteCodePush h =>
    exact .bind (value_hasWeakRun h) fun h => .bind (modifyRoots_hasWeakRun fun _ => rfl) fun _ =>
      .bind .getHeap fun _ => .pure
  case byteCodePop n =>
    exact .bind (modifyRoots_hasWeakRun fun _ => rfl) fun _ => .bind .getHeap fun _ => .pure
  case setHandlerStack h =>
    exact .bind (value_hasWeakRun h) fun h => .bind (modifyRoots_hasWeakRun fun _ => rfl) fun _ => .pure
  case setRestartStack h =>
    exact .bind (value_hasWeakRun h) fun h => .bind (modifyRoots_hasWeakRun fun _ => rfl) fun _ => .pure
  case addRootSource hs =>
    exact WeakRunTriple.bind getRoots_weakRunTriple fun heap => .bind (values_weakRunTriple hs) fun hs =>
      .bind (setRoots_weakRunTriple rfl) fun _ => HasWeakRun.bind (WeakRunTriple.getState fun _ _ => id) fun state =>
      .bind modifyState_hasWeakRun fun _ => .pure
  case setRootSource number hs =>
    refine .bind (values_hasWeakRun hs) fun hs => .bind (WeakRunTriple.getState fun _ _ => id) fun state => ?_
    cases state.currentSource? number with
    | none => exact .pure
    | some id =>
      exact .bind (modifyRoots_hasWeakRun fun _ => rfl) fun _ => .pure
  case removeRootSource number =>
    refine .bind (WeakRunTriple.getState fun _ _ => id) fun state => ?_
    cases state.sources[number]? with
    | none => exact .pure
    | some id =>
      refine WeakRunTriple.bind getRoots_weakRunTriple fun heap => ?_
      cases hroots : heap.roots.removeSource? id with
      | none => exact .pure fun _ h => h.1
      | some roots =>
        exact .bind (setRoots_weakRunTriple (RootSet.transient_removeSource? hroots)) fun _ => HasWeakRun.pure
  case runPendingFinalizers => exact .bind (.runPendingFinalizers hhost) fun _ => .pure
  case runExitFinalizers => exact .bind (.runExitFinalizers hhost) fun _ => .pure
  case enterScope name =>
    exact .bind (.reads .enterRecovery) fun scope => .bind modifyState_hasWeakRun fun _ => .pure
  case leaveScope name =>
    refine .bind (WeakRunTriple.getState fun _ _ => id) fun state => ?_
    cases state.scopes.lookup name with
    | none => exact .pure
    | some scope =>
      refine .bind (WeakRunTriple.lift (.of fun heap changed heap' _ hs hrun => ?_)) fun _ => .pure
      obtain ⟨hkeeps, htally, hpins, harena⟩ := HeapM.cuts_leaveRecovery hrun
      exact ⟨HeapM.Safe.leaveRecovery _ _ _ hs hrun,
        .of_cut hkeeps hpins htally (.of_arena harena)⟩
  case setEvaluator name routine =>
    refine aside_hasWeakRun ?_
    exact fun heap => ⟨_, _, rfl, rfl⟩
  case collect level => exact .bind (.requestCollection hhost level) fun _ => .pure
  case observe =>
    refine aside_hasWeakRun ?_
    exact fun heap => ⟨_, _, rfl, rfl⟩
  case stopObserving =>
    refine aside_hasWeakRun ?_
    exact fun heap => ⟨_, _, rfl, rfl⟩
  case freed =>
    refine .bind .getHeap fun heap => aside_hasWeakRun ?_
    exact fun heap => ⟨_, _, rfl, rfl⟩
  case log =>
    refine .bind .getHeap fun heap => aside_hasWeakRun ?_
    exact fun heap => ⟨_, _, rfl, rfl⟩
  case runs =>
    exact .bind (WeakRunTriple.getState fun _ _ => id) fun state => .bind modifyState_hasWeakRun fun _ => .pure
  case setScheduler scheduler => 
    exact .bind (.preservesRecords .setScheduler (.modify (fun _ => rfl) (fun _ => rfl) (fun _ => rfl)
      fun _ => rfl)) fun _ => .pure
  case task a h => exact .bind (value_hasWeakRun h) fun h => .preservesRecords .task .task
  case move h => exact .bind (value_hasWeakRun h) fun h => .pure
  case replaceHeap => exact .bind (replaceHeap_hasWeakRun hhost) fun _ => .pure

theorem repeatRounds_hasWeakRun {round : SessionM (Option Reply)} (hround : HasWeakRun round) (n : Nat)
    (completed : Nat) (last : Option Reply) : HasWeakRun (repeatRounds round completed last n) := by
  induction n generalizing completed last with
  | zero => exact .pure
  | succ n ih =>
    refine .bind hround fun reply => ?_
    split
    · exact .pure
    · exact ih _ _

mutual

theorem runStep_hasWeakRun (hhost : host.HasWeakRun) : ∀ step, HasWeakRun (runStep host step)
  | .command c store => by
    rw [runStep]
    refine .bind (perform_hasWeakRun hhost c) fun reply => ?_
    cases store with
    | none => exact .pure
    | some name =>
      cases reply.handle? with
      | none => exact .pure
      | some h => exact .bind modifyState_hasWeakRun fun _ => .pure
  | .scope steps => by
    rw [runStep]
    exact .bind (.reads .protectDepth) fun base => .bind (runSteps_hasWeakRun hhost steps) fun replies =>
      .bind (.preservesRecords .closeScope .closeScope) fun _ => .bind (.reads .protectDepth) fun _ => .pure
  | .times n steps => by
    rw [runStep]
    exact repeatRounds_hasWeakRun (runRound_hasWeakRun hhost steps) n 0 none
  | .setScript routine steps ending => by
    rw [runStep]
    exact .bind modifyState_hasWeakRun fun _ => .pure

theorem runSteps_hasWeakRun (hhost : host.HasWeakRun) : ∀ steps, HasWeakRun (runSteps host steps)
  | [] => by
    rw [runSteps]
    exact .pure
  | step :: steps => by
    rw [runSteps]
    exact .bind (runStep_hasWeakRun hhost step) fun reply =>
      .bind (runSteps_hasWeakRun hhost steps) fun replies => .pure

theorem runRound_hasWeakRun (hhost : host.HasWeakRun) : ∀ steps, HasWeakRun (runRound host steps)
  | [] => by
    rw [runRound]
    exact .pure
  | step :: steps => by
    rw [runRound]
    refine .bind (runStep_hasWeakRun hhost step) fun reply => ?_
    split
    · exact .pure
    · exact .bind (runRound_hasWeakRun hhost steps) fun last => .pure

end

theorem runScript_hasWeakRun (hhost : host.HasWeakRun) (caller : Caller) (routine : Nat) (key : Handle) :
    HasWeakRun (runScript host caller routine key) := by
  refine .bind (WeakRunTriple.getState fun _ _ => id) fun state => .bind (.reads .isLive) fun live =>
    .bind (WeakRunTriple.getState fun _ _ => id) fun before => .bind modifyState_hasWeakRun fun _ =>
    .bind (runSteps_hasWeakRun hhost _) fun replies => .bind modifyState_hasWeakRun fun _ => ?_
  cases (state.script routine).ending <;> exact .pure

theorem hostWithin_hasWeakRun (levels : Nat) : (hostWithin levels).HasWeakRun := by
  induction levels with
  | zero => exact ⟨hostWithin_safe 0, fun _ _ => .throw, fun _ _ _ => .throw⟩
  | succ levels ih =>
    exact ⟨hostWithin_safe (levels + 1),
      fun routine key => runScript_hasWeakRun ih _ routine key,
      fun evaluator _ key => runScript_hasWeakRun ih _ evaluator.routine key⟩

/-- A run of the weak chain leads from a new heap to every heap that a session reaches. -/
theorem Reachable.evolves {state : State} {heap : Heap} (hr : Reachable state heap) :
    ∃ (config : Config) (hash : Bytes → Encoding → UInt32) (start : Heap),
      Heap.build config hash = .ok start ∧ start.Evolves heap := by
  induction hr with
  | new _ hbuild => exact ⟨_, _, _, hbuild, .refl _⟩
  | step hbefore hrun ih =>
    obtain ⟨config, hash, start, hbuild, hevolves⟩ := ih
    refine ⟨config, hash, start, hbuild, hevolves.trans ?_⟩
    have hread := hevolves.readable ⟨[], (Heap.build_chain hbuild).1⟩
    exact ((runStep_hasWeakRun (hostWithin_hasWeakRun _) _).run hread hbefore.sound hrun).2

end Session

end ManagedHeap
