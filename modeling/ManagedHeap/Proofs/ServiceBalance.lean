import ManagedHeap.Proofs.RootBalance
import ManagedHeap.Proofs.SessionWeakRuns
import ManagedHeap.Proofs.CallArguments

/-!
# Services leave the roots balanced

Whatever is asked of a heap, and whether it ends with an answer or with an error: the protection
stack is as deep afterwards as before, the same handles are kept, and only a finalizer that ran
meanwhile can have changed an entry of the protection stack.
-/

namespace ManagedHeap

variable {ω : Type} {host : Host ω} {n : Nat}

namespace HostM

open Attempt (KeepsEntries)

variable {kind : Kind} {payload : Payload} {slots : List Handle} {length : Nat} {h : Handle}
  {copyOne : Handle → Attempt ω Handle}

theorem balanced_allocate {roots : List Handle} :
    Attempt.Balanced host (allocate host kind length roots) := by
  unfold allocate
  dsimp only
  split
  · exact .throw_bind
  · split
    · exact .throw_bind
    · refine .bind (.leavesRootsAndTasks .allocateFast) fun h => ?_
      split
      · exact .pure
      · exact .mk (.withTransient .allocateSlow)

theorem balanced_construct : Attempt.Balanced host (construct host kind payload slots) :=
  .bind balanced_allocate fun _ => .bind (.leavesRootsAndTasks .updateCell) fun _ =>
    .bind (.leavesRootsAndTasks (.countReferences slots)) fun _ => .pure

theorem balanced_bindAll (bindings : List (Handle × Handle)) (frame : Handle) :
    Attempt.Balanced host (bindAll host frame bindings) := by
  induction bindings generalizing frame with
  | nil => exact .pure
  | cons b rest ih =>
    exact .bind balanced_allocate fun cell => .bind (.leavesRootsAndTasks .updateCell) fun _ =>
      .bind (.leavesRootsAndTasks (.countReferences _)) fun _ => ih cell

theorem balanced_makeEnvironment {names values : List Handle} {parent : Handle} :
    Attempt.Balanced host (makeEnvironment host names values parent) := by
  unfold makeEnvironment
  dsimp only
  split
  · exact .throw_bind
  · refine .mk (.withTransient (Attempt.Balanced.run ?_))
    exact .bind (balanced_bindAll _ .nil) fun frame => .bind balanced_allocate fun env =>
      .bind (.leavesRootsAndTasks .updateCell) fun _ => .bind (.leavesRootsAndTasks (.countReferences _)) fun _ => .pure

theorem balanced_makeWeakRef {key value finalizer : Handle} {onExit : Bool} :
    Attempt.Balanced host (makeWeakRef host key value finalizer onExit) := by
  have hmake : Attempt.Balanced host (do
      let record ← allocate host .weakRef 0 [key, value, finalizer]
      HeapM.linkWeakRef record key value finalizer onExit
      return record) :=
    .bind balanced_allocate fun record => .bind (.leavesRootsAndTasks .linkWeakRef) fun _ => .pure
  unfold makeWeakRef
  dsimp only
  split
  · refine .bind (.reads .kind) fun k => ?_
    split
    · exact .throw_bind
    · exact hmake
  · exact hmake

theorem balanced_registerFinalizer {key : Handle} {finalizer : Finalizer} {onExit : Bool} :
    Attempt.Balanced host (registerFinalizer host key finalizer onExit) := by
  refine .protecting fun n => .push_then fun _ => ?_
  cases finalizer with
  | native routine =>
    exact .bind (.of_balanced balanced_construct) fun function => .push_then fun _ =>
      .of_balanced balanced_makeWeakRef
  | closure h => exact .bind .pure fun function => .push_then fun _ => .of_balanced balanced_makeWeakRef

theorem balanced_internString {bytes : Bytes} {encoding : Encoding} :
    Attempt.Balanced host (internString host bytes encoding) := by
  refine .bind (.leavesRootsAndTasks .get) fun heap => .bind (.reads .findCached) fun found => ?_
  cases found with
  | some h => exact .pure
  | none => exact .bind balanced_allocate fun h => .bind (.leavesRootsAndTasks .cacheString) fun _ => .pure

theorem balanced_internSymbol {name : Bytes} : Attempt.Balanced host (internSymbol host name) := by
  refine .bind (.leavesRootsAndTasks .get) fun heap => ?_
  cases heap.symbols.find? name with
  | some sym => exact .pure
  | none =>
    dsimp only
    split
    · exact .throw_bind
    · exact .bind balanced_internString fun pname => .bind balanced_allocate fun sym =>
        .bind (.leavesRootsAndTasks .nameSymbol) fun _ => .bind (.leavesRootsAndTasks (.modify fun _ => rfl)) fun _ => .pure

theorem balanced_defineVar {env sym value : Handle} :
    Attempt.Balanced host (defineVar host env sym value) := by
  refine .bind (.reads .frameBinding) fun binding => ?_
  cases binding with
  | some cell => exact .leavesRootsAndTasks .setCar
  | none =>
    exact .bind (.reads .envFrame) fun frame => .bind balanced_allocate fun cell =>
      .bind (.leavesRootsAndTasks .setCar) fun _ => .bind (.leavesRootsAndTasks .setCdr) fun _ => .bind (.leavesRootsAndTasks .setTag) fun _ =>
      .leavesRootsAndTasks .setFrame

/-! ## Copies -/

theorem keepsEntries_copyPairs (hcopy : ∀ h, KeepsEntries host n (copyOne h)) {index : Nat} (hindex : n ≤ index)
    (fuel : Nat) (head tail cursor : Handle) :
    KeepsEntries host n (copyPairs host copyOne index head tail cursor fuel) := by
  induction fuel generalizing head tail cursor with
  | zero => exact .throwFault
  | succ fuel ih =>
    refine .bind (.reads .kind) fun k => ?_
    split
    · exact .pure
    · refine .bind (.reads .car) fun car => .bind (hcopy car) fun element =>
        .bind (.reads .kind) fun cellKind => .bind (.reads .tag) fun cellTag =>
        .bind (.of_balanced balanced_allocate) fun cell => .bind (.leavesRootsAndTasks .setCar) fun _ =>
        .bind (.leavesRootsAndTasks .setTag) fun _ => ?_
      have hend : ∀ head, KeepsEntries host n (do
          let next ← HeapM.cdr cursor
          copyPairs host copyOne index head cell next fuel) :=
        fun head => .bind (.reads .cdr) fun next => ih head cell next
      split
      · exact .bind (.reprotect hindex) fun _ => hend cell
      · exact .bind (.leavesRootsAndTasks .setCdr) fun _ => hend head

theorem balanced_copyPairlist (hcopy : ∀ h, Attempt.Balanced host (copyOne h)) :
    Attempt.Balanced host (copyPairlist host copyOne h) := by
  refine .protecting fun n => .push_bind fun index hindex =>
    .bind (.of_balanced (.liftHost .stepBound)) fun bound =>
    .bind (keepsEntries_copyPairs (fun h => .of_balanced (hcopy h)) hindex bound .nil .nil h) fun result => ?_
  obtain ⟨head, tail, rest⟩ := result
  dsimp only
  split
  · exact .bind (.of_balanced (hcopy rest)) fun last => .bind (.leavesRootsAndTasks .setCdr) fun _ => .pure
  · exact .pure

theorem keepsEntries_copyElements (hcopy : ∀ h, KeepsEntries host n (copyOne h)) {copy : Handle}
    (places : List Nat) : KeepsEntries host n (copyElements copyOne h copy places) := by
  induction places with
  | nil => exact .pure
  | cons i rest ih =>
    exact .bind (.attempt (.of_reads .vectorElt)) fun old => .bind (hcopy old) fun element =>
      .bind (.attempt .setVectorElt) fun _ => ih

theorem balanced_copyVector (hcopy : ∀ h, Attempt.Balanced host (copyOne h)) :
    Attempt.Balanced host (copyVector host copyOne h) := by
  refine .bind (.reads .kind) fun kind => .bind (.reads .length) fun length =>
    .protecting fun n => .bind (.of_balanced balanced_allocate) fun copy => .push_then fun _ =>
    .bind (keepsEntries_copyElements (fun h => .of_balanced (hcopy h)) (List.range length)) fun _ => .pure

theorem balanced_copyStrings : Attempt.Balanced host (copyStrings host h) := by
  refine .bind (.reads .payload) fun p => ?_
  split
  · exact .bind (.reads .kind) fun kind => .bind balanced_allocate fun copy =>
      .bind (.leavesRootsAndTasks (.countReferences _)) fun _ => .bind (.leavesRootsAndTasks .updateCell) fun _ => .pure
  · exact .reads .wrongKind

theorem balanced_copyData : Attempt.Balanced host (copyData host h) :=
  .bind (.reads .payload) fun _ => .bind (.reads .kind) fun _ =>
    .bind balanced_allocate fun _ => .bind (.leavesRootsAndTasks .updateCell) fun _ => .pure

theorem balanced_copyAttributes (hcopy : ∀ h, Attempt.Balanced host (copyOne h)) {copy : Handle} :
    Attempt.Balanced host (copyAttributes copyOne h copy) := by
  refine .bind (.reads .attrib) fun attached => .bind (.reads .flags) fun flags => ?_
  dsimp only
  split
  · refine .bind (.protecting fun n => .push_then fun _ => ?_) fun _ =>
      .bind (.leavesRootsAndTasks .updateCell) fun _ => .pure
    exact .bind (.of_balanced (hcopy attached)) fun value => .leavesRootsAndTasks .setAttrib
  · exact .bind (.leavesRootsAndTasks .updateCell) fun _ => .pure

theorem balanced_copyWithin (fuel : Nat) (h : Handle) :
    Attempt.Balanced host (copyWithin host fuel h) := by
  induction fuel generalizing h with
  | zero => exact fun _ => .throwFault
  | succ fuel ih =>
    refine .bind (.leavesRoots .awaitOutput) fun _ => .bind (.reads .kind) fun k => ?_
    cases k
    case pair | language =>
      exact .bind (balanced_copyPairlist ih) fun copy => balanced_copyAttributes ih
    case list | expression =>
      exact .bind (balanced_copyVector ih) fun copy => balanced_copyAttributes ih
    case stringVector => exact .bind balanced_copyStrings fun copy => balanced_copyAttributes ih
    case charString =>
      refine .bind (.reads .flags) fun flags => ?_
      split
      · exact .pure
      · exact .bind balanced_copyData fun copy => balanced_copyAttributes ih
    case logicalVector | integerVector | realVector | rawVector =>
      exact .bind balanced_copyData fun copy => balanced_copyAttributes ih
    case closure =>
      refine .bind (.reads .closureParts) fun parts => ?_
      exact .bind balanced_construct fun copy => balanced_copyAttributes ih
    all_goals exact .pure

theorem balanced_duplicate : Attempt.Balanced host (duplicate host h) :=
  .protecting fun _ => .push_then fun _ => .bind (.of_balanced (.liftHost .stepBound)) fun bound =>
    .of_balanced (balanced_copyWithin bound h)

theorem balanced_duplicateIfShared : Attempt.Balanced host (duplicateIfShared host h) := by
  refine .bind (.reads .mayMutate) fun free => ?_
  split
  · exact .pure
  · exact balanced_duplicate

end HostM

/-- What is asked of a heap and may allocate, collect or run finalizers. -/
inductive Service
  | allocate (kind : Kind) (length : Nat) (roots : List Handle)
  | call (c : Call)
  | nativeFunction (routine : Nat)
  | string (bytes : Bytes) (encoding : Encoding)
  | duplicateIfShared (h : Handle)
  | collect (level : Level) (reason : Reason)
  | requestCollection (level : Level)
  | runPendingFinalizers
  | runExitFinalizers

namespace Service

/-- Perform a service and forget the answer. -/
def run (host : Host ω) : Service → Attempt ω Unit
  | allocate kind length roots => do let _ ← HostM.allocate host kind length roots
  | call c => do let _ ← c.run host
  | nativeFunction routine => do let _ ← HostM.makeNativeFunction host routine
  | string bytes encoding => do let _ ← HostM.internString host bytes encoding
  | duplicateIfShared h => do let _ ← HostM.duplicateIfShared host h
  | collect level reason => do let _ ← HeapM.collect level reason
  | requestCollection level => do let _ ← HostM.requestCollection host level
  | runPendingFinalizers => do let _ ← HostM.runPendingFinalizers host
  | runExitFinalizers => do let _ ← HostM.runExitFinalizers host

end Service

theorem HeapM.Leaves.flagOnExit (records : List Handle) : LeavesRootsAndTasks (flagOnExit records) := by
  induction records with
  | nil => exact pure
  | cons r rs ih => exact bind updateCell fun _ => ih

namespace HostM.Balanced

theorem requestCollection {level : Level} : Balanced host (requestCollection host level) :=
  bind (leavesRoots .collect) fun _ => bind runPendingFinalizers fun _ => pure

theorem runExitFinalizers : Balanced host (runExitFinalizers host) := by
  refine bind getHeap fun heap => ?_
  split
  · exact pure
  · exact bind (reads .weakRecords) fun records => bind (leavesRootsAndTasks (.flagOnExit records)) fun _ =>
      bind runPendingFinalizers fun _ => bind (leavesRootsAndTasks (.modify fun _ => rfl)) fun _ =>
      bind (leavesRootsAndTasks .note) fun _ => pure

end HostM.Balanced

theorem Call.balanced (c : Call) : Attempt.Balanced host (c.run host) := by
  cases c with
  | cons | lcons | closure | promise | externalPtr | byteCode => exact HostM.balanced_construct
  | environment => exact HostM.balanced_makeEnvironment
  | weakRef => exact HostM.balanced_makeWeakRef
  | register => exact HostM.balanced_registerFinalizer
  | defineVar => exact .bind HostM.balanced_defineVar fun _ => .pure
  | symbol => exact HostM.balanced_internSymbol
  | duplicate => exact HostM.balanced_duplicate

theorem Service.balanced (s : Service) : Attempt.Balanced host (s.run host) := by
  cases s with
  | allocate => exact .bind HostM.balanced_allocate fun _ => .pure
  | call c => exact .bind c.balanced fun _ => .pure
  | nativeFunction => exact .bind HostM.balanced_construct fun _ => .pure
  | string => exact .bind HostM.balanced_internString fun _ => .pure
  | duplicateIfShared => exact .bind HostM.balanced_duplicateIfShared fun _ => .pure
  | collect => exact .bind (.leavesRoots .collect) fun _ => .pure
  | requestCollection => exact .bind (.liftHost .requestCollection) fun _ => .pure
  | runPendingFinalizers => exact .bind (.liftHost .runPendingFinalizers) fun _ => .pure
  | runExitFinalizers => exact .bind (.liftHost .runExitFinalizers) fun _ => .pure

/-! ## Sessions -/

theorem Heap.build_roots {config : Config} {hash : Bytes → Encoding → UInt32} {heap : Heap}
    (hb : build config hash = .ok heap) : heap.roots = {} := by
  replace hb := Heap.furnish_of_build hb
  simp only [furnish] at hb
  split at hb
  · simp only [except_bind, pure, Except.pure, Except.ok.injEq] at hb
    obtain ⟨_, -, _, -, rfl⟩ := hb
    rfl
  · cases hb

/-- A finalizer is running, or no handle is kept for an operation under way. -/
def Heap.TransientFree (heap : Heap) : Prop :=
  heap.finalizers.running = true ∨ heap.roots.transient = #[]

namespace Heap.TransientFree

variable {heap heap' : Heap}

theorem preservesFlags (hp : heap.TransientFree) (hc : heap.PreservesFlags heap') : heap'.TransientFree := by
  have hrunning : heap'.finalizers.running = heap.finalizers.running :=
    congrArg Tally.running hc.tally
  rwa [TransientFree, hrunning, hc.transient]

theorem kept (hp : heap.TransientFree) (hb : host.Balances heap heap') :
    heap'.roots.transient = heap.roots.transient := by
  obtain ⟨-, -, calls, hkeepsEntriesBetween, hnests⟩ := hb
  rcases hp with hrunning | hempty
  · exact (hkeepsEntriesBetween.undisturbed (hnests.none hrunning)).1
  · have hsize := hkeepsEntriesBetween.kept
    rw [hempty, Array.size_empty, Nat.le_zero_eq, Array.size_eq_zero_iff] at hsize
    rw [hsize, hempty]

theorem balances (hp : heap.TransientFree) (hb : host.Balances heap heap') : heap'.TransientFree := by
  have hkept := hp.kept hb
  obtain ⟨-, -, calls, hkeepsEntriesBetween, hnests⟩ := hb
  rcases hp with hrunning | hempty
  · exact .inl ((hkeepsEntriesBetween.undisturbed (hnests.none hrunning)).2.trans hrunning)
  · exact .inr (hkept.trans hempty)

end Heap.TransientFree

namespace Session

variable {host : Host State} {α β : Type}

def FreesTransient (act : SessionM α) : Prop := HostM.Triple Heap.TransientFree act fun _ => Heap.TransientFree

namespace FreesTransient

variable {x : SessionM α} {f : α → SessionM β}

theorem bind (hx : FreesTransient x) (hf : ∀ a, FreesTransient (f a)) : FreesTransient (x >>= f) := HostM.Triple.bind hx hf

theorem pure {a : α} : FreesTransient (pure a : SessionM α) := HostM.Triple.pure fun _ => id

theorem preservesRecords {act : HeapM α} (h : act.PreservesRecords) : FreesTransient (liftM act : SessionM α) :=
  HostM.Triple.lift fun heap a heap' hp hrun => hp.preservesFlags (h heap a heap' hrun)

theorem reads {act : HeapM α} (h : act.Reads) : FreesTransient (liftM act : SessionM α) := preservesRecords (.of_reads h)

theorem getHeap : FreesTransient (getThe Heap : SessionM Heap) := reads .get

theorem getState : FreesTransient (getThe State : SessionM State) := HostM.Triple.getState fun _ _ => id

theorem modifyState {g : State → State} : FreesTransient (modifyThe State g : SessionM PUnit) :=
  HostM.Triple.modifyState fun _ => id

theorem balanced {act : SessionM α} (host : Host State) (h : HostM.Balanced host act) :
    FreesTransient act :=
  fun _ _ _ _ hp hrun => hp.balances (h.balances hrun)

theorem modifyRoots {g : RootSet → RootSet} (hg : ∀ r, (g r).transient = r.transient) :
    FreesTransient (liftM (HeapM.modifyRoots g) : SessionM PUnit) := preservesRecords (.modifyRoots hg)

theorem heap_bind {f : Heap → SessionM β}
    (hf : ∀ old, HostM.Triple (fun heap => heap = old ∧ heap.TransientFree) (f old) fun _ => Heap.TransientFree) :
    FreesTransient (getThe Heap >>= f) :=
  HostM.Triple.bind (.getHeap fun _ hp => ⟨rfl, hp⟩) hf

theorem setRoots_bind {old : Heap} {roots : RootSet} {act : PUnit → SessionM β}
    (hroots : roots.transient = old.roots.transient) (hact : ∀ u, FreesTransient (act u)) :
    HostM.Triple (fun heap => heap = old ∧ heap.TransientFree)
      (liftM (HeapM.modifyRoots fun _ => roots) >>= act) fun _ => Heap.TransientFree := by
  refine HostM.Triple.bind (.lift (HeapM.Triple.modify ?_)) hact
  rintro heap ⟨rfl, hp⟩
  exact hp.imp_right hroots.trans

end FreesTransient

theorem value_keeps {P : Heap → Prop} (o : Operand) : HostM.Triple P (value o) fun _ => P := by
  cases o with
  | handle h => exact .pure fun _ => id
  | register name => exact .bind (.getState fun _ _ => id) fun _ => .pure fun _ => id

theorem mapM_keeps {P : Heap → Prop} {g : α → SessionM β}
    (hg : ∀ a, HostM.Triple P (g a) fun _ => P) (as : List α) :
    HostM.Triple P (as.mapM g) fun _ => P := by
  induction as with
  | nil => exact .pure fun _ => id
  | cons a as ih =>
    rw [List.mapM_cons]
    exact .bind (hg a) fun b => .bind ih fun bs => .pure fun _ => id

theorem values_keeps {P : Heap → Prop} (os : List Operand) : HostM.Triple P (values os) fun _ => P :=
  mapM_keeps value_keeps os

theorem fieldValues_transientFree (fields : List (ContextField × Operand)) :
    FreesTransient (fieldValues fields) := by
  unfold fieldValues
  exact mapM_keeps (fun f => .bind (value_keeps f.2) fun _ => .pure fun _ => id) fields

theorem request_balanced (r : Request) : Attempt.Balanced host (request host r) := by
  have hvalue : ∀ o, Attempt.Balanced host (liftM (value o) : Attempt State Handle) :=
    fun o => .liftHost fun _ => value_keeps o
  have hvalues : ∀ os, Attempt.Balanced host (liftM (values os) : Attempt State (List Handle)) :=
    fun os => .liftHost fun _ => values_keeps os
  cases r with
  | allocate kind length roots => exact .bind (hvalues roots) fun _ => HostM.balanced_allocate
  | cons car cdr | lcons car cdr | promise car cdr | byteCode car cdr =>
    exact .bind (hvalue car) fun _ => .bind (hvalue cdr) fun _ => HostM.balanced_construct
  | externalPtr address tag inner =>
    exact .bind (hvalue tag) fun _ => .bind (hvalue inner) fun _ => HostM.balanced_construct
  | closure formals body env =>
    exact .bind (hvalue formals) fun _ => .bind (hvalue body) fun _ => .bind (hvalue env) fun _ =>
      HostM.balanced_construct
  | environment names vals parent =>
    exact .bind (hvalues names) fun _ => .bind (hvalues vals) fun _ => .bind (hvalue parent) fun _ =>
      HostM.balanced_makeEnvironment
  | nativeFunction routine => exact HostM.balanced_construct
  | string bytes encoding => exact HostM.balanced_internString
  | symbol name => exact HostM.balanced_internSymbol
  | duplicate h => exact .bind (hvalue h) fun _ => HostM.balanced_duplicate
  | duplicateIfShared h => exact .bind (hvalue h) fun _ => HostM.balanced_duplicateIfShared
  | weakRef key val finalizer onExit =>
    exact .bind (hvalue key) fun _ => .bind (hvalue val) fun _ => .bind (hvalue finalizer) fun _ =>
      HostM.balanced_makeWeakRef
  | nativeFinalizer key routine onExit =>
    exact .bind (hvalue key) fun _ => HostM.balanced_registerFinalizer
  | closureFinalizer key closure onExit =>
    exact .bind (hvalue key) fun _ => .bind (hvalue closure) fun _ =>
      HostM.balanced_registerFinalizer

theorem replaceHeap_transientFree : FreesTransient (replaceHeap host) := by
  intro state heap u heap' _ hrun
  obtain ⟨_, _, _, -, hnext⟩ := HostM.run_bindM.mp hrun
  obtain ⟨old, _, _, -, hbuild⟩ := HostM.run_bindM.mp hnext
  obtain ⟨fresh, _, _, hfresh, hset⟩ := HostM.run_bindM.mp hbuild
  have hroots := Heap.build_roots (run_liftExcept hfresh).1
  obtain ⟨-, rfl⟩ := run_pure.mp hset
  exact .inr (congrArg RootSet.transient hroots)

theorem aside_transientFree {g : Heap → Heap} {r : Reply}
    (hg : ∀ heap, ∃ evaluator journal, g heap = { heap with evaluator, journal }) : FreesTransient (do
      modifyThe Heap g
      return r : SessionM Reply) := by
  refine .bind (HostM.Triple.modifyHeap fun heap hp => ?_) fun _ => .pure
  obtain ⟨evaluator, journal, hsame⟩ := hg heap
  rwa [hsame]

theorem perform_transientFree (c : Command) : FreesTransient (perform host c) := by
  have hvalue : ∀ o, FreesTransient (value o) := fun o => value_keeps o
  cases c
  case request r => exact .bind (.balanced host (request_balanced r).run) fun _ => .pure
  case allocateFast kind length =>
    exact .bind (.balanced host (.leavesRootsAndTasks .allocateFast)) fun _ => .pure
  case ask q h => exact .bind (hvalue h) fun h => .reads .ask
  case report r => exact .reads .report
  case vectorElt h index => exact .bind (hvalue h) fun h => .bind (.reads .vectorElt) fun _ => .pure
  case set s h v =>
    exact .bind (hvalue h) fun h => .bind (hvalue v) fun v => .bind (.preservesRecords (set_preservesRecords s h v)) fun _ => .pure
  case setVectorElt h index v =>
    exact .bind (hvalue h) fun h => .bind (hvalue v) fun v => .bind (.preservesRecords .setVectorElt) fun _ => .pure
  case setObjectBit h b => exact .bind (hvalue h) fun h => .bind (.preservesRecords .setObjectBit) fun _ => .pure
  case touch h => exact .bind (hvalue h) fun h => .bind (.preservesRecords .touch) fun _ => .pure
  case setReal h vs => exact .bind (hvalue h) fun h => .bind (.preservesRecords .setRealData) fun _ => .pure
  case setInteger h vs => exact .bind (hvalue h) fun h => .bind (.preservesRecords .setIntegerData) fun _ => .pure
  case setRaw h vs => exact .bind (hvalue h) fun h => .bind (.preservesRecords .setRawData) fun _ => .pure
  case incrementRefCount h =>
    exact .bind (hvalue h) fun h => .bind (.preservesRecords .incrementRefCount) fun _ => .pure
  case decrementRefCount h =>
    exact .bind (hvalue h) fun h => .bind (.preservesRecords .decrementRefCount) fun _ => .pure
  case defineVar env sym v =>
    exact .bind (hvalue env) fun env => .bind (hvalue sym) fun sym => .bind (hvalue v) fun v =>
      .bind (.balanced host HostM.balanced_defineVar.run) fun _ => .pure
  case findVar env sym =>
    exact .bind (hvalue env) fun env => .bind (hvalue sym) fun sym => .bind (.preservesRecords .findVar) fun _ => .pure
  case findVarInFrame env sym =>
    exact .bind (hvalue env) fun env => .bind (hvalue sym) fun sym =>
      .bind (.reads .findVarInFrame) fun _ => .pure
  case removeVar env sym =>
    exact .bind (hvalue env) fun env => .bind (hvalue sym) fun sym => .bind (.preservesRecords .removeVar) fun _ => .pure
  case pushRoot h => exact .bind (hvalue h) fun h => .bind (.preservesRecords .pushRoot) fun _ => .pure
  case pushRootWithIndex h slot =>
    refine .bind (hvalue h) fun h => .bind (.preservesRecords .pushRoot) fun result => ?_
    cases result with
    | ok index => exact .bind .modifyState fun _ => .pure
    | error e => exact .pure
  case reprotect h slot =>
    refine .bind .getState fun state => ?_
    cases state.protectSlots.lookup slot with
    | none => exact .pure
    | some index => exact .bind (hvalue h) fun h => .bind (.preservesRecords .reprotect) fun _ => .pure
  case popRoots n => exact .bind (.preservesRecords .popRoots) fun _ => .bind (.reads .protectDepth) fun _ => .pure
  case preserve h => exact .bind (hvalue h) fun h => .bind (.modifyRoots fun _ => rfl) fun _ => .pure
  case release h =>
    refine .heap_bind fun old => HostM.Triple.bind (value_keeps h) fun h => ?_
    cases hroots : old.roots.release? h with
    | none => exact .pure fun _ hp => hp.2
    | some roots => exact FreesTransient.setRoots_bind (RootSet.transient_release? hroots) fun _ => .pure
  case beginContext fields =>
    exact .bind (fieldValues_transientFree fields) fun fields => .bind (.modifyRoots fun _ => rfl) fun _ =>
      .bind .getHeap fun _ => .pure
  case setContext fields =>
    exact .bind (fieldValues_transientFree fields) fun fields => .bind (.modifyRoots fun _ => rfl) fun _ =>
      .bind .getHeap fun _ => .pure
  case endContext => exact .heap_bind fun old => FreesTransient.setRoots_bind rfl fun _ => .pure
  case byteCodePush h =>
    exact .bind (hvalue h) fun h => .bind (.modifyRoots fun _ => rfl) fun _ => .bind .getHeap fun _ =>
      .pure
  case byteCodePop n => exact .bind (.modifyRoots fun _ => rfl) fun _ => .bind .getHeap fun _ => .pure
  case setHandlerStack h => exact .bind (hvalue h) fun h => .bind (.modifyRoots fun _ => rfl) fun _ => .pure
  case setRestartStack h => exact .bind (hvalue h) fun h => .bind (.modifyRoots fun _ => rfl) fun _ => .pure
  case addRootSource hs =>
    exact .heap_bind fun old => HostM.Triple.bind (values_keeps hs) fun hs =>
      FreesTransient.setRoots_bind rfl fun _ => .bind .getState fun state => .bind .modifyState fun _ => .pure
  case setRootSource number hs =>
    refine .bind (values_keeps hs) fun hs => .bind .getState fun state => ?_
    cases state.currentSource? number with
    | none => exact .pure
    | some id => exact .bind (.modifyRoots fun _ => rfl) fun _ => .pure
  case removeRootSource number =>
    refine .bind .getState fun state => ?_
    cases state.sources[number]? with
    | none => exact .pure
    | some id =>
      refine .heap_bind fun old => ?_
      cases hroots : old.roots.removeSource? id with
      | none => exact .pure fun _ hp => hp.2
      | some roots => exact FreesTransient.setRoots_bind (RootSet.transient_removeSource? hroots) fun _ => .pure
  case runPendingFinalizers =>
    exact .bind (.balanced host .runPendingFinalizers) fun _ => .pure
  case runExitFinalizers => exact .bind (.balanced host .runExitFinalizers) fun _ => .pure
  case enterScope name => exact .bind (.reads .enterRecovery) fun scope => .bind .modifyState fun _ => .pure
  case leaveScope name =>
    refine .bind .getState fun state => ?_
    cases state.scopes.lookup name with
    | none => exact .pure
    | some scope =>
      refine .bind (HostM.Triple.lift fun heap changed heap' hp hrun => ?_) fun _ => .pure
      rw [HeapM.leaveRecovery_eq] at hrun
      split at hrun
      · cases hrun
      · obtain ⟨-, rfl⟩ := Prod.mk.inj (Except.ok.inj hrun)
        refine hp.imp_right fun hempty => ?_
        change heap.roots.transient.shrink scope.transient = #[]
        rw [hempty]
        exact Array.size_eq_zero_iff.mp (Nat.le_zero.mp (Array.size_shrink.le.trans (Nat.min_le_right _ _)))
  case setEvaluator name routine => exact aside_transientFree fun heap => ⟨_, _, rfl⟩
  case collect level => exact .bind (.balanced host .requestCollection) fun _ => .pure
  case observe => exact aside_transientFree fun heap => ⟨_, _, rfl⟩
  case stopObserving => exact aside_transientFree fun heap => ⟨_, _, rfl⟩
  case freed => exact .bind .getHeap fun heap => aside_transientFree fun heap => ⟨_, _, rfl⟩
  case log => exact .bind .getHeap fun heap => aside_transientFree fun heap => ⟨_, _, rfl⟩
  case runs => exact .bind .getState fun state => .bind .modifyState fun _ => .pure
  case setScheduler scheduler =>
    exact .bind (.preservesRecords (.modify (fun _ => rfl) (fun _ => rfl) (fun _ => rfl) fun _ => rfl)) fun _ => .pure
  case task a h => exact .bind (hvalue h) fun h => .preservesRecords .task
  case move h => exact .bind (hvalue h) fun h => .pure
  case replaceHeap => exact .bind replaceHeap_transientFree fun _ => .pure

theorem repeatRounds_transientFree {round : SessionM (Option Reply)} (hround : FreesTransient round) (n : Nat)
    (completed : Nat) (last : Option Reply) : FreesTransient (repeatRounds round completed last n) := by
  induction n generalizing completed last with
  | zero => exact .pure
  | succ n ih =>
    refine .bind hround fun reply => ?_
    split
    · exact .pure
    · exact ih _ _

mutual

theorem runStep_transientFree : ∀ step, FreesTransient (runStep host step)
  | .command c store => by
    rw [runStep]
    refine .bind (perform_transientFree c) fun reply => ?_
    cases store with
    | none => exact .pure
    | some name =>
      cases reply.handle? with
      | none => exact .pure
      | some h => exact .bind .modifyState fun _ => .pure
  | .scope steps => by
    rw [runStep]
    exact .bind (.reads .protectDepth) fun base => .bind (runSteps_transientFree steps) fun replies =>
      .bind (.preservesRecords .closeScope) fun _ => .bind (.reads .protectDepth) fun _ => .pure
  | .times n steps => by
    rw [runStep]
    exact repeatRounds_transientFree (runRound_transientFree steps) n 0 none
  | .setScript routine steps ending => by
    rw [runStep]
    exact .bind .modifyState fun _ => .pure

theorem runSteps_transientFree : ∀ steps, FreesTransient (runSteps host steps)
  | [] => by
    rw [runSteps]
    exact .pure
  | step :: steps => by
    rw [runSteps]
    exact .bind (runStep_transientFree step) fun reply => .bind (runSteps_transientFree steps) fun replies => .pure

theorem runRound_transientFree : ∀ steps, FreesTransient (runRound host steps)
  | [] => by
    rw [runRound]
    exact .pure
  | step :: steps => by
    rw [runRound]
    refine .bind (runStep_transientFree step) fun reply => ?_
    split
    · exact .pure
    · exact .bind (runRound_transientFree steps) fun last => .pure

end

/-- In no heap that a session reaches between two commands is a handle kept. -/
theorem Reachable.transientFree {state : State} {heap : Heap} (hr : Reachable state heap) :
    heap.TransientFree := by
  induction hr with
  | new _ hbuild => exact .inr (congrArg RootSet.transient (Heap.build_roots hbuild))
  | step _ hrun ih => exact runStep_transientFree _ _ _ _ _ ih hrun

/-- In every state of a session, and at any depth of its scripts, a finalizer is running or no handle
is kept. From such a state every service that returns, with whatever answer and whatever finalizers
ran meanwhile, leaves the protection stack as deep as it was and the same handles kept, and an entry
of the protection stack that differs afterwards differs after the call of a finalizer from what it
was before that call. While a finalizer is running no other is called. -/
theorem services_balance_roots :
    (∀ {state heap}, Reachable state heap → heap.TransientFree) ∧
    (∀ {host step state state' heap heap' reply}, Heap.TransientFree heap →
      ((runStep host step).run state).run heap = .ok ((reply, state'), heap') → heap'.TransientFree) ∧
    ∀ {ω : Type} {host : Host ω} {service : Service} {s s' : ω} {heap heap' result},
      Heap.TransientFree heap →
      ((service.run host).run.run s).run heap = .ok ((result, s'), heap') →
        heap'.protect.depth = heap.protect.depth ∧
        heap'.roots.transient = heap.roots.transient ∧
        ∃ calls, (∀ c ∈ calls, host.ComesBack c.1 c.2) ∧ heap.Nests calls ∧
          ∀ i < heap.protect.depth, (∀ c ∈ calls, c.2.entry i = c.1.entry i) →
            heap'.entry i = heap.entry i := by
  refine ⟨Reachable.transientFree, fun hp hrun => runStep_transientFree _ _ _ _ _ hp hrun, ?_⟩
  intro ω host service s s' heap heap' result hp hrun
  have hbalances : host.Balances heap heap' := service.balanced.run.balances hrun
  obtain ⟨hdepth, -, calls, hkeepsEntriesBetween, hnests⟩ := id hbalances
  exact ⟨hdepth, hp.kept hbalances, calls, hkeepsEntriesBetween.back, hnests, hkeepsEntriesBetween.entries⟩

/-- Steps of a session on a new heap, and a service in the end. -/
def served (config : Config) (steps : List Step) (service : Service) :
    Except Fault (Heap × Except HeapError Unit × Heap) := do
  let heap ← Heap.build config Heap.mixHash
  let ((_, state), heap) ← ((runSteps Session.host steps).run {}).run heap
  let ((result, _), heap') ← ((service.run Session.host).run.run state).run heap
  return (heap, result, heap')

theorem served_eq_ok {config : Config} {steps : List Step} {service : Service} {heap heap' : Heap}
    {result : Except HeapError Unit} (hvalid : config.validate = .ok ())
    (hs : served config steps service = .ok (heap, result, heap')) :
    ∃ state state', Reachable state heap ∧
      ((service.run Session.host).run.run state).run heap = .ok ((result, state'), heap') := by
  simp only [served, except_bind] at hs
  obtain ⟨start, hbuild, ⟨⟨replies, state⟩, mid⟩, hsteps, ⟨⟨answer, state'⟩, last⟩, hrun, hend⟩ := hs
  injection hend with hend
  injection hend with hheap hend
  injection hend with hresult hlast
  subst hheap hresult hlast
  exact ⟨state, state', .runSteps (.new hvalid hbuild) hsteps, hrun⟩

/-- A full heap with a protected pair, and a pair whose finalizer pushes handles and leaves them. -/
def pushingFinalizer : List Step :=
  let pair := .request (.cons (.handle .nil) (.handle .nil))
  [.setScript 0 [.command (.pushRoot (.handle .nil)) none, .command (.pushRoot (.handle .nil)) none]
      .ok,
    .command pair (some "k"),
    .command (.request (.nativeFinalizer (.register "k") 0 false)) none,
    .command pair (some "p"), .command (.pushRoot (.register "p")) none,
    .times 2 [.command pair (some "x"), .command (.preserve (.register "x")) none]]

/-- A copy of the protected pair is to be had only after the finalizer ran, and leaves just the
pair protected. -/
theorem services_balance_pushes : ∃ heap result heap',
    served { segmentCells := 8, maxCells := some 8 } pushingFinalizer (.call (.duplicate ⟨5⟩)) =
      .ok (heap, result, heap') ∧
    heap.finalizers.run = 0 ∧ heap'.finalizers.run = 1 ∧
    heap.protect.depth = 1 ∧ heap'.protect.depth = 1 ∧
    heap'.roots.transient = heap.roots.transient ∧
    ∃ calls : List (Heap × Heap), (∀ c ∈ calls, Session.host.ComesBack c.1 c.2) ∧
      ((∀ c ∈ calls, c.2.entry 0 = c.1.entry 0) → heap'.entry 0 = heap.entry 0) := by
  obtain ⟨⟨heap, result, heap'⟩, hserved, htest⟩ := except_of_test
    (x := served { segmentCells := 8, maxCells := some 8 } pushingFinalizer (.call (.duplicate ⟨5⟩)))
    (p := fun p : Heap × Except HeapError Unit × Heap => decide (p.1.finalizers.run = 0 ∧
      p.2.2.finalizers.run = 1 ∧ p.1.protect.depth = 1))
    (by decide +kernel)
  simp only [decide_eq_true_eq] at htest
  obtain ⟨hbefore, hafter, hone⟩ := htest
  obtain ⟨state, state', hr, hrun⟩ := served_eq_ok rfl hserved
  obtain ⟨hstates, -, hservices⟩ := services_balance_roots
  obtain ⟨hdepth, hkept, calls, hback, -, hentries⟩ := hservices (hstates hr) hrun
  exact ⟨heap, result, heap', hserved, hbefore, hafter, hone, hdepth.trans hone, hkept, calls, hback,
    hentries 0 (by rw [hone]; exact Nat.one_pos)⟩

end Session

end ManagedHeap
