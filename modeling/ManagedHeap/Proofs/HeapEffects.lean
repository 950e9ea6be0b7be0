import ManagedHeap.Proofs.ConstructorHistories
import ManagedHeap.Proofs.CollectionPolicy

/-!
# The effects of operations

Whatever runs, foreign code included, comes down to operations on the heap alone, one after the
other. A relation lists what they do once, each from the heap that it finds; an invariant is
what every one of them keeps, and need not be taken through the foreign code again.
-/

namespace ManagedHeap

/-- Only things beside the objects, the symbols, the strings and the records change. -/
def Heap.Besides (heap heap' : Heap) : Prop :=
  heap'.journal.ofCells = heap.journal.ofCells ∧ ∃ protect roots finalizers tasks evaluator journal taskWaits, heap' =
    { heap with
      protect, roots, finalizers, tasks, evaluator, journal
      counters := { heap.counters with taskWaits } }

theorem Heap.Besides.refl (heap : Heap) : heap.Besides heap := ⟨rfl, _, _, _, _, _, _, _, rfl⟩

theorem Heap.Besides.trans {heap mid heap' : Heap} (hfirst : heap.Besides mid)
    (hlast : mid.Besides heap') : heap.Besides heap' := by
  obtain ⟨hcells, _, _, _, _, _, _, _, rfl⟩ := hfirst
  obtain ⟨hcells', _, _, _, _, _, _, _, rfl⟩ := hlast
  exact ⟨hcells'.trans hcells, _, _, _, _, _, _, _, rfl⟩

namespace HeapM

variable {α β : Type} {heap heap' : Heap} {h : Handle}

/-- The operations on the heap alone that need nothing but a heap to run on, and whether each counts
all that it stores, releases just what it takes out, and leaves the cells to their objects. -/
inductive Basic : {α : Type} → HeapM α → Bool → Prop
  /-- The first field of a pair may be the value of a removed binding, which was released before. -/
  | setCar {h value : Handle} : Basic (setCar h value) false
  | setCdr {h value : Handle} : Basic (setCdr h value) true
  | setTag {h value : Handle} : Basic (setTag h value) true
  | setFrame {h value : Handle} : Basic (setFrame h value) true
  | setAttrib {h value : Handle} : Basic (setAttrib h value) true
  | setPromiseValue {h value : Handle} : Basic (setPromiseValue h value) true
  | setSymbolValue {h value : Handle} : Basic (setSymbolValue h value) true
  | setVectorElt {h value : Handle} {i : Nat} : Basic (setVectorElt h i value) true
  | setObjectBit {h : Handle} {b : Bool} : Basic (setObjectBit h b) true
  /-- A copy takes over the class bits of its original. -/
  | addClassBits {h : Handle} {flags : Flags} : Basic (updateCell h (Cell.mapFlags fun fs =>
      { fs with object := fs.object || flags.object, s4Object := fs.s4Object || flags.s4Object })) true
  | touch {h : Handle} : Basic (touch h) true
  | setRealData {h : Handle} {values : Array Float} : Basic (setRealData h values) true
  | setIntegerData {h : Handle} {values : Array Int32} : Basic (setIntegerData h values) true
  | setRawData {h : Handle} {values : Bytes} : Basic (setRawData h values) true
  | incrementRefCount {h : Handle} : Basic (incrementRefCount h) true
  | decrementRefCount {h : Handle} : Basic (decrementRefCount h) false
  | findVar {env sym : Handle} : Basic (findVar env sym) true
  | removeVar {env sym : Handle} : Basic (removeVar env sym) false
  | flagOnExit {records : List Handle} : Basic (flagOnExit records) true
  | unlinkWeakRef {record hint : Handle} : Basic (unlinkWeakRef record hint) true
  | collect {level : Level} {reason : Reason} : Basic (collect level reason) false
  | allocateFast {kind : Kind} {length : Nat} : Basic (allocateFast kind length) false

theorem Basic.traced {act : HeapM α} {pays : Bool} (hb : act.Basic pays) : Traced act := by
  cases hb
  case setCar => exact .setCar
  case setCdr => exact .of_retouches .setCdr .setCdr .setCdr
  case setTag => exact .of_retouches .setTag .setTag .setTag
  case setFrame => exact .of_retouches .setFrame .setFrame .setFrame
  case setAttrib => exact .of_retouches .setAttrib .setAttrib .setAttrib
  case setPromiseValue => exact .of_retouches .setPromiseValue .setPromiseValue .setPromiseValue
  case setSymbolValue => exact .of_retouches .setSymbolValue .setSymbolValue .setSymbolValue
  case setVectorElt => exact .of_retouches .setVectorElt .setVectorElt .setVectorElt
  case setObjectBit => exact .of_retouches .setObjectBit .setObjectBit .setObjectBit
  case addClassBits =>
    exact .of_retouches
      (.updateCell fun _ _ _ _ => ⟨.header rfl rfl rfl rfl rfl rfl rfl rfl id, rfl⟩)
      (.updateCell fun _ _ => .mapFlags rfl rfl) (.mapFlags (fun _ => rfl) fun _ => rfl)
  case touch => exact .of_retouches .touch .touch .touch
  case setRealData => exact .of_retouches .setRealData .setRealData .setRealData
  case setIntegerData => exact .of_retouches .setIntegerData .setIntegerData .setIntegerData
  case setRawData => exact .of_retouches .setRawData .setRawData .setRawData
  case incrementRefCount =>
    exact .of_retouches .incrementRefCount .incrementRefCount .incrementRefCount
  case decrementRefCount => exact .decrementRefCount
  case findVar => exact .of_retouches .findVar .findVar .findVar
  case removeVar => exact .removeVar
  case flagOnExit records =>
    exact .of_retouches (.flagOnExit records) (.flagOnExit records) (.flagOnExit records)
  case unlinkWeakRef =>
    exact fun heap u heap' ht hrun => ⟨Safe.unlinkWeakRef heap u heap' ht.1 hrun,
      ht.2.retouched (Retouches.unlinkWeakRef ht.1 hrun) (Settles.unlinkWeakRef _ _ _ hrun)⟩
  case collect => exact .collect
  case allocateFast => exact issues_allocateFast.conseq (fun _ => id) fun _ _ ht => ht.1

def Besides (act : HeapM α) : Prop :=
  ∀ heap a heap', act.run heap = .ok (a, heap') → heap.Besides heap'

namespace Besides

variable {x act : HeapM α} {g : α → HeapM β}

theorem bind (hx : Besides x) (hg : ∀ a, Besides (g a)) : Besides (x >>= g) := by
  intro heap b heap' hrun
  obtain ⟨a, mid, hfirst, hrest⟩ := run_bind.mp hrun
  exact (hx heap a mid hfirst).trans (hg a mid b heap' hrest)

theorem of_reads (hx : Reads x) : Besides x := by
  intro heap a heap' hrun
  obtain rfl := hx heap a heap' hrun
  exact .refl _

theorem pure {a : α} : Besides (pure a) := of_reads .pure

theorem throw {e : Fault} : Besides (throw e : HeapM α) := of_reads .throw

theorem modify {f : Heap → Heap} (hf : ∀ heap : Heap, heap.Besides (f heap)) : Besides (modify f) := by
  intro heap u heap' hrun
  obtain rfl := run_modify.mp hrun
  exact hf heap

theorem note {e : Event} : Besides (note e) := modify fun _ => ⟨rfl, _, _, _, _, _, _, _, rfl⟩

theorem modifyRoots {f : RootSet → RootSet} : Besides (modifyRoots f) :=
  modify fun _ => ⟨rfl, _, _, _, _, _, _, _, rfl⟩

theorem modifyFinalizers {f : FinalizerState → FinalizerState} : Besides (modifyFinalizers f) :=
  modify fun _ => ⟨rfl, _, _, _, _, _, _, _, rfl⟩

theorem noteCall {record function key : Handle} : Besides (noteCall record function key) :=
  modify fun _ => ⟨Journal.ofCells_record_aside rfl, _, _, _, _, _, _, _, rfl⟩

theorem countRun : Besides countRun :=
  modify fun _ => ⟨Journal.ofCells_record_aside rfl, _, _, _, _, _, _, _, rfl⟩

theorem onProtect {f : ProtectStack → Except Fault (α × ProtectStack)} : Besides (onProtect f) := by
  intro heap a heap' hrun
  simp only [HeapM.onProtect, StateT.run] at hrun
  split at hrun
  · rw [Except.ok.injEq, Prod.mk.injEq] at hrun
    obtain ⟨-, rfl⟩ := hrun
    exact ⟨rfl, _, _, _, _, _, _, _, rfl⟩
  · cases hrun

theorem pushRoot : Besides (pushRoot h) := by
  refine bind onProtect fun result => ?_
  split
  · exact bind note fun _ => pure
  · exact pure

theorem closeScope {base : Nat} : Besides (closeScope base) := by
  refine bind (of_reads .protectDepth) fun depth => ?_
  split
  · exact throw
  · exact modify fun _ => ⟨rfl, _, _, _, _, _, _, _, rfl⟩

theorem leaveRecovery {scope : RecoveryScope} : Besides (leaveRecovery scope) := by
  refine bind (of_reads .enterRecovery) fun now => ?_
  split
  · exact throw
  · exact bind (modify fun _ => ⟨Journal.ofCells_record_aside rfl, _, _, _, _, _, _, _, rfl⟩)
      fun _ => bind modifyRoots fun _ => pure

theorem awaitOutput : Besides (awaitOutput h) := by
  refine bind (of_reads .get) fun heap => ?_
  split
  · exact modify fun _ => ⟨rfl, _, _, _, _, _, _, _, rfl⟩
  · exact pure

theorem task {a : Session.TaskAction} : Besides (Session.task a h) :=
  bind (modify fun _ => ⟨rfl, _, _, _, _, _, _, _, rfl⟩) fun _ => bind (of_reads .get) fun _ => pure

end Besides

end HeapM

/-- The countdown to the next collection has not run out. -/
def Heap.Unexpired (heap : Heap) : Prop :=
  0 < heap.strategy.interval → heap.strategy.countdownExpired = false

/-- What one operation does to a heap, and whether it counts all that it stores, releases just what
it takes out, and leaves the cells to their objects. -/
inductive Heap.Effect : Bool → Heap → Heap → Prop
  | beside {heap heap' : Heap} : heap.Besides heap' → Effect true heap heap'
  | basic {α : Type} {act : HeapM α} {a : α} {pays : Bool} {heap heap' : Heap} :
      act.Basic pays → act.run heap = .ok (a, heap') → Effect pays heap heap'
  /-- The slow path takes a cell only before the countdown has run out. -/
  | take {kind : Kind} {length : Nat} {reserved : Bool} {r : Except Bool Handle}
      {heap heap' : Heap} : kind ≠ .free → heap.Unexpired →
      (HeapM.takeOrGrow kind length reserved).run heap = .ok (r, heap') → Effect false heap heap'
  /-- A fresh object is filled, and what it holds is counted. -/
  | fill {kind : Kind} {payload : Payload} {slots : List Handle} {h : Handle} {u v : Unit}
      {heap mid heap' : Heap} : heap.Sized kind payload.length h → payload.Fits kind slots →
      payload.Covered slots → (HostM.setPayload h payload).run heap = .ok (u, mid) →
      (HostM.countReferences slots).run mid = .ok (v, heap') → Effect true heap heap'
  /-- The same the other way round. -/
  | fillCounted {kind : Kind} {payload : Payload} {slots : List Handle} {h : Handle} {u v : Unit}
      {heap mid heap' : Heap} : heap.Sized kind payload.length h → payload.Fits kind slots →
      payload.Covered slots → (HostM.countReferences slots).run heap = .ok (u, mid) →
      (HostM.setPayload h payload).run mid = .ok (v, heap') → Effect true heap heap'
  /-- A fresh record goes in front of the chain. -/
  | link {record key value finalizer : Handle} {onExit : Bool} {u : Unit} {heap heap' : Heap} :
      heap.Sized .weakRef 0 record →
      (HeapM.linkWeakRef record key value finalizer onExit).run heap = .ok (u, heap') →
      Effect true heap heap'
  /-- A fresh string goes into the cache. -/
  | cache {h : Handle} {bytes : Bytes} {encoding : Encoding} {hash : UInt32} {ascii : Bool}
      {u : Unit} {heap heap' : Heap} : heap.Sized .charString bytes.size h →
      (HeapM.cacheString h bytes encoding hash ascii).run heap = .ok (u, heap') → Effect true heap heap'
  /-- A fresh symbol takes its name and goes into the table. -/
  | enter {sym pname : Handle} {name : Bytes} {u : Unit} {heap mid : Heap} :
      heap.Sized .symbol 0 sym → (HeapM.nameSymbol sym pname).run heap = .ok (u, mid) →
      Effect true heap { mid with symbols := mid.symbols.insert name sym }
  /-- The heap makes way for a new one. -/
  | renew {heap fresh : Heap} : Heap.build {} heap.strings.hash = .ok fresh →
      Effect false heap { fresh with
        journal := { heap.journal with
          observing := false
          history := heap.journal.history ++ fresh.journal.history }
        tasks := { registry := heap.tasks.registry } }

section

variable {α : Type} {heap heap' : Heap}

/-- The same as far as the cells and the collection policy are concerned. -/
inductive Heap.CellStep : Heap → Heap → Prop
  | amend {heap heap' : Heap} : heap.Amends heap' → CellStep heap heap'
  | grow {n : NodeClass} {room : Bool} {heap heap' : Heap} :
      (HeapM.grow n).run heap = .ok (room, heap') → CellStep heap heap'
  | claim {kind : Kind} {length : Nat} {payload : Payload} {r : Option Handle}
      {heap heap' : Heap} : kind ≠ .free → Payload.forKind? kind length = some payload →
      heap.Unexpired → (HeapM.claimCell? (.forRequest kind length) kind payload
        (HeapM.chunksFor kind length)).run heap = .ok (r, heap') → CellStep heap heap'
  | collect {level : Level} {reason : Reason} {o : Outcome} {heap heap' : Heap} :
      (HeapM.collect level reason).run heap = .ok (o, heap') → CellStep heap heap'
  | renew {heap fresh : Heap} : Heap.build {} heap.strings.hash = .ok fresh →
      CellStep heap { fresh with
        journal := { heap.journal with
          observing := false
          history := heap.journal.history ++ fresh.journal.history }
        tasks := { registry := heap.tasks.registry } }

theorem HeapM.Basic.cellStep {act : HeapM α} {a : α} {pays : Bool} (hb : act.Basic pays)
    (hs : heap.Sound) (hrun : act.run heap = .ok (a, heap')) : heap.CellStep heap' := by
  have hretouch : Retouches act → heap.CellStep heap' := fun hact => .amend (hact heap a heap' hrun)
  cases hb
  case setCar => exact hretouch .setCar
  case setCdr => exact hretouch .setCdr
  case setTag => exact hretouch .setTag
  case setFrame => exact hretouch .setFrame
  case setAttrib => exact hretouch .setAttrib
  case setPromiseValue => exact hretouch .setPromiseValue
  case setSymbolValue => exact hretouch .setSymbolValue
  case setVectorElt => exact hretouch .setVectorElt
  case setObjectBit => exact hretouch .setObjectBit
  case addClassBits =>
    exact hretouch (.updateCell fun _ _ => .header rfl rfl rfl rfl rfl rfl)
  case touch => exact hretouch .touch
  case setRealData => exact hretouch .setRealData
  case setIntegerData => exact hretouch .setIntegerData
  case setRawData => exact hretouch .setRawData
  case incrementRefCount => exact hretouch .incrementRefCount
  case decrementRefCount => exact hretouch .decrementRefCount
  case findVar => exact hretouch .findVar
  case removeVar => exact hretouch .removeVar
  case flagOnExit records => exact hretouch (.flagOnExit records)
  case unlinkWeakRef => exact .amend (Retouches.unlinkWeakRef hs hrun)
  case collect => exact .collect hrun
  case allocateFast kind length =>
    cases hdue : heap.strategy.countdownExpired with
    | true =>
      rw [run_fast_of_due (.inr hdue)] at hrun
      obtain ⟨rfl, rfl⟩ := Prod.mk.inj (Except.ok.inj hrun)
      exact .amend (.refl heap)
    | false =>
      rcases run_fast hrun with ⟨-, rfl⟩ | ⟨hkind, hsmall, payload, claimed, hp, hclaim, -⟩
      · exact .amend (.refl _)
      · have hchunks : chunksFor kind length = 0 := if_neg (hsmall ▸ Bool.false_ne_true)
        exact .claim hkind hp (fun _ => hdue) (hchunks ▸ hclaim)

theorem Heap.Effect.keep {I : Heap → Prop} {pays : Bool} (hs : heap.Sound)
    (he : heap.Effect pays heap')
    (hstep : ∀ {heap heap' : Heap}, heap.Sound → heap.CellStep heap' → I heap → I heap')
    (h : I heap) : I heap' := by
  cases he with
  | beside hb =>
    obtain ⟨hcells, _, _, _, _, _, _, _, rfl⟩ := hb
    exact hstep hs (.amend (.aside rfl rfl (pace_congr rfl rfl rfl rfl hcells))) h
  | basic hb hrun => exact hstep hs (hb.cellStep hs hrun) h
  | take hkind hfree hrun =>
    rcases HeapM.run_take hrun with ⟨-, rfl⟩ | ⟨-, mid, hgrow, payload, claimed, hp, hclaim, -⟩
    · exact h
    rcases hgrow with rfl | ⟨room, hgrow⟩
    · exact hstep hs (.claim hkind hp hfree hclaim) h
    · have hstrategy : mid.strategy = heap.strategy := by
        rcases HeapM.run_growth hgrow with ⟨-, rfl⟩ | ⟨-, -, i, arena, event, -, rfl⟩ <;> rfl
      refine hstep (HeapM.run_grow hs hgrow).1 (.claim hkind hp ?_ hclaim) (hstep hs (.grow hgrow) h)
      rw [Heap.Unexpired, hstrategy]
      exact hfree
  | fill hsized hfits _ hfill hcount =>
    exact hstep hs (.amend ((HeapM.Retouches.setPayload (hsized.roomy hfits.suits) hfill).trans
      (HeapM.Retouches.countReferences _ _ _ _ hcount))) h
  | fillCounted hsized hfits _ hcount hfill =>
    have hroomy := HeapM.Retouches.roomy_countReferences _ _ _ _ (hsized.roomy hfits.suits) hcount
    exact hstep hs (.amend ((HeapM.Retouches.countReferences _ _ _ _ hcount).trans
      (HeapM.Retouches.setPayload hroomy hfill))) h
  | link hsized hrun => exact hstep hs (.amend (HeapM.Retouches.linkWeakRef hsized hrun)) h
  | cache hsized hrun => exact hstep hs (.amend (HeapM.Retouches.cacheString hs hsized hrun)) h
  | enter hsized hrun =>
    refine hstep hs (.amend ((HeapM.Retouches.nameSymbol hsized hrun).trans ?_)) h
    exact .aside rfl rfl rfl
  | renew hbuild => exact hstep hs (.renew hbuild) h

end

/-- Effects one after the other, on heaps that are sound and have a history. -/
inductive Heap.Effects (start : Heap) : Heap → Prop
  | refl : Effects start start
  | tail {pays : Bool} {heap heap' : Heap} : Effects start heap → heap.SoundWithHistory →
      heap.Effect pays heap' → Effects start heap'

def Heap.Comes (start heap : Heap) : Prop := heap.SoundWithHistory ∧ start.Effects heap

theorem Heap.Comes.tail {start heap heap' : Heap} {pays : Bool} (hc : start.Comes heap)
    (ht : heap'.SoundWithHistory) (he : heap.Effect pays heap') : start.Comes heap' := ⟨ht, hc.2.tail hc.1 he⟩

theorem Heap.Effects.keep {I : Heap → Prop} {start heap : Heap} (hc : start.Effects heap)
    (hstep : ∀ {pays : Bool} {heap heap' : Heap}, heap.SoundWithHistory → heap.Effect pays heap' → I heap →
      I heap')
    (hstart : I start) : I heap := by
  induction hc with
  | refl => exact hstart
  | tail _ ht he ih => exact hstep ht he ih

section

variable (start : Heap)

def HeapM.Composed {α : Type} (act : HeapM α) : Prop := Triple start.Comes act fun _ => start.Comes

def HostM.Composed {ω α : Type} (act : HostM ω α) : Prop :=
  Triple start.Comes act fun _ => start.Comes

def Attempt.Composed {ω α : Type} (act : Attempt ω α) : Prop :=
  Triple start.Comes act (fun _ => start.Comes) start.Comes

/-- What the foreign code does is composed of operations. -/
structure Host.Composed {ω : Type} (host : Host ω) : Prop where
  traced : host.Traced
  native : ∀ routine key, HostM.Composed start (host.native routine key)
  evaluate : ∀ evaluator function key, HostM.Composed start (host.evaluate evaluator function key)

end

variable {start : Heap}

namespace HeapM.Composed

variable {α : Type} {act : HeapM α}

theorem basic {pays : Bool} (hb : act.Basic pays) : Composed start act := fun heap a heap' hc hrun =>
  hc.tail (hb.traced heap a heap' hc.1 hrun) (.basic hb hrun)

theorem besides (ht : Traced act) (hb : Besides act) : Composed start act :=
  fun heap a heap' hc hrun => hc.tail (ht heap a heap' hc.1 hrun) (.beside (hb heap a heap' hrun))

theorem reads (hx : Reads act) : Composed start act := .of_reads hx fun _ _ => id

theorem collect {level : Level} {reason : Reason} : Triple start.Comes (collect level reason)
    fun _ heap => start.Comes heap ∧ heap.Unexpired := by
  intro heap o heap' hc hrun
  refine ⟨Composed.basic .collect heap o heap' hc hrun, fun hinterval => ?_⟩
  obtain ⟨-, _, _, _, _, _, _, -, -, -, -, _, _, _, _, _, -, rfl, -, -, -, -, rfl⟩ :=
    run_collect hrun
  exact decide_eq_false (Nat.not_le_of_lt (by simpa using hinterval))

theorem takeOrGrow {kind : Kind} (hkind : kind ≠ .free) {length : Nat} {reserved : Bool} :
    Triple (fun heap => start.Comes heap ∧ heap.Unexpired) (takeOrGrow kind length reserved)
      fun _ => start.Comes :=
  fun heap r heap' hc hrun => hc.1.tail (issues_takeOrGrow hkind heap r heap' hc.1.1 hrun).1
    (.take hkind hc.2 hrun)

theorem collectionDue {kind : Kind} {length : Nat} : Triple start.Comes (collectionDue kind length)
    fun due heap => start.Comes heap ∧ (due = none → heap.Unexpired) := by
  intro heap due heap' hc hrun
  obtain rfl := Reads.collectionDue _ _ _ hrun
  refine ⟨hc, ?_⟩
  rintro rfl -
  obtain ⟨_, _, hget, hdue⟩ := run_bind.mp hrun
  obtain ⟨rfl, rfl⟩ := run_get.mp hget
  split at hdue
  · exact nomatch (run_pure.mp hdue).1
  · exact Strategy.not_expired_of_trigger (run_pure.mp hdue).1

end HeapM.Composed

theorem Heap.Comes.keeping {heap : Heap} (hc : start.Comes heap) (transient : Array Handle) :
    start.Comes (heap.keeping transient) :=
  hc.tail (hc.1.keeping transient) (.beside ⟨rfl, _, _, _, _, _, _, _, rfl⟩)

namespace HostM

variable {ω α β : Type} {host : Host ω}

namespace Composed

variable {x : HostM ω α} {f : α → HostM ω β}

theorem bind (hx : Composed start x) (hf : ∀ a, Composed start (f a)) : Composed start (x >>= f) :=
  Triple.bind hx hf

theorem pure {a : α} : Composed start (pure a : HostM ω α) := Triple.pure fun _ => id

theorem throw {e : Fault} : Composed start (throwThe Fault e : HostM ω α) := Triple.throw

theorem lift {act : HeapM α} (h : act.Composed start) : Composed start (liftM act : HostM ω α) :=
  Triple.lift h

theorem basic {act : HeapM α} {pays : Bool} (h : act.Basic pays) :
    Composed start (liftM act : HostM ω α) :=
  lift (.basic h)

theorem reads {act : HeapM α} (h : act.Reads) : Composed start (liftM act : HostM ω α) :=
  lift (.reads h)

theorem getHeap : Composed start (getThe Heap : HostM ω Heap) := Triple.getHeap fun _ => id

theorem note {e : Event} : Composed start (HeapM.note e : HostM ω Unit) :=
  lift (.besides (.of_retouches .note .note .note) .note)

theorem modifyRoots {f : RootSet → RootSet} :
    Composed start (liftM (HeapM.modifyRoots f) : HostM ω PUnit) :=
  lift (.besides (.of_retouches .modifyRoots .modifyRoots .modifyRoots) .modifyRoots)

theorem modifyFinalizers {g : FinalizerState → FinalizerState} :
    Composed start (HeapM.modifyFinalizers g : HostM ω Unit) :=
  lift (.besides (.of_retouches .modifyFinalizers .modifyFinalizers .modifyFinalizers)
    .modifyFinalizers)

theorem noteCall {record function key : Handle} :
    Composed start (HeapM.noteCall record function key : HostM ω Unit) :=
  lift (.besides (.of_retouches .noteCall .noteCall .noteCall) .noteCall)

theorem countRun : Composed start (HeapM.countRun : HostM ω Unit) :=
  lift (.besides (.of_retouches .countRun .countRun .countRun) .countRun)

theorem closeScope {base : Nat} : Composed start (HeapM.closeScope base : HostM ω Unit) :=
  lift (.besides (.of_retouches .closeScope .closeScope .closeScope) .closeScope)

theorem leaveRecovery {scope : RecoveryScope} :
    Composed start (HeapM.leaveRecovery scope : HostM ω Bool) :=
  lift (.besides (.of_retouches .leaveRecovery .leaveRecovery .leaveRecovery) .leaveRecovery)

theorem setEvaluator {evaluator : Heap → Option Evaluator} : Composed start
    (modifyThe Heap fun heap => { heap with evaluator := evaluator heap } : HostM ω PUnit) :=
  Triple.modifyHeap fun _ hc => hc.tail
    ⟨hc.1.1.aside rfl rfl rfl rfl rfl, hc.1.2.retouched (.aside rfl rfl rfl) (.aside rfl)⟩
    (.beside ⟨rfl, _, _, _, _, _, _, _, rfl⟩)

theorem stepBound : Composed start (stepBound host) := bind (reads .walkBound) fun _ => pure

theorem withTransient {hs : List Handle} {act : HostM ω α} (hact : Composed start act) :
    Composed start (withTransient hs act) :=
  Triple.withTransient hact (fun _ transient hc => hc.keeping transient)
    fun _ _ transient hc => hc.keeping transient

theorem invoke (hhost : host.Composed start) (function key : Handle) :
    Composed start (invoke host function key) := by
  refine bind (reads .kind) fun k => ?_
  cases k
  case nativeFunction =>
    refine bind (reads .payload) fun p => ?_
    cases p
    case nativeFunction routine =>
      cases routine with
      | none => exact pure
      | some routine => exact hhost.native routine key
    all_goals exact reads .wrongKind
  case closure =>
    refine bind getHeap fun heap => ?_
    cases heap.evaluator with
    | none => exact pure
    | some evaluator =>
      refine bind setEvaluator fun _ => bind (hhost.evaluate evaluator function key) fun outcome =>
        bind getHeap fun after => ?_
      split
      · exact bind setEvaluator fun _ => pure
      · exact pure
  all_goals exact throw

theorem runFinalizer (hhost : host.Composed start) (record function key : Handle) :
    Composed start (runFinalizer host record function key) := by
  refine bind (withTransient (bind noteCall fun _ => ?_)) fun outcome => bind countRun fun _ => ?_
  · refine bind (reads .enterRecovery) fun scope => bind (invoke hhost function key) fun outcome =>
      bind leaveRecovery fun changed => ?_
    split
    · exact bind note fun _ => pure
    · exact pure
  · cases outcome with
    | ok u => exact pure
    | error e => exact bind modifyFinalizers fun _ => note

theorem finalizePass (hhost : host.Composed start) (fuel : Nat) (previous cursor : Handle)
    (found : Bool) (ran : Nat) :
    Composed start (finalizePass host previous cursor found ran fuel) := by
  induction fuel generalizing previous cursor found ran with
  | zero => exact throw
  | succ fuel ih =>
    unfold HostM.finalizePass
    split
    · exact pure
    · refine bind (reads .chainFields) fun fields => bind (reads .flags) fun flags => ?_
      split
      · exact ih cursor fields.next found ran
      · refine bind (basic .unlinkWeakRef) fun _ => ?_
        split
        · exact ih previous fields.next true ran
        · exact bind (runFinalizer hhost cursor fields.finalizer fields.key) fun _ =>
            ih previous fields.next true (ran + 1)

theorem finalizePasses (hhost : host.Composed start) (fuel ran : Nat) :
    Composed start (finalizePasses host ran fuel) := by
  induction fuel generalizing ran with
  | zero => exact throw
  | succ fuel ih =>
    refine bind getHeap fun heap => bind stepBound fun bound =>
      bind (finalizePass hhost bound .nil heap.weak.head false ran) fun result => ?_
    obtain ⟨found, ran⟩ := result
    dsimp only
    split
    · exact ih ran
    · exact pure

theorem runPendingFinalizers (hhost : host.Composed start) :
    Composed start (runPendingFinalizers host) := by
  refine bind getHeap fun heap => ?_
  split
  · exact pure
  · exact bind modifyFinalizers fun _ => bind (finalizePasses hhost host.fuel 0) fun ran =>
      bind modifyFinalizers fun _ => pure

theorem runExitFinalizers (hhost : host.Composed start) :
    Composed start (runExitFinalizers host) := by
  refine bind getHeap fun heap => ?_
  split
  · exact pure
  · exact bind (reads .weakRecords) fun records => bind (basic .flagOnExit) fun _ =>
      bind (runPendingFinalizers hhost) fun ran => bind modifyFinalizers fun _ =>
      bind note fun _ => pure

theorem requestCollection (hhost : host.Composed start) (level : Level) :
    Composed start (requestCollection host level) :=
  bind (basic .collect) fun _ => bind (runPendingFinalizers hhost) fun _ => pure

end Composed

variable {kind : Kind} {length : Nat} {roots : List Handle}

theorem composed_escalate (hkind : kind ≠ .free) (levels : List Level) (reserved : Bool) :
    HeapM.Composed start (HeapM.escalate kind length reserved levels) := by
  induction levels generalizing reserved with
  | nil => exact .pure fun _ => id
  | cons level deeper ih =>
    refine .bind HeapM.Composed.collect fun _ => .bind (HeapM.Composed.takeOrGrow hkind) fun r => ?_
    cases r with
    | ok h => exact .pure fun _ => id
    | error reserved => exact ih reserved

theorem composed_finalizeAndRetry (hhost : host.Composed start) (hkind : kind ≠ .free)
    {reserved : Bool} : Composed start (finalizeAndRetry host kind length reserved) := by
  refine .bind (.reads .pendingFinalizerCount) fun n => ?_
  split
  · exact .pure
  · exact .bind (.runPendingFinalizers hhost) fun ran =>
      Triple.bind (.lift HeapM.Composed.collect) fun _ => .lift (HeapM.Composed.takeOrGrow hkind)

theorem composed_retry {P : Heap → Prop} {x : HostM ω (Except Bool Handle)}
    {next : Bool → HostM ω (Except HeapError Handle)} (hx : Triple P x fun _ => start.Comes)
    (hnext : ∀ reserved, Composed start (next reserved)) : Triple P (do
      match ← x with
      | .ok h => return .ok h
      | .error reserved => next reserved) fun _ => start.Comes := by
  refine Triple.bind hx fun r => ?_
  change Composed start _
  cases r with
  | ok h => exact .pure
  | error reserved => exact hnext reserved

/-- What the slow path does when no collection is due, or no more. -/
def takeOrRetry (host : Host ω) (kind : Kind) (length : Nat) :
    HostM ω (Except HeapError Handle) := do
  match ← HeapM.takeOrGrow kind length false with
  | .ok h => return .ok h
  | .error reserved =>
    match ← HeapM.escalate kind length reserved (← getThe Heap).strategy.chooseLevel.upward with
    | .ok h => return .ok h
    | .error reserved =>
      match ← finalizeAndRetry host kind length reserved with
      | .ok h => return .ok h
      | .error reserved =>
        HeapM.note (.allocationFailed kind length reserved)
        return .error (.outOfMemory kind length)

theorem allocateSlow_eq (host : Host ω) (kind : Kind) (length : Nat) :
    allocateSlow host kind length = (do
      if let some reason ← HeapM.collectionDue kind length then
        let _ ← HeapM.collect (← getThe Heap).strategy.chooseLevel reason
      takeOrRetry host kind length) := rfl

theorem composed_takeOrRetry (hhost : host.Composed start) (hkind : kind ≠ .free) :
    Triple (fun heap => start.Comes heap ∧ heap.Unexpired) (takeOrRetry host kind length)
      fun _ => start.Comes := by
  refine composed_retry (.lift (HeapM.Composed.takeOrGrow hkind)) fun reserved =>
    .bind .getHeap fun heap => ?_
  refine composed_retry (.lift (composed_escalate hkind _ reserved)) fun reserved =>
    composed_retry (composed_finalizeAndRetry hhost hkind) fun reserved => ?_
  exact .bind .note fun _ => .pure

theorem composed_allocateSlow (hhost : host.Composed start) (hkind : kind ≠ .free) :
    Composed start (allocateSlow host kind length) := by
  rw [allocateSlow_eq]
  refine Triple.bind (.lift HeapM.Composed.collectionDue) fun due => ?_
  dsimp only
  rcases due with _ | reason
  · exact (composed_takeOrRetry hhost hkind).conseq (fun _ hc => ⟨hc.1, hc.2 rfl⟩) fun _ _ => id
  · exact Triple.bind (.getHeap fun _ hc => hc.1) fun heap =>
      Triple.bind (.lift HeapM.Composed.collect) fun _ => composed_takeOrRetry hhost hkind

theorem allocate_composed (hhost : host.Composed start) :
    Attempt.Triple start.Comes (allocate host kind length roots)
      (fun h heap => start.Comes heap ∧ heap.Sized kind length h) start.Comes := by
  have hcomes : Attempt.Composed start (allocate host kind length roots) := by
    unfold allocate
    dsimp only
    split
    · exact .bind (Q := fun _ _ => False) (.throw fun _ => id) fun _ => .absurd
    · rename_i hallocatable
      replace hallocatable : kind.isAllocatable = true := by simpa using hallocatable
      split
      · exact .bind (Q := fun _ _ => False) (.throw fun _ => id) fun _ => .absurd
      · refine .bind (.lift (HeapM.Composed.basic .allocateFast)) fun h => ?_
        split
        · exact .pure fun _ => id
        · have hslow : Composed start (withTransient roots (allocateSlow host kind length)) :=
            .withTransient (composed_allocateSlow hhost (HeapM.kind_ne_free hallocatable))
          refine .mk (hslow.conseq (fun _ => id) fun r heap hc => ?_)
          cases r with
          | error e => exact hc
          | ok h => exact hc
  exact (hcomes.and (allocate_sized hhost.traced)).conseq (fun _ hc => ⟨hc, hc.1⟩)
    (fun _ _ hc => ⟨hc.1, hc.2.2⟩) fun _ hc => hc.1

end HostM

end ManagedHeap
