import ManagedHeap.Proofs.ComputationRuns

/-!
# Where a computation may stop

Most operations can stop only because an object is dead or not of the kind that they expect. What
the cache of strings and the chain of weak records have to do with it is told apart: a string may
be missing from its bucket only where strings are evicted, and a chain may show to be broken only
where it is walked along.
-/

namespace ManagedHeap

def Fault.Finds (e : Fault) : Prop := ∀ h, e ≠ .stringMissing h

/-- The fault shows that the chain of weak records is broken. -/
def Fault.OfChain : Fault → Prop
  | .chainHoldsOther _ | .chainLength | .recordMissing => True
  | _ => False

/-- The fault is none that a broken chain of weak records shows in. -/
def Fault.OffChain (e : Fault) : Prop := ¬ e.OfChain

def Fault.Ordinary (e : Fault) : Prop := e.Finds ∧ e.OffChain

variable {σ α β : Type} {B B' : Fault → Prop} {P P' : σ → Prop} {Q Q' : α → σ → Prop}
  {R : β → σ → Prop}

def FailsIn (B : Fault → Prop) (P : σ → Prop) (act : StateT σ (Except Fault) α)
    (Q : α → σ → Prop) : Prop :=
  ∀ s, P s → (∀ e, act.run s = .error e → B e) ∧ ∀ a t, act.run s = .ok (a, t) → Q a t

namespace FailsIn

variable {x act : StateT σ (Except Fault) α} {f : α → StateT σ (Except Fault) β}

theorem bind (hx : FailsIn B P x Q) (hf : ∀ a, FailsIn B (Q a) (f a) R) :
    FailsIn B P (x >>= f) R := by
  intro s hP
  obtain ⟨hfails, hends⟩ := hx s hP
  rw [StateT.run_bind]
  cases hrun : x.run s with
  | error e => exact ⟨fun e' he => Except.error.inj he ▸ hfails e hrun, nofun⟩
  | ok p => exact hf p.1 p.2 (hends p.1 p.2 hrun)

theorem pure {a : α} (h : ∀ s, P s → Q a s) : FailsIn B P (pure a) Q := by
  refine fun s hP => ⟨nofun, fun b t hrun => ?_⟩
  obtain ⟨rfl, rfl⟩ := run_pure.mp hrun
  exact h s hP

theorem get {Q : σ → σ → Prop} (h : ∀ s, P s → Q s s) : FailsIn B P get Q := by
  refine fun s hP => ⟨nofun, fun b t hrun => ?_⟩
  obtain ⟨rfl, rfl⟩ := run_get.mp hrun
  exact h s hP

theorem modify {g : σ → σ} {Q : PUnit → σ → Prop} (h : ∀ s, P s → Q ⟨⟩ (g s)) :
    FailsIn B P (modify g) Q := by
  refine fun s hP => ⟨nofun, fun b t hrun => ?_⟩
  obtain rfl := run_modify.mp hrun
  exact h s hP

theorem throw {e : Fault} (he : B e) : FailsIn B P (throw e : StateT σ (Except Fault) α) Q :=
  fun _ _ => ⟨fun _ he' => Except.error.inj he' ▸ he, nofun⟩

theorem throw_bind {e : Fault} (he : B e) :
    FailsIn B P ((MonadExcept.throw e : StateT σ (Except Fault) α) >>= f) R :=
  throw (α := β) he

theorem conseq (hx : FailsIn B P x Q) (hP : ∀ s, P' s → P s) (hQ : ∀ a s, Q a s → Q' a s) :
    FailsIn B P' x Q' :=
  fun s h => ⟨(hx s (hP s h)).1, fun a t hrun => hQ a t ((hx s (hP s h)).2 a t hrun)⟩

theorem of_ends (h : ∀ s : σ, P s → ∃ a t, act.run s = .ok (a, t) ∧ Q a t) : FailsIn B P act Q := by
  intro s hP
  obtain ⟨a, t, hrun, hQ⟩ := h s hP
  rw [hrun]
  refine ⟨nofun, fun b u hsame => ?_⟩
  obtain ⟨rfl, rfl⟩ := Prod.mk.inj (Except.ok.inj hsame)
  exact hQ

end FailsIn

theorem except_bind_error {ε α β : Type} {x : Except ε α} {f : α → Except ε β} {e : ε}
    (he : (x >>= f) = .error e) : x = .error e ∨ ∃ a, x = .ok a ∧ f a = .error e := by
  cases x with
  | error e' => exact .inl (congrArg Except.error (Except.error.inj he))
  | ok a => exact .inr ⟨a, rfl, he⟩

namespace Arena

variable {a : Arena} {h : Handle} {e : Fault}

theorem ordinary_get (he : a.get h = .error e) : e.Ordinary := by
  unfold Arena.get at he
  split at he
  · exact nomatch he
  · obtain rfl := Except.error.inj he
    exact ⟨fun _ => nofun, id⟩

theorem ordinary_update {f : Cell → Cell} (he : a.update h f = .error e) : e.Ordinary := by
  unfold update at he
  split at he
  · obtain rfl := Except.error.inj he
    exact ⟨fun _ => nofun, id⟩
  · split at he
    · obtain rfl := Except.error.inj he
      exact ⟨fun _ => nofun, id⟩
    · exact nomatch he

end Arena

def StopsAt (B : Fault → Prop) (act : StateT σ (Except Fault) α) : Prop :=
  FailsIn B (fun _ => True) act fun _ _ => True

namespace StopsAt

variable {x : StateT σ (Except Fault) α} {f : α → StateT σ (Except Fault) β}

theorem bind (hx : StopsAt B x) (hf : ∀ a, StopsAt B (f a)) : StopsAt B (x >>= f) := FailsIn.bind hx hf

theorem pure {a : α} : StopsAt B (Pure.pure a : StateT σ (Except Fault) α) := FailsIn.pure fun _ => id

theorem get : StopsAt B (MonadState.get : StateT σ (Except Fault) σ) := FailsIn.get fun _ => id

theorem modify {g : σ → σ} : StopsAt B (modify g) := FailsIn.modify fun _ => id

theorem throw {e : Fault} (he : B e) : StopsAt B (throw e : StateT σ (Except Fault) α) :=
  FailsIn.throw he

theorem throw_bind {e : Fault} (he : B e) :
    StopsAt B ((MonadExcept.throw e : StateT σ (Except Fault) α) >>= f) :=
  FailsIn.throw_bind he

theorem and_ends (hx : StopsAt B x) (h : ∀ s a t, P s → x.run s = .ok (a, t) → Q a t) :
    FailsIn B P x Q :=
  fun s hP => ⟨(hx s trivial).1, fun a t => h s a t hP⟩

theorem of_errors (h : ∀ s e, x.run s = .error e → B e) : StopsAt B x :=
  fun s _ => ⟨h s, fun _ _ _ => trivial⟩

theorem lift {x : Except Fault α} (hx : ∀ e, x = .error e → B e) :
    StopsAt B (liftM x : StateT σ (Except Fault) α) := by
  refine .of_errors fun m e he => hx e ?_
  cases x with
  | error e' => exact congrArg Except.error (Except.error.inj he)
  | ok a => exact nomatch he

end StopsAt

def Tame (act : StateT σ (Except Fault) α) : Prop := ∀ s e, act.run s = .error e → e.Ordinary

namespace Tame

variable {x act : StateT σ (Except Fault) α} {f : α → StateT σ (Except Fault) β}

theorem failsIn (hx : Tame x) (hB : ∀ e, e.Ordinary → B e) (h : ∀ s a t, P s →
    x.run s = .ok (a, t) → Q a t) : FailsIn B P x Q :=
  fun s hP => ⟨fun e he => hB e (hx s e he), fun a t => h s a t hP⟩

theorem bind (hx : Tame x) (hf : ∀ a, Tame (f a)) : Tame (x >>= f) := by
  intro s e he
  rw [StateT.run_bind] at he
  rcases except_bind_error he with he | ⟨p, -, he⟩
  · exact hx s e he
  · exact hf p.1 p.2 e he

theorem pure {a : α} : Tame (Pure.pure a : StateT σ (Except Fault) α) := fun _ _ => nofun

theorem get : Tame (MonadState.get : StateT σ (Except Fault) σ) := fun _ _ => nofun

theorem modify {g : σ → σ} : Tame (modify g) := fun _ _ => nofun

theorem throw {e : Fault} (he : e.Ordinary) : Tame (throw e : StateT σ (Except Fault) α) :=
  fun _ _ he' => Except.error.inj he' ▸ he

end Tame

section

variable {x : StateT σ (Except Fault) α}

theorem StopsAt.finds (hx : Tame x) : StopsAt Fault.Finds x := .of_errors fun s e he => (hx s e he).1

theorem StopsAt.offChain (hx : Tame x) : StopsAt Fault.OffChain x :=
  .of_errors fun s e he => (hx s e he).2

end

namespace MarkM

variable {s : Scan} {h : Handle}

theorem tame_cell : Tame (cell h) := by
  intro m e he
  simp only [cell, StateT.run] at he
  split at he
  · cases he
  · obtain rfl := Except.error.inj he
    exact Arena.ordinary_get ‹_›

theorem tame_updateCell {f : Cell → Cell} : Tame (updateCell h f) := by
  intro m e he
  simp only [updateCell, onArena, StateT.run] at he
  cases hu : m.arena.update h f with
  | ok a =>
    rw [hu] at he
    cases he
  | error e' =>
    rw [hu] at he
    obtain rfl := Except.error.inj he
    exact Arena.ordinary_update hu

theorem tame_isMarked : Tame (isMarked s h) := .bind tame_cell fun _ => .pure

theorem tame_mark : Tame (mark s h) := by
  unfold mark
  split
  · exact .pure
  · refine .bind tame_updateCell fun _ => .bind tame_cell fun c => ?_
    dsimp only
    split
    · exact .pure
    · exact .bind tame_updateCell fun _ => .bind .modify fun _ => .pure

theorem tame_markAll (hs : List Handle) : Tame (markAll s hs) := by
  induction hs with
  | nil => exact .pure
  | cons h hs ih => exact .bind tame_mark fun _ => ih

theorem tame_markEdges : Tame (markEdges s h) := .bind tame_cell fun _ => tame_markAll _

theorem tame_drain : Tame (drain s) := by
  have hwithin : ∀ fuel, Tame (drainWithin s fuel) := by
    intro fuel
    induction fuel with
    | zero =>
      refine .bind .get fun m => ?_
      split
      · exact .throw ⟨fun _ => nofun, id⟩
      · exact .pure
    | succ fuel ih =>
      refine .bind .get fun m => ?_
      split
      · exact .pure
      · exact .bind .modify fun _ => .bind tame_markEdges fun _ => ih
  exact .bind .get fun m => hwithin _

theorem tame_markRemembered (hs : List Handle) : Tame (markRemembered s hs) := by
  induction hs with
  | nil => exact .pure
  | cons h hs ih =>
    rw [markRemembered]
    refine .bind .get fun m => ?_
    dsimp only
    split
    · split
      · exact .bind tame_markEdges fun _ => ih
      · exact ih
    · exact ih

theorem tame_markRoots {roots remembered : List Handle} : Tame (markRoots s roots remembered) :=
  .bind (tame_markAll _) fun _ => .bind tame_drain fun _ => .bind (tame_markRemembered _)
    fun _ => tame_drain

theorem tame_markTasks {tasks : Tasks} : Tame (markTasks s tasks) := by
  have hheld : ∀ hs, Tame (markHeld s tasks hs) := by
    intro hs
    induction hs with
    | nil => exact .pure
    | cons h hs ih =>
      refine .bind .get fun m => ?_
      dsimp only
      split
      · exact .bind tame_updateCell fun _ => .bind tame_mark fun _ => ih
      · exact ih
  exact .bind (hheld _) fun _ => tame_drain

end MarkM

theorem HeapM.failsIn_marking {α : Type} {act : MarkM α} {P : Marking → Prop}
    {Q : α → Marking → Prop} (hact : FailsIn B P act Q) :
    FailsIn B (fun heap => P { arena := heap.arena }) (marking act) fun _ _ => True := by
  refine fun heap hP => ⟨fun e he => ?_, fun _ _ _ => trivial⟩
  have hfails := (hact { arena := heap.arena } hP).1
  simp only [marking, onArena, StateT.run] at he hfails
  cases hrun : act { arena := heap.arena } with
  | ok p =>
    rw [hrun] at he
    cases he
  | error e' =>
    rw [hrun] at he
    obtain rfl := Except.error.inj he
    exact hfails _ hrun

namespace Tame

variable {α : Type} {h value : Handle}

theorem cell : Tame (HeapM.cell h) := by
  intro heap e he
  simp only [HeapM.cell, StateT.run] at he
  split at he
  · cases he
  · obtain rfl := Except.error.inj he
    exact Arena.ordinary_get ‹_›

theorem updateCell {f : Cell → Cell} : Tame (HeapM.updateCell h f) := by
  intro heap e he
  simp only [HeapM.updateCell, HeapM.onArena, StateT.run] at he
  cases hu : heap.arena.update h f with
  | ok a =>
    rw [hu] at he
    cases he
  | error e' =>
    rw [hu] at he
    obtain rfl := Except.error.inj he
    exact Arena.ordinary_update hu

theorem onArena {f : Arena → Except Fault (α × Arena)}
    (hf : ∀ a e, f a = .error e → e.Ordinary) : Tame (HeapM.onArena f) := by
  intro heap e he
  simp only [HeapM.onArena, StateT.run] at he
  split at he
  · cases he
  · obtain rfl := Except.error.inj he
    exact hf _ _ ‹_›

theorem onProtect {f : ProtectStack → Except Fault (α × ProtectStack)}
    (hf : ∀ p e, f p = .error e → e.Ordinary) : Tame (HeapM.onProtect f) := by
  intro heap e he
  simp only [HeapM.onProtect, StateT.run] at he
  split at he
  · cases he
  · obtain rfl := Except.error.inj he
    exact hf _ _ ‹_›

theorem isLive : Tame (HeapM.isLive h) := bind get fun _ => pure

theorem kind : Tame (HeapM.kind h) := bind cell fun _ => pure

theorem flags : Tame (HeapM.flags h) := bind cell fun _ => pure

theorem generation : Tame (HeapM.generation h) := bind cell fun _ => pure

theorem payload : Tame (HeapM.payload h) := bind cell fun _ => pure

theorem attrib : Tame (HeapM.attrib h) := bind cell fun _ => pure

theorem wrongKind {expected : Shape} : Tame (HeapM.wrongKind h expected : HeapM α) :=
  bind kind fun _ => throw ⟨fun _ => nofun, id⟩

theorem length : Tame (HeapM.length h) := bind payload fun _ => pure

theorem pairFields : Tame (HeapM.pairFields h) := by
  refine bind payload fun p => ?_
  cases p
  all_goals first | exact pure | exact wrongKind

theorem car : Tame (HeapM.car h) := bind pairFields fun _ => pure

theorem cdr : Tame (HeapM.cdr h) := bind pairFields fun _ => pure

theorem tag : Tame (HeapM.tag h) := bind pairFields fun _ => pure

theorem countPairs (fuel : Nat) (cursor : Handle) : Tame (HeapM.countPairs cursor fuel) := by
  induction fuel generalizing cursor with
  | zero => exact throw ⟨fun _ => nofun, id⟩
  | succ fuel ih =>
    refine bind kind fun k => ?_
    split
    · exact bind cdr fun next => bind (ih next) fun _ => pure
    · exact pure

theorem walkBound : Tame HeapM.walkBound := bind get fun _ => pure

theorem listLength : Tame (HeapM.listLength h) := bind walkBound fun fuel => countPairs fuel h

theorem vectorElt {i : Nat} : Tame (HeapM.vectorElt h i) := by
  refine bind payload fun p => ?_
  cases p
  case handles elements => cases hi : elements[i]? <;> simp only [hi] <;> exact pure
  all_goals exact wrongKind

theorem closureParts : Tame (HeapM.closureParts h) := by
  refine bind payload fun p => ?_
  cases p
  all_goals first | exact pure | exact wrongKind

theorem envEnclos : Tame (HeapM.envEnclos h) := by
  refine bind payload fun p => ?_
  cases p
  all_goals first | exact pure | exact wrongKind

theorem envFrame : Tame (HeapM.envFrame h) := by
  refine bind payload fun p => ?_
  cases p
  all_goals first | exact pure | exact wrongKind

theorem symbolValue : Tame (HeapM.symbolValue h) := by
  refine bind payload fun p => ?_
  cases p
  all_goals first | exact pure | exact wrongKind

theorem charBytes : Tame (HeapM.charBytes h) := by
  refine bind payload fun p => ?_
  cases p
  all_goals first | exact pure | exact wrongKind

theorem encoding : Tame (HeapM.encoding h) := by
  refine bind payload fun p => ?_
  cases p
  all_goals first | exact pure | exact wrongKind

theorem realData : Tame (HeapM.realData h) := by
  refine bind payload fun p => ?_
  cases p
  all_goals first | exact pure | exact wrongKind

theorem integerData : Tame (HeapM.integerData h) := by
  refine bind payload fun p => ?_
  cases p
  all_goals first | exact pure | exact wrongKind

theorem rawData : Tame (HeapM.rawData h) := by
  refine bind payload fun p => ?_
  cases p
  all_goals first | exact pure | exact wrongKind

theorem promiseValue : Tame (HeapM.promiseValue h) := by
  refine bind payload fun p => ?_
  cases p
  all_goals first | exact pure | exact wrongKind

theorem externalAddress : Tame (HeapM.externalAddress h) := by
  refine bind payload fun p => ?_
  cases p
  all_goals first | exact pure | exact wrongKind

theorem symbolName : Tame (HeapM.symbolName h) := by
  refine bind payload fun p => ?_
  cases p
  all_goals first | exact pure | exact wrongKind

theorem symbolLookupCache : Tame (HeapM.symbolLookupCache h) := by
  refine bind payload fun p => ?_
  cases p
  all_goals first | exact pure | exact wrongKind

theorem refCount : Tame (HeapM.refCount h) := bind cell fun _ => pure

theorem sharing : Tame (HeapM.sharing h) := bind refCount fun _ => bind get fun _ => pure

theorem mayMutate : Tame (HeapM.mayMutate h) := bind sharing fun _ => pure

theorem weakFields : Tame (HeapM.weakFields h) := by
  refine bind payload fun p => ?_
  cases p
  all_goals exact pure

theorem isCachedString : Tame (HeapM.isCachedString h) := by
  refine bind kind fun k => ?_
  split
  · exact bind flags fun _ => pure
  · exact pure

theorem ask {q : Session.Query} : Tame (Session.ask q h) := by
  cases q
  case isLive => exact bind isLive fun _ => pure
  case kind => exact bind kind fun _ => pure
  case generation => exact bind generation fun _ => pure
  case flags => exact bind flags fun _ => pure
  case attrib => exact bind attrib fun _ => pure
  case length => exact bind length fun _ => pure
  case car => exact bind car fun _ => pure
  case cdr => exact bind cdr fun _ => pure
  case tag => exact bind tag fun _ => pure
  case listLength => exact bind listLength fun _ => pure
  case charBytes => exact bind charBytes fun _ => pure
  case encoding => exact bind encoding fun _ => pure
  case isCachedString => exact bind isCachedString fun _ => pure
  case realData => exact bind realData fun _ => pure
  case integerData => exact bind integerData fun _ => pure
  case rawData => exact bind rawData fun _ => pure
  case closureParts => exact bind closureParts fun _ => pure
  case envEnclos => exact bind envEnclos fun _ => pure
  case promiseValue => exact bind promiseValue fun _ => pure
  case externalAddress => exact bind externalAddress fun _ => pure
  case inspect => exact bind cell fun _ => pure
  case refCount => exact bind refCount fun _ => pure
  case sharing => exact bind sharing fun _ => pure
  case mayMutate => exact bind mayMutate fun _ => pure
  case symbolName => exact bind symbolName fun _ => pure
  case symbolValue => exact bind symbolValue fun _ => pure
  case symbolLookupCache => exact bind symbolLookupCache fun _ => pure
  case weakRefKey => exact bind (bind weakFields fun _ => pure) fun _ => pure
  case weakRefValue => exact bind (bind weakFields fun _ => pure) fun _ => pure
  case heldByTask => exact bind get fun _ => pure

/-! Frames of environments. -/

theorem searchFrame {sym : Handle} (fuel : Nat) (cursor : Handle) :
    Tame (HeapM.searchFrame sym cursor fuel) := by
  induction fuel generalizing cursor with
  | zero => exact throw ⟨fun _ => nofun, id⟩
  | succ fuel ih =>
    unfold HeapM.searchFrame
    split
    · exact pure
    · refine bind tag fun t => ?_
      split
      · exact pure
      · exact bind cdr fun next => ih next

theorem frameBinding {env sym : Handle} : Tame (HeapM.frameBinding env sym) :=
  bind envFrame fun frame => bind walkBound fun fuel => searchFrame fuel frame

theorem findVarInFrame {env sym : Handle} : Tame (HeapM.findVarInFrame env sym) := by
  refine bind frameBinding fun found => ?_
  cases found with
  | none => exact pure
  | some c => exact bind car fun _ => pure

theorem findVar {env sym : Handle} : Tame (HeapM.findVar env sym) := by
  have hsearch : ∀ fuel env, Tame (HeapM.searchEnvironments sym env fuel) := by
    intro fuel
    induction fuel with
    | zero => exact fun _ => throw ⟨fun _ => nofun, id⟩
    | succ fuel ih =>
      intro env
      unfold HeapM.searchEnvironments
      split
      · exact bind symbolValue fun _ => pure
      · refine bind findVarInFrame fun found => ?_
        cases found with
        | none => exact bind envEnclos fun outer => ih outer
        | some value => exact bind updateCell fun _ => pure
  exact bind walkBound fun fuel => hsearch fuel env

/-! Writes. -/

theorem noteWrite : Tame (HeapM.noteWrite h) := by
  refine bind updateCell fun _ => bind cell fun c => ?_
  dsimp only
  split
  · exact bind updateCell fun _ => modify
  · exact pure

theorem incrementRefCount : Tame (HeapM.incrementRefCount h) := updateCell

theorem decrementRefCount : Tame (HeapM.decrementRefCount h) := updateCell

theorem replaceReference {old : Handle} : Tame (HeapM.replaceReference old value) := by
  unfold HeapM.replaceReference
  split
  · exact pure
  · refine bind incrementRefCount fun _ => bind isLive fun live => ?_
    split
    · exact decrementRefCount
    · exact pure

theorem exchange {expected : Shape} {f : Payload → Option (α × Payload)} :
    Tame (HeapM.exchange h expected f) := by
  refine bind noteWrite fun _ => bind payload fun p => ?_
  split
  · exact bind updateCell fun _ => pure
  · exact wrongKind

theorem setCar : Tame (HeapM.setCar h value) := bind exchange fun _ => replaceReference

theorem setCdr : Tame (HeapM.setCdr h value) := bind exchange fun _ => replaceReference

theorem setTag : Tame (HeapM.setTag h value) := bind exchange fun _ => replaceReference

theorem setFrame : Tame (HeapM.setFrame h value) := bind exchange fun _ => replaceReference

theorem setSymbolValue : Tame (HeapM.setSymbolValue h value) :=
  bind exchange fun _ => replaceReference

theorem setPromiseValue : Tame (HeapM.setPromiseValue h value) :=
  bind exchange fun _ => bind replaceReference fun _ => replaceReference

theorem setVectorElt {i : Nat} : Tame (HeapM.setVectorElt h i value) := by
  refine bind noteWrite fun _ => bind vectorElt fun old => ?_
  cases old with
  | error e => exact pure
  | ok old => exact bind updateCell fun _ => bind replaceReference fun _ => pure

theorem setAttrib : Tame (HeapM.setAttrib h value) := by
  refine bind flags fun fs => ?_
  have hend : Tame (do
      HeapM.noteWrite h
      let old := (← HeapM.cell h).attrib
      HeapM.updateCell h fun c => { c with attrib := value }
      HeapM.replaceReference old value : HeapM Unit) :=
    bind noteWrite fun _ => bind cell fun _ => bind updateCell fun _ => replaceReference
  split
  · exact bind (throw ⟨fun _ => nofun, id⟩) fun _ => hend
  · exact hend

theorem setObjectBit {b : Bool} : Tame (HeapM.setObjectBit h b) := updateCell

theorem setRealData {values : Array Float} : Tame (HeapM.setRealData h values) := by
  refine bind updateCell fun _ => bind payload fun p => ?_
  split
  · exact bind updateCell fun _ => pure
  · exact throw ⟨fun _ => nofun, id⟩

theorem setIntegerData {values : Array Int32} : Tame (HeapM.setIntegerData h values) := by
  refine bind updateCell fun _ => bind payload fun p => ?_
  split
  · exact bind updateCell fun _ => pure
  · exact bind updateCell fun _ => pure
  · exact throw ⟨fun _ => nofun, id⟩

theorem setRawData {values : Bytes} : Tame (HeapM.setRawData h values) := by
  refine bind noteWrite fun _ => bind payload fun p => ?_
  split
  · exact bind updateCell fun _ => pure
  · exact pure

theorem touch : Tame (HeapM.touch h) := bind noteWrite fun _ => length

theorem removeVar {env sym : Handle} : Tame (HeapM.removeVar env sym) := by
  have hunbind : ∀ fuel previous cursor,
      Tame (HeapM.unbindFrom env sym previous cursor fuel) := by
    intro fuel
    induction fuel with
    | zero => exact fun _ _ => throw ⟨fun _ => nofun, id⟩
    | succ fuel ih =>
      intro previous cursor
      unfold HeapM.unbindFrom
      split
      · exact pure
      · refine bind cdr fun next => bind tag fun t => ?_
        have hend : Tame (do
            HeapM.decrementRefCount (← HeapM.car cursor)
            return true : HeapM Bool) :=
          bind car fun _ => bind decrementRefCount fun _ => pure
        split
        · split
          · exact bind setFrame fun _ => hend
          · exact bind setCdr fun _ => hend
        · exact ih cursor next
  exact bind envFrame fun frame => bind walkBound fun fuel => hunbind fuel .nil frame

/-! Allocation. -/

theorem claimCell? {c : NodeClass} {kind : Kind} {p : Payload} {chunks : Nat} :
    Tame (HeapM.claimCell? c kind p chunks) := by
  refine bind (onArena fun a e he => ?_) fun claimed => ?_
  · split at he <;> cases he
  · split
    · exact bind modify fun _ => pure
    · exact pure

theorem allocateFast {kind : Kind} {length : Nat} : Tame (HeapM.allocateFast kind length) := by
  refine bind get fun heap => ?_
  dsimp only
  split
  · exact pure
  · split
    · exact pure
    · exact bind claimCell? fun _ => pure

theorem grow {c : NodeClass} : Tame (HeapM.grow c) := by
  refine bind get fun heap => ?_
  dsimp only
  split
  all_goals
    split
    · exact pure
    refine bind (onArena fun a e he => ?_) fun added => ?_
    · split at he <;> cases he
    · cases added with
      | some index => exact bind modify fun _ => pure
      | none => exact pure

theorem takeOrGrow {kind : Kind} {length : Nat} {reserved : Bool} :
    Tame (HeapM.takeOrGrow kind length reserved) := by
  refine bind get fun heap => ?_
  dsimp only
  repeat' split
  all_goals first
    | exact pure
    | refine bind (by first | exact pure | exact grow) fun room => ?_
      split
      · exact pure
      · refine bind claimCell? fun claimed => ?_
        cases claimed <;> exact pure

theorem collectionDue {kind : Kind} {length : Nat} : Tame (HeapM.collectionDue kind length) := by
  refine bind get fun heap => ?_
  split
  · exact pure
  · exact pure

theorem setPayload {p : Payload} : Tame (HostM.setPayload h p) := updateCell

theorem countReferences (hs : List Handle) : Tame (HostM.countReferences hs) := by
  induction hs with
  | nil => exact pure
  | cons h hs ih => exact bind incrementRefCount fun _ => ih

/-! Strings and symbols. -/

theorem findCached {bytes : Bytes} {encoding : Encoding} {hash : UInt32} :
    Tame (HeapM.findCached bytes encoding hash) := by
  have hsearch : ∀ fuel cursor, Tame (HeapM.searchChain bytes encoding hash cursor fuel) := by
    intro fuel
    induction fuel with
    | zero => exact fun _ => throw ⟨fun _ => nofun, id⟩
    | succ fuel ih =>
      intro cursor
      unfold HeapM.searchChain
      split
      · exact pure
      · refine bind cell fun c => ?_
        split
        · split
          · exact pure
          · exact ih c.attrib
        · exact ih c.attrib
  exact bind get fun _ => bind walkBound fun fuel => hsearch fuel _

theorem cachedHash : Tame (HeapM.cachedHash h) := by
  refine bind payload fun p => ?_
  cases p
  all_goals first | exact pure | exact wrongKind

theorem linkString {hash : UInt32} : Tame (HeapM.linkString h hash) :=
  bind get fun _ => bind updateCell fun _ => modify

theorem growStrings : Tame HeapM.growStrings := by
  have hchain : ∀ fuel cursor, Tame (HeapM.relinkChain cursor fuel) := by
    intro fuel
    induction fuel with
    | zero => exact fun _ => throw ⟨fun _ => nofun, id⟩
    | succ fuel ih =>
      intro cursor
      unfold HeapM.relinkChain
      split
      · exact pure
      · exact bind cell fun c => bind cachedHash fun _ => bind linkString fun _ => ih c.attrib
  have hchains : ∀ fuel heads, Tame (HeapM.relinkChains fuel heads) := by
    intro fuel heads
    induction heads with
    | nil => exact pure
    | cons head heads ih => exact bind (hchain fuel head) fun _ => ih
  exact bind get fun _ => bind modify fun _ => bind walkBound fun fuel => bind (hchains fuel _)
    fun _ => modify

theorem cacheString {bytes : Bytes} {encoding : Encoding} {hash : UInt32} {ascii : Bool} :
    Tame (HeapM.cacheString h bytes encoding hash ascii) := by
  refine bind updateCell fun _ => bind get fun heap => ?_
  have hlink : Tame (do
      HeapM.linkString h hash
      HeapM.modifyStrings fun strings => { strings with entries := strings.entries + 1 } :
        HeapM Unit) := bind linkString fun _ => modify
  split
  · exact bind growStrings fun _ => hlink
  · exact hlink

theorem nameSymbol {sym name : Handle} : Tame (HeapM.nameSymbol sym name) :=
  bind updateCell fun _ => updateCell

/-! Parts of collections. -/

theorem clearLookupCaches (hs : List Handle) : Tame (HeapM.clearLookupCaches hs) := by
  induction hs with
  | nil => exact pure
  | cons h hs ih => exact bind updateCell fun _ => ih

theorem pruneRemembered (hs : List Handle) : Tame (HeapM.pruneRemembered hs) := by
  induction hs with
  | nil => exact pure
  | cons h hs ih =>
    rw [HeapM.pruneRemembered]
    refine bind get fun heap => ?_
    split
    · exact ih
    · split
      · exact bind ih fun _ => pure
      · exact bind updateCell fun _ => ih

/-! What is kept, and what tasks do. -/

theorem linkWeakRef {key finalizer : Handle} {onExit : Bool} :
    Tame (HeapM.linkWeakRef h key value finalizer onExit) := by
  refine bind get fun heap => bind updateCell fun _ => ?_
  split
  · exact bind updateCell fun _ => modify
  · exact modify

theorem flagOnExit (rs : List Handle) : Tame (HeapM.flagOnExit rs) := by
  induction rs with
  | nil => exact pure
  | cons r rs ih => exact bind updateCell fun _ => ih

theorem pushRoot : Tame (HeapM.pushRoot h) := by
  refine bind (onProtect fun p e he => ?_) fun result => ?_
  · unfold ProtectStack.push at he
    split at he
    · cases he
    · split at he
      · cases he
      · obtain rfl := Except.error.inj he
        exact ⟨fun _ => nofun, id⟩
  · split
    · exact bind modify fun _ => pure
    · exact pure

theorem popRoots {n : Nat} : Tame (HeapM.popRoots n) := by
  refine onProtect fun p e he => ?_
  unfold ProtectStack.pop at he
  split at he
  · obtain rfl := Except.error.inj he
    exact ⟨fun _ => nofun, id⟩
  · cases he

theorem reprotect {i : Nat} : Tame (HeapM.reprotect h i) := by
  refine onProtect fun p e he => ?_
  unfold ProtectStack.reprotect at he
  split at he
  · cases he
  · obtain rfl := Except.error.inj he
    exact ⟨fun _ => nofun, id⟩

theorem protectDepth : Tame HeapM.protectDepth := bind get fun _ => pure

theorem closeScope {base : Nat} : Tame (HeapM.closeScope base) := by
  refine bind protectDepth fun depth => ?_
  split
  · exact bind (throw ⟨fun _ => nofun, id⟩) fun _ => modify
  · exact modify

theorem enterRecovery : Tame HeapM.enterRecovery := bind get fun _ => pure

theorem leaveRecovery {scope : RecoveryScope} : Tame (HeapM.leaveRecovery scope) := by
  refine bind enterRecovery fun now => ?_
  split
  · exact bind (throw ⟨fun _ => nofun, id⟩) fun _ => bind modify fun _ => bind modify fun _ => pure
  · exact bind modify fun _ => bind modify fun _ => pure

theorem awaitOutput : Tame (HeapM.awaitOutput h) := by
  refine bind get fun heap => ?_
  split
  · exact modify
  · exact pure

theorem task {a : Session.TaskAction} : Tame (Session.task a h) :=
  bind modify fun _ => bind get fun _ => pure

end Tame

end ManagedHeap
