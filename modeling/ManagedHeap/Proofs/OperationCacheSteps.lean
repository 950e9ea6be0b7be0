import ManagedHeap.Proofs.CacheSteps
import ManagedHeap.Proofs.FinalizerWeakRuns

/-!
# Operations as cache steps

Every operation on the heap alone keeps to the rules: it is a sequence of cache steps. Most
only change objects in place; a fresh object may be filled, and an allocation claims one.
-/

namespace ManagedHeap

namespace Payload

def ReplacesPayload (p q : Payload) : Prop :=
  q = p ∨ (p.isText = false ∧ q.isText = false ∧ q.name? = p.name?)

theorem name?_of_forKind? {kind : Kind} {length : Nat} {payload : Payload} {name : Handle}
    (hp : forKind? kind length = some payload) (hname : payload.name? = some name) :
    name = .nil := by
  unfold name? at hname
  split at hname
  · rw [Option.some.injEq] at hname
    exact hname ▸ name_of_forKind? hp rfl
  · exact nomatch hname

theorem replacesPayload_relinked (next : Handle) (p : Payload) : p.ReplacesPayload (p.relinked next) := by
  cases p
  case weakRef => exact .inr ⟨rfl, rfl, rfl⟩
  all_goals exact .inl rfl

theorem replacesPayload_foundIn (env : Handle) (p : Payload) : p.ReplacesPayload (p.foundIn env) := by
  cases p
  case symbol => exact .inr ⟨rfl, rfl, rfl⟩
  all_goals exact .inl rfl

end Payload

theorem Cell.Edits.redraft {c : Cell} {p : Payload} (hp : c.payload.ReplacesPayload p) :
    c.Edits { c with payload := p } := by
  rcases hp with rfl | ⟨hc, hp, hname⟩
  · exact .id
  · exact .payload hc hp fun h _ => hname.trans h

namespace Heap.Blank

variable {heap : Heap} {kind : Kind} {h : Handle}

theorem fresh (hb : heap.Blank kind h) : heap.Fresh kind h := by
  obtain ⟨length, payload, -, hc⟩ := hb
  exact ⟨_, hc, rfl⟩

theorem edits {c : Cell} {p : Payload} (hb : heap.Blank kind h) (hc : heap.arena.get? h = some c) :
    c.Edits { c with payload := p } := by
  obtain ⟨length, payload, hpayload, hblank⟩ := hb
  rw [hc, Option.some.injEq] at hblank
  subst hblank
  exact .fill rfl fun hname => Payload.name?_of_forKind? hpayload hname

end Heap.Blank

namespace HeapM

open Arena

variable {α β : Type} {r : CacheRules} {pins : List Handle} {heap heap' : Heap} {x act : HeapM α}
  {g : α → HeapM β} {h value old : Handle} {f : Cell → Cell}

def ByCacheSteps (r : CacheRules) (pins : List Handle) (act : HeapM α) : Prop :=
  ∀ heap a heap', act.run heap = .ok (a, heap') → heap.CacheSteps r pins heap'

namespace ByCacheSteps

theorem bind (hx : ByCacheSteps r pins x) (hg : ∀ a, ByCacheSteps r pins (g a)) : ByCacheSteps r pins (x >>= g) := by
  intro heap b heap' hrun
  obtain ⟨a, mid, hfirst, hrest⟩ := run_bind.mp hrun
  exact (hx heap a mid hfirst).trans (hg a mid b heap' hrest)

theorem of_reads (hx : Reads x) : ByCacheSteps r pins x := by
  intro heap a heap' hrun
  obtain rfl := hx heap a heap' hrun
  exact .refl

theorem pure {a : α} : ByCacheSteps r pins (pure a) := of_reads .pure

theorem throw {e : Fault} : ByCacheSteps r pins (throw e : HeapM α) := of_reads .throw

theorem modify {f : Heap → Heap} (hbeside : ∀ heap : Heap, heap.Beside (f heap))
    (htransient : ∀ heap, (f heap).roots.transient = heap.roots.transient) :
    ByCacheSteps r pins (modify f) := by
  intro heap u heap' hrun
  obtain rfl := run_modify.mp hrun
  refine .single (.aside (hbeside heap) fun hpins => ?_)
  rwa [Heap.PinsAll, Heap.pinned, htransient]

theorem note {e : Event} : ByCacheSteps r pins (note e) :=
  modify (fun _ => ⟨fun _ => rfl, rfl, rfl, rfl, List.prefix_refl _⟩) fun _ => rfl

theorem modifyRoots {f : RootSet → RootSet} (hf : ∀ r, (f r).transient = r.transient) :
    ByCacheSteps r pins (modifyRoots f) :=
  modify (fun _ => ⟨fun _ => rfl, rfl, rfl, rfl, List.prefix_refl _⟩) fun _ => hf _

theorem modifyFinalizers {f : FinalizerState → FinalizerState} :
    ByCacheSteps r pins (modifyFinalizers f) :=
  modify (fun _ => ⟨fun _ => rfl, rfl, rfl, rfl, List.prefix_refl _⟩) fun _ => rfl

theorem noteCall {record function key : Handle} : ByCacheSteps r pins (noteCall record function key) :=
  modify (fun _ => ⟨fun _ => rfl, rfl, rfl, rfl, ⟨_, Journal.toList_record.symm⟩⟩) fun _ => rfl

theorem countRun : ByCacheSteps r pins countRun :=
  modify (fun _ => ⟨fun _ => rfl, rfl, rfl, rfl, ⟨_, Journal.toList_record.symm⟩⟩) fun _ => rfl

theorem onProtect {f : ProtectStack → Except Fault (α × ProtectStack)} :
    ByCacheSteps r pins (onProtect f) := by
  intro heap a heap' hrun
  simp only [HeapM.onProtect, StateT.run] at hrun
  split at hrun
  · rw [Except.ok.injEq, Prod.mk.injEq] at hrun
    obtain ⟨-, rfl⟩ := hrun
    exact .single (.aside ⟨fun _ => rfl, rfl, rfl, rfl, List.prefix_refl _⟩ id)
  · cases hrun

theorem edit {u : PUnit} (hf : ∀ c, heap.arena.get? h = some c → c.Edits (f c))
    (hrun : (HeapM.updateCell h f).run heap = .ok (u, heap')) : heap.CacheSteps r pins heap' := by
  obtain ⟨⟨c, hc⟩, rfl⟩ := run_updateCell.mp hrun
  exact .single (.edit hc (hf c hc))

theorem updateCell (hf : ∀ c : Cell, c.Edits (f c)) : ByCacheSteps r pins (updateCell h f) :=
  fun _ _ _ hrun => edit (fun c _ => hf c) hrun

theorem payload_bind {k : Payload → HeapM β} (hk : ∀ p heap c b heap',
      heap.arena.get? h = some c → c.payload = p → (k p).run heap = .ok (b, heap') →
      heap.CacheSteps r pins heap') : ByCacheSteps r pins (payload h >>= k) := by
  intro heap b heap' hrun
  obtain ⟨p, mid, hread, hrest⟩ := run_bind.mp hrun
  obtain ⟨c, hc, hp, rfl⟩ := run_payload.mp hread
  exact hk p heap c b heap' hc hp hrest

theorem noteWrite : ByCacheSteps r pins (noteWrite h) := by
  refine bind (updateCell fun _ => .id) fun _ => bind (of_reads .cell) fun c => ?_
  dsimp only
  split
  · refine bind (updateCell fun _ => .mapFlags rfl id rfl) fun _ => ?_
    exact modify (fun _ => ⟨fun _ => rfl, rfl, rfl, rfl, List.prefix_refl _⟩) fun _ => rfl
  · exact pure

theorem incrementRefCount : ByCacheSteps r pins (incrementRefCount h) :=
  updateCell fun _ => .mapRefCount rfl

theorem decrementRefCount : ByCacheSteps r pins (decrementRefCount h) :=
  updateCell fun _ => .mapRefCount rfl

theorem countReferences (hs : List Handle) : ByCacheSteps r pins (HostM.countReferences hs) := by
  induction hs with
  | nil => exact pure
  | cons h hs ih => exact bind incrementRefCount fun _ => ih

theorem replaceReference : ByCacheSteps r pins (replaceReference old value) := by
  unfold HeapM.replaceReference
  split
  · exact pure
  · refine bind incrementRefCount fun _ => bind (of_reads .isLive) fun live => ?_
    split
    · exact decrementRefCount
    · exact pure

theorem rewrite_bind {c : Cell} {p : Payload} {b b' : β} (hc : heap.arena.get? h = some c)
    (hp : c.payload.ReplacesPayload p)
    (hrun : (do
      HeapM.updateCell h fun c => { c with payload := p }
      return b').run heap = .ok (b, heap')) : heap.CacheSteps r pins heap' := by
  obtain ⟨_, mid, hupdate, hrest⟩ := run_bind.mp hrun
  obtain ⟨-, rfl⟩ := run_pure.mp hrest
  refine edit (fun d hd => ?_) hupdate
  rw [hc, Option.some.injEq] at hd
  exact hd ▸ .redraft hp

theorem exchange {expected : Shape} {k : Payload → Option (α × Payload)}
    (hk : ∀ p a q, k p = some (a, q) → p.ReplacesPayload q) : ByCacheSteps r pins (exchange h expected k) := by
  refine bind noteWrite fun _ => payload_bind ?_
  rintro p heap c b heap' hc rfl hrun
  split at hrun
  · rename_i a q hpq
    exact rewrite_bind hc (hk _ _ _ hpq) hrun
  · exact (run_wrongKind.mp hrun).elim

theorem swap {expected : Shape} {k : Payload → Option (Handle × Payload)}
    (hk : ∀ p a q, k p = some (a, q) → p.ReplacesPayload q) : ByCacheSteps r pins (do
      let old ← HeapM.exchange h expected k
      HeapM.replaceReference old value) :=
  bind (exchange hk) fun _ => replaceReference

theorem setCar : ByCacheSteps r pins (setCar h value) :=
  swap fun p a q hpq => by
    cases p <;> cases hpq
    exact .inr ⟨rfl, rfl, rfl⟩

theorem setCdr : ByCacheSteps r pins (setCdr h value) :=
  swap fun p a q hpq => by
    cases p <;> cases hpq
    exact .inr ⟨rfl, rfl, rfl⟩

theorem setTag : ByCacheSteps r pins (setTag h value) :=
  swap fun p a q hpq => by
    cases p <;> cases hpq
    exact .inr ⟨rfl, rfl, rfl⟩

theorem setFrame : ByCacheSteps r pins (setFrame h value) :=
  swap fun p a q hpq => by
    cases p <;> cases hpq
    exact .inr ⟨rfl, rfl, rfl⟩

theorem setSymbolValue : ByCacheSteps r pins (setSymbolValue h value) :=
  swap fun p a q hpq => by
    cases p <;> cases hpq
    exact .inr ⟨rfl, rfl, rfl⟩

theorem setPromiseValue : ByCacheSteps r pins (setPromiseValue h value) := by
  refine bind (exchange fun p a q hpq => ?_) fun _ =>
    bind replaceReference fun _ => replaceReference
  cases p <;> cases hpq
  exact .inr ⟨rfl, rfl, rfl⟩

theorem setVectorElt {i : Nat} : ByCacheSteps r pins (setVectorElt h i value) := by
  refine bind noteWrite fun _ => bind (of_reads .vectorElt) fun read => ?_
  cases read with
  | error e => exact pure
  | ok old =>
    refine bind (x := HeapM.updateCell h (Cell.putElement i value)) (updateCell fun c => ?_)
      fun _ => bind replaceReference fun _ => pure
    rw [Cell.putElement_eq]
    refine .redraft ?_
    cases c.payload
    case handles => exact .inr ⟨rfl, rfl, rfl⟩
    all_goals exact .inl rfl

theorem setAttrib : ByCacheSteps r pins (setAttrib h value) := by
  intro heap u heap' hrun
  simp only [HeapM.setAttrib, run_bind, run_flags] at hrun
  obtain ⟨_, _, ⟨c₀, hc₀, rfl, rfl⟩, hrun⟩ := hrun
  split at hrun
  · simp only [run_bind, run_throw, false_and, exists_false] at hrun
  · rename_i huncached
    rw [Bool.not_eq_true] at huncached
    simp only [run_bind, run_cell] at hrun
    obtain ⟨_, mid, hnote, c, _, ⟨hc, rfl⟩, _, next, hput, hreplace⟩ := hrun
    have hedit : mid.CacheSteps r pins next := by
      refine edit (fun d hd => ?_) hput
      rw [hc, Option.some.injEq] at hd
      subst hd
      exact .attrib ((cached_noteWrite hc₀ hc hnote).trans huncached)
    exact (noteWrite _ _ _ hnote).trans (hedit.trans (replaceReference _ _ _ hreplace))

theorem setObjectBit {b : Bool} : ByCacheSteps r pins (setObjectBit h b) :=
  updateCell fun _ => .mapFlags rfl id rfl

theorem touch : ByCacheSteps r pins (touch h) := bind noteWrite fun _ => of_reads .length

theorem setRealData {values : Array Float} : ByCacheSteps r pins (setRealData h values) := by
  refine bind (updateCell fun _ => .id) fun _ => payload_bind ?_
  rintro p heap c b heap' hc hp hrun
  cases p
  case real elements => exact rewrite_bind hc (by rw [hp]; exact .inr ⟨rfl, rfl, rfl⟩) hrun
  all_goals exact (run_throw.mp hrun).elim

theorem setIntegerData {values : Array Int32} : ByCacheSteps r pins (setIntegerData h values) := by
  refine bind (updateCell fun _ => .id) fun _ => payload_bind ?_
  rintro p heap c b heap' hc hp hrun
  cases p
  case integer elements | logical elements =>
    exact rewrite_bind hc (by rw [hp]; exact .inr ⟨rfl, rfl, rfl⟩) hrun
  all_goals exact (run_throw.mp hrun).elim

theorem setRawData {values : Bytes} : ByCacheSteps r pins (setRawData h values) := by
  refine bind noteWrite fun _ => payload_bind ?_
  rintro p heap c b heap' hc hp hrun
  cases p
  case raw elements => exact rewrite_bind hc (by rw [hp]; exact .inr ⟨rfl, rfl, rfl⟩) hrun
  all_goals
    obtain ⟨-, rfl⟩ := run_pure.mp hrun
    exact .refl

theorem findVar {env sym : Handle} : ByCacheSteps r pins (findVar env sym) := by
  refine bind (of_reads .walkBound) fun fuel => ?_
  induction fuel generalizing env with
  | zero => exact throw
  | succ fuel ih =>
    unfold HeapM.searchEnvironments
    split
    · exact bind (of_reads .symbolValue) fun base => pure
    · refine bind (of_reads .findVarInFrame) fun found => ?_
      cases found with
      | none => exact bind (of_reads .envEnclos) fun outer => ih
      | some value =>
        refine bind (x := HeapM.updateCell sym (Cell.foundIn env)) (updateCell fun c => ?_)
          fun _ => pure
        rw [Cell.foundIn_eq]
        exact .redraft (Payload.replacesPayload_foundIn env c.payload)

theorem removeVar {env sym : Handle} : ByCacheSteps r pins (removeVar env sym) := by
  refine bind (of_reads .envFrame) fun frame => bind (of_reads .walkBound) fun fuel => ?_
  generalize Handle.nil = previous
  induction fuel generalizing previous frame with
  | zero => exact throw
  | succ fuel ih =>
    unfold HeapM.unbindFrom
    split
    · exact pure
    · refine bind (of_reads .cdr) fun next => bind (of_reads .tag) fun t => ?_
      have hend : ByCacheSteps r pins (do
          HeapM.decrementRefCount (← car frame)
          return true) :=
        bind (of_reads .car) fun old => bind decrementRefCount fun _ => pure
      split
      · split
        · exact bind setFrame fun _ => hend
        · exact bind setCdr fun _ => hend
      · exact ih next frame

theorem pushRoot : ByCacheSteps r pins (pushRoot h) := by
  refine bind onProtect fun result => ?_
  split
  · exact bind note fun _ => pure
  · exact pure

theorem popRoots {n : Nat} : ByCacheSteps r pins (popRoots n) := onProtect

theorem reprotect {i : Nat} : ByCacheSteps r pins (reprotect h i) := onProtect

theorem closeScope {base : Nat} : ByCacheSteps r pins (closeScope base) := by
  refine bind (of_reads .protectDepth) fun depth => ?_
  have hcut : ByCacheSteps r pins (MonadState.modifyGet fun heap : Heap =>
      (PUnit.unit, { heap with protect := heap.protect.truncate base })) :=
    modify (fun _ => ⟨fun _ => rfl, rfl, rfl, rfl, List.prefix_refl _⟩) fun _ => rfl
  split
  · exact bind throw fun _ => hcut
  · exact hcut

theorem flagOnExit (records : List Handle) : ByCacheSteps r pins (flagOnExit records) := by
  induction records with
  | nil => exact pure
  | cons record records ih => exact bind (updateCell fun _ => .mapFlags rfl id rfl) fun _ => ih

theorem awaitOutput : ByCacheSteps r pins (awaitOutput h) := by
  refine bind (of_reads .get) fun heap => ?_
  split
  · exact modify (fun _ => ⟨fun _ => rfl, rfl, rfl, rfl, List.prefix_refl _⟩) fun _ => rfl
  · exact pure

theorem task {a : Session.TaskAction} : ByCacheSteps r pins (Session.task a h) :=
  bind (modify (fun _ => ⟨fun _ => rfl, rfl, rfl, rfl, List.prefix_refl _⟩) fun _ => rfl) fun _ =>
    bind (of_reads .get) fun _ => pure

theorem leaveRecovery {scope : RecoveryScope} (hscope : pins.length ≤ scope.transient) :
    ByCacheSteps r pins (leaveRecovery scope) := by
  intro heap changed heap' hrun
  obtain ⟨-, -, hcut, -⟩ := cuts_leaveRecovery hrun
  simp only [HeapM.leaveRecovery, run_bind] at hrun
  obtain ⟨now, _, henter, hrun⟩ := hrun
  obtain rfl := Reads.enterRecovery _ _ _ henter
  split at hrun
  · simp only [run_bind, run_throw, false_and, exists_false] at hrun
  · simp only [HeapM.modifyRoots, run_bind, run_modify, run_pure] at hrun
    obtain ⟨_, _, rfl, _, _, rfl, -, rfl⟩ := hrun
    refine .single (.aside ⟨fun _ => rfl, rfl, rfl, rfl, ⟨_, Journal.toList_record.symm⟩⟩ fun hpins => ?_)
    rw [Heap.PinsAll, hcut]
    exact List.prefix_take_iff.mpr ⟨hpins, hscope⟩

theorem setScheduler {scheduler : Scheduler} : ByCacheSteps r pins
    (MonadState.modifyGet fun heap : Heap =>
      (PUnit.unit, { heap with tasks := { heap.tasks with scheduler } })) :=
  modify (fun _ => ⟨fun _ => rfl, rfl, rfl, rfl, List.prefix_refl _⟩) fun _ => rfl

end ByCacheSteps

end HeapM

namespace Heap

/-- The cache is exact, and operations under way keep these handles. -/
structure Guards (heap : Heap) (pins : List Handle) : Prop where
  cacheExact : heap.CacheExact
  pins : heap.PinsAll pins

theorem CacheExact.guards {heap : Heap} (hf : heap.CacheExact) : heap.Guards [] := ⟨hf, List.nil_prefix⟩

theorem CacheSteps.guards {r : CacheRules} {pins : List Handle} {heap heap' : Heap}
    (hm : heap.CacheSteps r pins heap') (hg : heap.Guards pins) : heap'.Guards pins :=
  ⟨hm.cacheExact hg.cacheExact, hm.pinned hg.cacheExact hg.pins⟩

def Fillable (heap : Heap) (h : Handle) : Prop :=
  ∃ c, heap.arena.get? h = some c ∧ c.flags.cached = false ∧
    ∀ {name}, c.payload.name? = some name → name = .nil

theorem Blank.fillable {heap : Heap} {kind : Kind} {h : Handle} (hb : heap.Blank kind h) :
    heap.Fillable h := by
  obtain ⟨length, payload, hp, hc⟩ := hb
  exact ⟨_, hc, rfl, Payload.name?_of_forKind? hp⟩

end Heap

namespace HeapM

open Arena

variable {α β : Type} {r : CacheRules} {pins : List Handle} {heap heap' : Heap} {x act : HeapM α}
  {f : α → HeapM β} {P P' : Heap → Prop} {Q Q' : α → Heap → Prop} {R : β → Heap → Prop}
  {h k record hint : Handle} {kind : Kind} {payload : Payload} {slots : List Handle}

def CacheTriple (r : CacheRules) (pins : List Handle) (P : Heap → Prop) (act : HeapM α)
    (Q : α → Heap → Prop) : Prop :=
  ∀ heap a heap', heap.Guards pins → P heap → act.run heap = .ok (a, heap') →
    heap.CacheSteps r pins heap' ∧ Q a heap'

namespace CacheTriple

theorem bind (hx : CacheTriple r pins P x Q) (hf : ∀ a, CacheTriple r pins (Q a) (f a) R) :
    CacheTriple r pins P (x >>= f) R := by
  intro heap b heap' hg hP hrun
  obtain ⟨a, mid, hfirst, hrest⟩ := run_bind.mp hrun
  obtain ⟨hmoves, hQ⟩ := hx heap a mid hg hP hfirst
  obtain ⟨hmoves', hR⟩ := hf a mid b heap' (hmoves.guards hg) hQ hrest
  exact ⟨hmoves.trans hmoves', hR⟩

theorem of_byCacheSteps (hspec : Triple P act Q) (hbyCacheSteps : ByCacheSteps r pins act) : CacheTriple r pins P act Q :=
  fun heap a heap' _ hP hrun => ⟨hbyCacheSteps heap a heap' hrun, hspec heap a heap' hP hrun⟩

theorem of_reads (hreads : Reads act) (h : ∀ heap a, P heap → Q a heap) : CacheTriple r pins P act Q :=
  of_byCacheSteps (.of_reads hreads h) (.of_reads hreads)

theorem pure {a : α} (h : ∀ heap, P heap → Q a heap) : CacheTriple r pins P (pure a) Q :=
  of_byCacheSteps (.pure h) .pure

theorem conseq (hx : CacheTriple r pins P x Q) (hP : ∀ heap, P' heap → P heap)
    (hQ : ∀ a heap, Q a heap → Q' a heap) : CacheTriple r pins P' x Q' := by
  intro heap a heap' hg hstart hrun
  obtain ⟨hmoves, hend⟩ := hx heap a heap' hg (hP heap hstart) hrun
  exact ⟨hmoves, hQ a heap' hend⟩

theorem fill {Q : Unit → Heap → Prop} (hspec : Triple P (HostM.setPayload h payload) Q)
    (hfill : ∀ heap, P heap → heap.Fillable h) :
    CacheTriple r pins P (HostM.setPayload h payload) Q := by
  intro heap u heap' _ hP hrun
  refine ⟨ByCacheSteps.edit (fun c hc => ?_) hrun, hspec heap u heap' hP hrun⟩
  obtain ⟨d, hd, huncached, hname⟩ := hfill heap hP
  rw [hc, Option.some.injEq] at hd
  subst hd
  exact .fill huncached hname

theorem setPayload : CacheTriple r pins (fun heap => heap.Sound ∧ heap.Blank kind h)
    (HostM.setPayload h payload) fun _ heap => heap.Filled kind payload h :=
  .fill (setPayload_filled.conseq (fun _ hs => ⟨hs.1, hs.2.fresh⟩) fun _ _ => id)
    fun _ hs => hs.2.fillable

theorem countReferences (hfits : payload.Fits kind slots) :
    CacheTriple r pins (fun heap => heap.Filled kind payload h) (HostM.countReferences slots)
      fun _ => Heap.Sound :=
  .of_byCacheSteps (countReferences_filled hfits) (.countReferences slots)

theorem fillable_countReferences (hs : List Handle) :
    Triple (fun heap => heap.Fillable h) (HostM.countReferences hs) fun _ heap => heap.Fillable h := by
  induction hs with
  | nil => exact .pure fun _ => id
  | cons k ks ih =>
    refine .bind (Q := fun _ heap => heap.Fillable h) ?_ fun _ => ih
    rintro heap u heap' ⟨c, hc, hcached, hname⟩ hrun
    obtain ⟨-, rfl⟩ := run_updateCell.mp hrun
    by_cases hk : h = k
    · subst hk
      exact ⟨_, get?_setCell_self hc (get?_eq_some.mp hc).2, hcached, hname⟩
    · exact ⟨c, (get?_setCell_ne hk).trans hc, hcached, hname⟩

theorem countFirst : CacheTriple r pins (fun heap => heap.Sound ∧ heap.Blank kind h)
    (HostM.countReferences slots) fun _ heap => ((heap.Sound ∧ heap.Fresh kind h) ∧
      ∀ k ∈ slots, heap.arena.contains k = true) ∧ heap.Fillable h := by
  refine .of_byCacheSteps ?_ (.countReferences slots)
  intro heap u heap' hs hrun
  exact ⟨countReferences_fresh slots _ _ _ ⟨hs.1, hs.2.fresh⟩ hrun,
    fillable_countReferences slots _ _ _ hs.2.fillable hrun⟩

theorem fillCounted (hfits : payload.Fits kind slots) :
    CacheTriple r pins (fun heap => ((heap.Sound ∧ heap.Fresh kind h) ∧
      ∀ k ∈ slots, heap.arena.contains k = true) ∧ heap.Fillable h) (HostM.setPayload h payload)
      fun _ => Heap.Sound :=
  .fill ((setPayload_counted hfits).conseq (fun _ hs => hs.1) fun _ _ => id) fun _ hs => hs.2

theorem linkWeakRef {key value finalizer : Handle} {onExit : Bool} :
    CacheTriple r pins (fun heap => heap.Sound ∧ heap.Blank .weakRef h)
      (HeapM.linkWeakRef h key value finalizer onExit) fun _ => Heap.Sound := by
  rintro heap u heap' - ⟨hs, hb⟩ hrun
  refine ⟨?_, linkWeakRef_safe _ _ _ ⟨hs, hb.fresh⟩ hrun⟩
  obtain ⟨_, _, hget, hrest⟩ := run_bind.mp hrun
  obtain ⟨rfl, rfl⟩ := run_get.mp hget
  obtain ⟨_, mid, hfill, hlast⟩ := run_bind.mp hrest
  have hend : ByCacheSteps r pins (pushRecord h key value finalizer onExit) :=
    .modify (fun _ => ⟨fun _ => rfl, rfl, rfl, rfl, ⟨_, Journal.toList_record.symm⟩⟩) fun _ => rfl
  refine (ByCacheSteps.edit (fun c hc => hb.edits hc) hfill).trans ?_
  split at hlast
  · exact ByCacheSteps.bind (.updateCell fun _ => .mapFlags rfl id rfl) (fun _ => hend) _ _ _ hlast
  · exact hend _ _ _ hlast

theorem emptied : CacheTriple r pins (fun heap => heap.Sound ∧ heap.RecordAt h)
    (updateCell h Cell.emptied) fun _ => Heap.Sound := by
  rintro heap u heap' - ⟨hs, hat⟩ hrun
  refine ⟨ByCacheSteps.edit (fun c hc => ?_) hrun, empty_record _ _ _ ⟨hs, hat⟩ hrun⟩
  obtain ⟨d, hd, hsuits⟩ := hat
  rw [hc, Option.some.injEq] at hd
  subst hd
  have hrecord : c.payload.isText = false ∧ c.payload.name? = none := by
    cases hp : c.payload <;> rw [hp] at hsuits
    case weakRef => exact ⟨rfl, rfl⟩
    all_goals exact nomatch hsuits
  refine ⟨rfl, rfl, rfl, id, id, Cell.place?_congr rfl (fun _ => ?_) fun _ => rfl, fun hname => ?_⟩
  · exact (Cell.text?_of_not_isText rfl).trans (Cell.text?_of_not_isText hrecord.1).symm
  · exact nomatch hrecord.2.symm.trans hname

theorem unlinkWeakRef :
    CacheTriple r pins Heap.Sound (HeapM.unlinkWeakRef record hint) fun _ => Heap.Sound := by
  refine .bind (.of_byCacheSteps chainFields_record (.of_reads .chainFields)) fun fields => ?_
  refine .bind (Q := fun _ heap => heap.Sound ∧ heap.RecordAt record)
    (.of_reads .predecessor fun _ _ => id) fun previous => ?_
  refine .bind (Q := fun _ heap => heap.Sound ∧ heap.RecordAt record)
    (.of_reads .flags fun _ _ => id) fun fs => ?_
  have hend : CacheTriple r pins (fun heap => heap.Sound ∧ heap.RecordAt record)
      (HeapM.clearRecord record fs.readyToFinalize) fun _ => Heap.Sound := by
    refine .bind emptied fun _ => .of_byCacheSteps (Safe.modify (fun _ => rfl) (fun _ => rfl)
      (fun _ => rfl) (fun _ => rfl) fun _ => rfl) ?_
    exact .modify (fun _ => ⟨fun _ => rfl, rfl, rfl, rfl, ⟨_, Journal.toList_record.symm⟩⟩) fun _ => rfl
  dsimp only
  split
  · refine .bind (.of_byCacheSteps (.modify fun heap hs => ⟨hs.1.aside rfl rfl rfl rfl rfl, hs.2⟩) ?_)
      fun _ => hend
    exact .modify (fun _ => ⟨fun _ => rfl, rfl, rfl, rfl, List.prefix_refl _⟩) fun _ => rfl
  · refine .bind (.of_byCacheSteps relink_record (ByCacheSteps.updateCell (f := Cell.relinked fields.next)
      fun c => ?_)) fun _ => hend
    rw [Cell.relinked_eq]
    exact .redraft (Payload.replacesPayload_relinked fields.next c.payload)

theorem collect {level : Level} {reason : Reason} :
    CacheTriple r pins Heap.Sound (HeapM.collect level reason) fun _ => Heap.Sound :=
  fun heap o heap' _ hs hrun => ⟨.single (.collect hs hrun), Safe.collect heap o heap' hs hrun⟩

end CacheTriple

variable {length : Nat}

theorem beside_grow {n : NodeClass} {room : Bool} (hrun : (grow n).run heap = .ok (room, heap')) :
    heap.Beside heap' ∧ heap'.roots = heap.roots := by
  rcases grow_cases hrun with rfl | ⟨i, arena, event, hsegment, rfl⟩
  · exact ⟨.refl _, rfl⟩
  · exact ⟨⟨fun _ => get?_addSegment hsegment, rfl, rfl, rfl, List.prefix_refl _⟩, rfl⟩

theorem moves_claimCell? {n : NodeClass} {chunks : Nat} {claimed : Option Handle} (hs : heap.Sound)
    (hkind : kind ≠ .free) (hp : Payload.forKind? kind length = some payload)
    (hrun : (claimCell? n kind payload chunks).run heap = .ok (claimed, heap')) :
    heap.CacheSteps r pins heap' ∧ ∀ h, claimed = some h → heap'.Blank kind h := by
  rcases claimCell?_cases hrun with ⟨rfl, rfl⟩ | ⟨h, arena, generations, strategy, rfl, hclaim, rfl⟩
  · exact ⟨.refl, nofun⟩
  · obtain ⟨hdead, hcells⟩ := get?_claim hs.tidy hkind hclaim
    refine ⟨.single (.claim hp hdead hcells rfl rfl rfl rfl ⟨_, Journal.toList_record.symm⟩), ?_⟩
    rintro g hg
    obtain rfl := Option.some.inj hg
    exact ⟨length, payload, hp, (hcells h).trans (if_pos rfl)⟩

namespace CacheTriple

theorem takeOrGrow {reserved : Bool} (hkind : kind ≠ .free) :
    CacheTriple r pins Heap.Sound (HeapM.takeOrGrow kind length reserved) fun taken heap =>
      heap.Sound ∧ ∀ h, taken = .ok h → heap.Blank kind h := by
  intro heap taken heap' _ hs hrun
  have hsound := (run_takeOrGrow hs hkind hrun).1
  obtain ⟨mid, hgrow, hlast⟩ := takeOrGrow_cases hrun
  have hroom : heap.CacheSteps r pins mid ∧ mid.Sound := by
    rcases hgrow with rfl | ⟨room, hgrow⟩
    · exact ⟨.refl, hs⟩
    · obtain ⟨hbeside, hroots⟩ := beside_grow hgrow
      refine ⟨.single (.aside hbeside fun hpins => ?_), (run_grow hs hgrow).1⟩
      rwa [Heap.PinsAll, Heap.pinned, hroots]
  rcases hlast with ⟨⟨b, rfl⟩, rfl⟩ | ⟨payload, chunks, claimed, hp, hclaim, htaken⟩
  · exact ⟨hroom.1, hsound, by simp⟩
  · obtain ⟨hmoves, hblank⟩ := moves_claimCell? hroom.2 hkind hp hclaim
    refine ⟨hroom.1.trans hmoves, hsound, fun g hg => ?_⟩
    rcases htaken with ⟨-, rfl⟩ | ⟨h, rfl, rfl⟩
    · cases hg
    · exact hblank g (congrArg some (Except.ok.inj hg))

theorem allocateFast : CacheTriple r pins Heap.Sound (HeapM.allocateFast kind length) fun h heap =>
    heap.Sound ∧ (h = .noObject ∨ heap.Blank kind h) := by
  intro heap h heap' _ hs hrun
  have hsound := (run_allocateFast hs hrun).1
  rcases allocateFast_cases hrun with ⟨rfl, rfl⟩ | ⟨hkind, payload, claimed, hp, hclaim, rfl⟩
  · exact ⟨.refl, hsound, .inl rfl⟩
  · obtain ⟨hmoves, hblank⟩ := moves_claimCell? hs hkind hp hclaim
    refine ⟨hmoves, hsound, ?_⟩
    cases claimed with
    | none => exact .inl rfl
    | some h => exact .inr (hblank h rfl)

theorem escalate (hkind : kind ≠ .free) (levels : List Level) (reserved : Bool) :
    CacheTriple r pins Heap.Sound (HeapM.escalate kind length reserved levels) fun taken heap =>
      heap.Sound ∧ ∀ h, taken = .ok h → heap.Blank kind h := by
  induction levels generalizing reserved with
  | nil => exact .pure fun heap hs => ⟨hs, nofun⟩
  | cons level deeper ih =>
    refine .bind collect fun _ => .bind (takeOrGrow hkind) fun taken => ?_
    cases taken with
    | ok h => exact .pure fun heap hs => ⟨hs.1, fun g hg => hs.2 g (congrArg _ (Except.ok.inj hg))⟩
    | error reserved => exact (ih reserved).conseq (fun _ hs => hs.1) fun _ _ => id

end CacheTriple

end HeapM

end ManagedHeap
