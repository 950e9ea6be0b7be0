import ManagedHeap.Proofs.MemoryLimits
import ManagedHeap.Proofs.CountHistories
import ManagedHeap.Proofs.HostWeakRuns

/-!
# Operations make histories

What an operation does to a heap with a history goes on with that history: it comes down to
acts. An allocation answers an object with storage for what it was asked for, which is why a
constructor may fill it without a change of the accounts.
-/

namespace ManagedHeap

/-- The heap has a history. -/
def Heap.HasHistory (heap : Heap) : Prop := ∃ es, heap.Lived es

/-- The heap is sound and has a history. -/
def Heap.Traced (heap : Heap) : Prop := heap.Sound ∧ heap.HasHistory

/-- The heap has a history within its limits, and its counts have a history too. -/
def Heap.HasBoundedHistory (heap : Heap) : Prop :=
  heap.HasHistory ∧ heap.Contained ∧ heap.Recorded Heap.CountsKept

/-- The heap is sound, and it and its counts have a history. -/
def Heap.SoundWithHistory (heap : Heap) : Prop := heap.Sound ∧ heap.HasBoundedHistory

def Heap.OwesCounts (d : Handle → ℤ) (heap : Heap) : Prop :=
  ∃ start : Heap, start.HasBoundedHistory ∧ start.Amends heap ∧ Graph.Owes d start.graph heap.graph

namespace Heap.HasBoundedHistory

variable {heap heap' : Heap} {es : List Entry}

theorem of_born (hb : heap.Born) : heap.HasBoundedHistory := ⟨⟨[], heap, hb, .refl⟩, .born hb (.of_born hb), [], [], .new hb⟩

theorem lived (hs : heap.HasHistory) (ha : Act es heap heap') : heap'.HasHistory := by
  obtain ⟨past, start, hborn, hlives⟩ := hs
  exact ⟨past ++ es, start, hborn, hlives.tail ha⟩

theorem countersMatch (hs : heap.HasHistory) : heap.CountersMatch := by
  obtain ⟨past, start, hborn, hlives⟩ := hs
  exact hlives.countersMatch hborn.countersMatch

theorem contained (hc : heap.Contained) (hr : heap.Amends heap') : heap'.Contained :=
  hc.act hr.act hr.config (hc.bounded.amended hr)

theorem retouched (hs : heap.HasBoundedHistory) (hr : heap.Amends heap') (hsettles : heap.Settles heap') :
    heap'.HasBoundedHistory := by
  obtain ⟨hlived, hcontained, hrecorded⟩ := hs
  exact ⟨lived hlived hr.act, contained hcontained hr,
    hrecorded.settled ⟨hr.contains, hsettles⟩⟩

theorem grown {n : NodeClass} {room : Bool} (hs : heap.HasBoundedHistory)
    (hrun : (HeapM.grow n).run heap = .ok (room, heap')) : heap'.HasBoundedHistory := by
  obtain ⟨hlived, hcontained, hrecorded⟩ := hs
  have hcells := (HeapM.beside_grow hrun).1.cells
  obtain ⟨hconfig, -, hbounded⟩ := hcontained.bounded.grown hrun
  exact ⟨lived hlived (.grow hrun), hcontained.act (.grow hrun) hconfig hbounded,
    hrecorded.settled ⟨fun h => by rw [Arena.contains, hcells, Arena.contains],
      HeapM.Settles.grow _ _ _ hrun⟩⟩

theorem claimed {kind : Kind} {length : Nat} {payload : Payload} {h : Handle} (hs : heap.HasBoundedHistory)
    (hsound : heap.Sound) (hkind : kind ≠ .free) (hp : Payload.forKind? kind length = some payload)
    (hspare : ∀ limit, heap.config.maxVectorChunks = some limit →
      HeapM.chunksFor kind length = 0 ∨ heap.bigChunksLive + HeapM.chunksFor kind length ≤ limit)
    (hrun : (HeapM.claimCell? (.forRequest kind length) kind payload (HeapM.chunksFor kind length)).run
      heap = .ok (some h, heap')) : heap'.HasBoundedHistory := by
  obtain ⟨hlived, hcontained, hrecorded⟩ := hs
  have hclaim := Act.claim hsound hkind hp hrun
  obtain ⟨hconfig, hbounded⟩ := hcontained.bounded.claimed hspare hrun
  exact ⟨lived hlived hclaim, hcontained.act hclaim hconfig hbounded,
    hrecorded.claims hsound hkind hp hrun⟩

theorem collected {level : Level} {reason : Reason} {o : Outcome} (hs : heap.HasBoundedHistory)
    (hsound : heap.Sound) (hrun : (HeapM.collect level reason).run heap = .ok (o, heap')) :
    heap'.HasBoundedHistory := by
  obtain ⟨hlived, hcontained, hrecorded⟩ := hs
  have hcollect := Act.collect hsound hrun
  obtain ⟨hconfig, hbounded⟩ := hcontained.bounded.collected hsound (countersMatch hlived) hrun
  exact ⟨lived hlived hcollect, hcontained.act hcollect hconfig hbounded,
    hrecorded.collected hsound hrun⟩

theorem released {h : Handle} {u : Unit} (hs : heap.HasBoundedHistory)
    (hrun : (HeapM.decrementRefCount h).run heap = .ok (u, heap')) : heap'.HasBoundedHistory := by
  obtain ⟨hlived, hcontained, hrecorded⟩ := hs
  have hr := HeapM.Retouches.decrementRefCount _ _ _ hrun
  exact ⟨lived hlived hr.act, contained hcontained hr, hrecorded.released hrun⟩

theorem rewritten {h value : Handle} {u : Unit} (hs : heap.HasBoundedHistory)
    (hrun : (HeapM.setCar h value).run heap = .ok (u, heap')) : heap'.HasBoundedHistory := by
  obtain ⟨hlived, hcontained, hrecorded⟩ := hs
  have hr := HeapM.Retouches.setCar _ _ _ hrun
  exact ⟨lived hlived hr.act, contained hcontained hr, hrecorded.rewritten hrun⟩

theorem removed {env sym : Handle} {b : Bool} (hs : heap.HasBoundedHistory)
    (hrun : (HeapM.removeVar env sym).run heap = .ok (b, heap')) : heap'.HasBoundedHistory := by
  obtain ⟨hlived, hcontained, hrecorded⟩ := hs
  have hr := HeapM.Retouches.removeVar _ _ _ hrun
  exact ⟨lived hlived hr.act, contained hcontained hr, hrecorded.unbinds hrun⟩

end Heap.HasBoundedHistory

theorem Heap.SoundWithHistory.keeping {heap : Heap} (ht : heap.SoundWithHistory) (transient : Array Handle) :
    (heap.keeping transient).SoundWithHistory :=
  ⟨ht.1.keeping transient, ht.2.retouched (.aside rfl rfl rfl) (.aside rfl)⟩

theorem Heap.Traced.countersMatch {heap : Heap} (ht : heap.Traced) : heap.CountersMatch := HasBoundedHistory.countersMatch ht.2

def Heap.Issues {ε : Type} (kind : Kind) (length : Nat) (r : Except ε Handle) (heap : Heap) : Prop :=
  heap.SoundWithHistory ∧ ∀ h, r = .ok h → heap.Sized kind length h

variable {kind : Kind} {length : Nat} {h : Handle} {payload : Payload} {slots : List Handle}

namespace HeapM

variable {α β : Type} {heap heap' : Heap} {P P' : Heap → Prop} {Q Q' : α → Heap → Prop}
  {x act : HeapM α} {f : α → HeapM β}

theorem Triple.and (hx : Triple P x Q) (hx' : Triple P' x Q') :
    Triple (fun heap => P heap ∧ P' heap) x fun a heap => Q a heap ∧ Q' a heap :=
  fun heap a heap' hP hrun => ⟨hx heap a heap' hP.1 hrun, hx' heap a heap' hP.2 hrun⟩

def Traced (act : HeapM α) : Prop := Triple Heap.SoundWithHistory act fun _ => Heap.SoundWithHistory

theorem Retouches.hasBoundedHistory (hr : Retouches act) (hsettles : Settles act) :
    Triple Heap.HasBoundedHistory act fun _ => Heap.HasBoundedHistory :=
  fun heap a heap' hs hrun => hs.retouched (hr heap a heap' hrun) (hsettles heap a heap' hrun)

namespace Traced

theorem of_retouches (hsafe : Safe act) (hr : Retouches act) (hsettles : Settles act) : Traced act :=
  hsafe.and (hr.hasBoundedHistory hsettles)

theorem setCar {h value : Handle} : Traced (setCar h value) := fun heap u heap' ht hrun =>
  ⟨Safe.setCar heap u heap' ht.1 hrun, ht.2.rewritten hrun⟩

theorem removeVar {env sym : Handle} : Traced (removeVar env sym) := fun heap b heap' ht hrun =>
  ⟨Safe.removeVar heap b heap' ht.1 hrun, ht.2.removed hrun⟩

theorem decrementRefCount {h : Handle} : Traced (decrementRefCount h) := fun heap u heap' ht hrun =>
  ⟨Safe.decrementRefCount heap u heap' ht.1 hrun, ht.2.released hrun⟩

theorem reads (hx : Reads act) : Traced act := .of_reads hx fun _ _ => id

theorem collect {level : Level} {reason : Reason} : Traced (collect level reason) :=
  fun heap o heap' ht hrun => ⟨Safe.collect heap o heap' ht.1 hrun, ht.2.collected ht.1 hrun⟩

end Traced

theorem hasBoundedHistory_claim {claimed : Option Handle} (ht : heap.SoundWithHistory) (hkind : kind ≠ .free)
    (hp : Payload.forKind? kind length = some payload)
    (hspare : ∀ limit, heap.config.maxVectorChunks = some limit →
      chunksFor kind length = 0 ∨ heap.bigChunksLive + chunksFor kind length ≤ limit)
    (hrun : (claimCell? (.forRequest kind length) kind payload (chunksFor kind length)).run heap =
      .ok (claimed, heap')) :
    heap'.HasBoundedHistory ∧ ∀ h, claimed = some h → heap'.Sized kind length h := by
  cases claimed with
  | none =>
    rcases run_claim hrun with ⟨-, rfl⟩ | ⟨h, arena, hsome, -⟩
    · exact ⟨ht.2, nofun⟩
    · exact nomatch hsome
  | some h =>
    refine ⟨ht.2.claimed ht.1 hkind hp hspare hrun, ?_⟩
    rintro g hg
    obtain rfl := Option.some.inj hg
    exact ⟨payload, hp, ((Heap.Act.claimed ht.1 hkind hrun).2 h).trans (if_pos rfl)⟩

theorem issues_takeOrGrow {reserved : Bool} (hkind : kind ≠ .free) :
    Triple Heap.SoundWithHistory (takeOrGrow kind length reserved) (Heap.Issues kind length) := by
  intro heap r heap' ht hrun
  have hsound := (run_takeOrGrow ht.1 hkind hrun).1
  rcases run_take hrun with ⟨⟨b, rfl⟩, rfl⟩ | ⟨hspare, mid, hgrow, payload, claimed, hp, hclaim, hr⟩
  · exact ⟨ht, nofun⟩
  · -- a new segment brings no chunks
    have hmid : mid.SoundWithHistory ∧ mid.config = heap.config ∧ mid.bigChunksLive = heap.bigChunksLive := by
      rcases hgrow with rfl | ⟨room, hgrow⟩
      · exact ⟨ht, rfl, rfl⟩
      · obtain ⟨hconfig, hchunks, -⟩ := ht.2.2.1.bounded.grown hgrow
        exact ⟨⟨(run_grow ht.1 hgrow).1, ht.2.grown hgrow⟩, hconfig, hchunks⟩
    obtain ⟨hsoundWithHistory, hconfig, hchunks⟩ := hmid
    rw [← hconfig, ← hchunks] at hspare
    obtain ⟨hhasBoundedHistory, hsized⟩ := hasBoundedHistory_claim hsoundWithHistory hkind hp hspare hclaim
    refine ⟨⟨hsound, hhasBoundedHistory⟩, fun g hg => ?_⟩
    rcases hr with ⟨-, rfl⟩ | ⟨h, rfl, rfl⟩
    · exact nomatch hg
    · exact hsized g (congrArg some (Except.ok.inj hg))

theorem issues_allocateFast : Triple Heap.SoundWithHistory (allocateFast kind length) fun h heap =>
    heap.SoundWithHistory ∧ (h = .noObject ∨ heap.Sized kind length h) := by
  intro heap h heap' ht hrun
  have hsound := (run_allocateFast ht.1 hrun).1
  rcases run_fast hrun with ⟨rfl, rfl⟩ | ⟨hkind, hsmall, payload, claimed, hp, hclaim, rfl⟩
  · exact ⟨ht, .inl rfl⟩
  · have hchunks : chunksFor kind length = 0 := if_neg (hsmall ▸ Bool.false_ne_true)
    obtain ⟨hhasBoundedHistory, hsized⟩ := hasBoundedHistory_claim ht hkind hp (fun _ _ => .inl hchunks)
      (hchunks ▸ hclaim)
    refine ⟨⟨hsound, hhasBoundedHistory⟩, ?_⟩
    cases claimed with
    | none => exact .inl rfl
    | some h => exact .inr (hsized h rfl)

theorem issues_escalate (hkind : kind ≠ .free) (levels : List Level) (reserved : Bool) :
    Triple Heap.SoundWithHistory (escalate kind length reserved levels) (Heap.Issues kind length) := by
  induction levels generalizing reserved with
  | nil => exact .pure fun heap ht => ⟨ht, nofun⟩
  | cons level deeper ih =>
    refine .bind Traced.collect fun _ => .bind (issues_takeOrGrow hkind) fun r => ?_
    cases r with
    | ok h => exact .pure fun heap ht => ⟨ht.1, fun g hg => ht.2 g (congrArg _ (Except.ok.inj hg))⟩
    | error reserved => exact (ih reserved).conseq (fun heap ht => ht.1) fun _ _ => id

theorem hasBoundedHistory_setPayload (hsuits : payload.suits kind = true) :
    Triple (fun heap => heap.SoundWithHistory ∧ heap.Sized kind payload.length h) (HostM.setPayload h payload)
      fun _ heap => heap.Filled kind payload h ∧
        heap.OwesCounts fun o => (payload.children true).count o := by
  rintro heap u heap' ⟨ht, hsized⟩ hrun
  exact ⟨setPayload_filled heap u heap' ⟨ht.1, hsized.fresh⟩ hrun, heap, ht.2,
    Retouches.setPayload (hsized.roomy hsuits) hrun, owes_setPayload hrun⟩

theorem hasBoundedHistory_countReferences (hfits : payload.Fits kind slots) (hcovered : payload.Covered slots) :
    Triple (fun heap => heap.Filled kind payload h ∧
        heap.OwesCounts fun o => (payload.children true).count o) (HostM.countReferences slots)
      fun _ => Heap.SoundWithHistory := by
  refine (countReferences_filled hfits).and ?_
  rintro heap u heap' ⟨start, hs, hr, howes⟩ hrun
  refine hs.retouched (hr.trans (Retouches.countReferences slots _ _ _ hrun)) ?_
  refine (howes.trans (owes_countReferences slots hrun)).mono fun o hnil hunbound => ?_
  have hle := hcovered o hnil hunbound
  simp only [Pi.add_apply, Pi.zero_apply]
  omega

end HeapM

namespace HostM

variable {ω α β : Type} {x : HostM ω α} {f : α → HostM ω β} {P P' : Heap → Prop}
  {Q Q' : α → Heap → Prop}

theorem Triple.and (hx : Triple P x Q) (hx' : Triple P' x Q') :
    Triple (fun heap => P heap ∧ P' heap) x fun a heap => Q a heap ∧ Q' a heap :=
  fun state => HeapM.Triple.and (hx state) (hx' state)

def Traced (act : HostM ω α) : Prop := Triple Heap.SoundWithHistory act fun _ => Heap.SoundWithHistory

namespace Traced

theorem bind (hx : Traced x) (hf : ∀ a, Traced (f a)) : Traced (x >>= f) := Triple.bind hx hf

theorem pure {a : α} : Traced (pure a : HostM ω α) := Triple.pure fun _ => id

theorem throw {e : Fault} : Traced (throwThe Fault e : HostM ω α) := Triple.throw

theorem lift {act : HeapM α} (h : act.Traced) : Traced (liftM act : HostM ω α) := Triple.lift h

theorem reads {act : HeapM α} (h : act.Reads) : Traced (liftM act : HostM ω α) := lift (.reads h)

theorem retouch {act : HeapM α} (hsafe : act.Safe) (hr : act.Retouches) (hsettles : act.Settles) :
    Traced (liftM act : HostM ω α) := lift (.of_retouches hsafe hr hsettles)

theorem getHeap : Traced (getThe Heap : HostM ω Heap) := Triple.getHeap fun _ => id

end Traced

end HostM

/-- What the foreign code does comes down to acts. -/
structure Host.Traced {ω : Type} (host : Host ω) : Prop where
  safe : host.Safe
  native : ∀ routine key, HostM.Traced (host.native routine key)
  evaluate : ∀ evaluator function key, HostM.Traced (host.evaluate evaluator function key)

namespace HostM

variable {ω α : Type} {host : Host ω} {roots : List Handle}

theorem Triple.withTransient {P P' : Heap → Prop} {Q Q' : α → Heap → Prop} {act : HostM ω α}
    {hs : List Handle} (hact : Triple P act Q)
    (hP : ∀ heap transient, P' heap → P (heap.keeping transient))
    (hQ : ∀ a heap transient, Q a heap → Q' a (heap.keeping transient)) :
    Triple P' (HostM.withTransient hs act) Q' := by
  rintro state heap ⟨a, state'⟩ heap' hstart hrun
  obtain ⟨stop, hbody, rfl⟩ := run_withTransient hrun
  exact hQ a stop _ (hact state _ (a, state') stop (hP heap _ hstart) hbody)

namespace Traced

theorem stepBound : Traced (stepBound host) := bind (reads .walkBound) fun _ => pure

theorem withTransient {hs : List Handle} {act : HostM ω α} (hact : Traced act) :
    Traced (withTransient hs act) :=
  Triple.withTransient hact (fun _ transient ht => ht.keeping transient)
    fun _ _ transient ht => ht.keeping transient

theorem note {e : Event} : Traced (HeapM.note e : HostM ω Unit) := retouch .note .note .note

theorem modifyFinalizers {g : FinalizerState → FinalizerState} :
    Traced (HeapM.modifyFinalizers g : HostM ω Unit) :=
  retouch .modifyFinalizers .modifyFinalizers .modifyFinalizers

theorem noteCall {record function key : Handle} :
    Traced (HeapM.noteCall record function key : HostM ω Unit) :=
  retouch .noteCall .noteCall .noteCall

theorem countRun : Traced (HeapM.countRun : HostM ω Unit) := retouch .countRun .countRun .countRun

theorem setEvaluator {evaluator : Heap → Option Evaluator} :
    Traced (modifyThe Heap fun heap => { heap with evaluator := evaluator heap } : HostM ω PUnit) :=
  lift (.of_retouches (.modify (fun _ => rfl) (fun _ => rfl) (fun _ => rfl) (fun _ => rfl)
    fun _ => rfl) (.modify (fun _ => rfl) (fun _ => rfl) fun _ => rfl) (.modify fun _ => rfl))

theorem invoke (hhost : host.Traced) (function key : Handle) : Traced (invoke host function key) := by
  refine bind (reads .kind) fun k => ?_
  cases k
  case nativeFunction =>
    refine bind (reads .payload) fun p => ?_
    cases p
    case nativeFunction routine =>
      cases routine with
      | none => exact pure
      | some routine => exact hhost.native routine key
    all_goals exact reads .wrongKind
  case closure =>
    refine bind getHeap fun heap => ?_
    cases heap.evaluator with
    | none => exact pure
    | some evaluator =>
      refine bind setEvaluator fun _ => bind (hhost.evaluate evaluator function key) fun outcome =>
        bind getHeap fun after => ?_
      split
      · exact bind setEvaluator fun _ => pure
      · exact pure
  all_goals exact throw

theorem runFinalizer (hhost : host.Traced) (record function key : Handle) :
    Traced (runFinalizer host record function key) := by
  refine bind (withTransient (bind noteCall fun _ => ?_)) fun outcome => bind countRun fun _ => ?_
  · refine bind (reads .enterRecovery) fun scope => bind (invoke hhost function key) fun outcome =>
      bind (retouch .leaveRecovery .leaveRecovery .leaveRecovery) fun changed => ?_
    split
    · exact bind note fun _ => pure
    · exact pure
  · cases outcome with
    | ok u => exact pure
    | error e => exact bind modifyFinalizers fun _ => note

theorem unlinkWeakRef {record hint : Handle} :
    Traced (HeapM.unlinkWeakRef record hint : HostM ω Unit) :=
  lift fun heap u heap' ht hrun => ⟨HeapM.Safe.unlinkWeakRef heap u heap' ht.1 hrun,
    ht.2.retouched (HeapM.Retouches.unlinkWeakRef ht.1 hrun) (HeapM.Settles.unlinkWeakRef _ _ _ hrun)⟩

theorem finalizePass (hhost : host.Traced) (fuel : Nat) (previous cursor : Handle) (found : Bool)
    (ran : Nat) : Traced (finalizePass host previous cursor found ran fuel) := by
  induction fuel generalizing previous cursor found ran with
  | zero => exact throw
  | succ fuel ih =>
    unfold HostM.finalizePass
    split
    · exact pure
    · refine bind (reads .chainFields) fun fields => bind (reads .flags) fun flags => ?_
      split
      · exact ih cursor fields.next found ran
      · refine bind unlinkWeakRef fun _ => ?_
        split
        · exact ih previous fields.next true ran
        · exact bind (runFinalizer hhost cursor fields.finalizer fields.key) fun _ =>
            ih previous fields.next true (ran + 1)

theorem finalizePasses (hhost : host.Traced) (fuel ran : Nat) :
    Traced (finalizePasses host ran fuel) := by
  induction fuel generalizing ran with
  | zero => exact throw
  | succ fuel ih =>
    refine bind getHeap fun heap => bind stepBound fun bound =>
      bind (finalizePass hhost bound .nil heap.weak.head false ran) fun result => ?_
    obtain ⟨found, ran⟩ := result
    dsimp only
    split
    · exact ih ran
    · exact pure

theorem runPendingFinalizers (hhost : host.Traced) : Traced (runPendingFinalizers host) := by
  refine bind getHeap fun heap => ?_
  split
  · exact pure
  · exact bind modifyFinalizers fun _ => bind (finalizePasses hhost host.fuel 0) fun ran =>
      bind modifyFinalizers fun _ => pure

theorem runExitFinalizers (hhost : host.Traced) : Traced (runExitFinalizers host) := by
  refine bind getHeap fun heap => ?_
  split
  · exact pure
  · exact bind (reads .weakRecords) fun records =>
      bind (retouch (.flagOnExit records) (.flagOnExit records) (.flagOnExit records)) fun _ =>
      bind (runPendingFinalizers hhost) fun ran => bind modifyFinalizers fun _ =>
      bind note fun _ => pure

theorem requestCollection (hhost : host.Traced) (level : Level) :
    Traced (requestCollection host level) :=
  bind (lift .collect) fun _ => bind (runPendingFinalizers hhost) fun _ => pure

end Traced

theorem issues_finalizeAndRetry (hhost : host.Traced) (hkind : kind ≠ .free) {reserved : Bool} :
    Triple Heap.SoundWithHistory (finalizeAndRetry host kind length reserved) (Heap.Issues kind length) := by
  refine .bind (Traced.reads .pendingFinalizerCount) fun n => ?_
  split
  · exact .pure fun heap ht => ⟨ht, nofun⟩
  · exact .bind (Traced.runPendingFinalizers hhost) fun ran => .bind (Traced.lift .collect) fun _ =>
      .lift (HeapM.issues_takeOrGrow hkind)

theorem issues_retry {x : HostM ω (Except Bool Handle)}
    {next : Bool → HostM ω (Except HeapError Handle)}
    (hx : Triple Heap.SoundWithHistory x (Heap.Issues kind length))
    (hnext : ∀ reserved, Triple Heap.SoundWithHistory (next reserved) (Heap.Issues kind length)) :
    Triple Heap.SoundWithHistory (do
      match ← x with
      | .ok h => return .ok h
      | .error reserved => next reserved) (Heap.Issues kind length) := by
  refine .bind hx fun r => ?_
  cases r with
  | ok h => exact .pure fun heap ht => ⟨ht.1, fun g hg => ht.2 g (congrArg _ (Except.ok.inj hg))⟩
  | error reserved => exact (hnext reserved).conseq (fun heap ht => ht.1) fun _ _ => id

theorem issues_allocateSlow (hhost : host.Traced) (hkind : kind ≠ .free) :
    Triple Heap.SoundWithHistory (allocateSlow host kind length) (Heap.Issues kind length) := by
  refine .bind (Traced.reads .collectionDue) fun due => ?_
  dsimp only
  rcases due with _ | reason
  on_goal 2 => refine .bind Traced.getHeap fun heap => .bind (Traced.lift .collect) fun _ => ?_
  all_goals
    refine issues_retry (.lift (HeapM.issues_takeOrGrow hkind)) fun reserved => ?_
    refine .bind Traced.getHeap fun heap =>
      issues_retry (.lift (HeapM.issues_escalate hkind _ reserved)) fun reserved => ?_
    refine issues_retry (issues_finalizeAndRetry hhost hkind) fun reserved => ?_
    exact .bind Traced.note fun _ => .pure fun heap ht => ⟨ht, nofun⟩

theorem allocate_sized (hhost : host.Traced) :
    Attempt.Triple Heap.SoundWithHistory (allocate host kind length roots)
      (fun h heap => heap.SoundWithHistory ∧ heap.Sized kind length h) Heap.SoundWithHistory := by
  unfold allocate
  dsimp only
  split
  · exact .bind (Q := fun _ _ => False) (.throw fun _ => id) fun _ => .absurd
  · rename_i hallocatable
    replace hallocatable : kind.isAllocatable = true := by simpa using hallocatable
    split
    · exact .bind (Q := fun _ _ => False) (.throw fun _ => id) fun _ => .absurd
    · refine .bind (.lift HeapM.issues_allocateFast) fun h => ?_
      split
      · rename_i hobject
        refine .pure fun heap ht => ⟨ht.1, ht.2.resolve_left ?_⟩
        rintro rfl
        exact nomatch hobject
      · refine .mk (.withTransient (issues_allocateSlow hhost (HeapM.kind_ne_free hallocatable))
          (fun heap transient ht => ht.1.keeping transient) fun r heap transient hr => ?_)
        cases r with
        | ok h => exact ⟨hr.1.keeping transient, hr.2 h rfl⟩
        | error e => exact hr.1.keeping transient

end HostM

end ManagedHeap
