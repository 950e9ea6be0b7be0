import ManagedHeap.Proofs.CallArguments
import ManagedHeap.Proofs.RootOrder
import ManagedHeap.Proofs.QuietLosses
import ManagedHeap.Proofs.CopyLogs

/-!
# What a copy waits for

A copy waits for each object that it comes to. What it waits for beside them, its allocations wait
for: a full collection waits for large objects, and a finalizer may do anything. As long as the
finalizers begin no outputs, an allocation counts one wait for each object that the tasks let go of.
-/

namespace ManagedHeap

theorem PendingObjects.use_releaseCached {p : PendingObjects} (hp : (p.entries.map Prod.fst).Nodup)
    (h : Handle) : p.releaseCached.use h = p.use h := by
  have hkept : (p.releaseCached.entries.map Prod.fst).Nodup :=
    hp.sublist (List.Sublist.map Prod.fst List.filter_sublist)
  unfold use
  cases hv : p.releaseCached.get? h with
  | some v => rw [get?_of_mem hp (List.mem_of_mem_filter (mem_of_get? hv))]
  | none =>
    cases hu : p.get? h with
    | none => rfl
    | some u =>
      cases hidle : u.isIdle with
      | true =>
        obtain ⟨outputs, inputs⟩ := u
        obtain ⟨rfl, rfl⟩ : outputs = 0 ∧ inputs = 0 := by simpa [TaskUse.isIdle] using hidle
        rfl
      | false =>
        have hbusy : (h, u) ∈ p.releaseCached.entries :=
          List.mem_filter.mpr ⟨mem_of_get? hu, by simp [hidle]⟩
        rw [get?_of_mem hkept hbusy] at hv
        cases hv

namespace Tasks

variable {t : Tasks} {h k : Handle}

/-- The registry has one entry for an object. -/
def Keyed (t : Tasks) : Prop := (t.registry.entries.map Prod.fst).Nodup

theorem Keyed.awaitOutput (ht : t.Keyed) : (t.awaitOutput h).Keyed := by
  obtain ⟨scheduler, registry⟩ := t
  cases scheduler with
  | none => exact ht
  | registry | minimal =>
    have hkeys : (registry.settleOutputs h).entries.map Prod.fst = registry.entries.map Prod.fst :=
      PendingObjects.keys_modify ..
    rwa [Keyed, Tasks.awaitOutput, hkeys]

theorem Keyed.isPending_releaseCached (ht : t.Keyed) :
    t.releaseCached.isPending h = t.isPending h := by
  obtain ⟨scheduler, registry⟩ := t
  cases scheduler with
  | none | minimal => rfl
  | registry =>
    simp only [isPending, PendingObjects.isPending, Tasks.releaseCached,
      PendingObjects.use_releaseCached ht]

theorem pending_of_await (hp : ((t.awaitOutput h).awaitInput h).isPending k = true) :
    t.isPending k = true := by
  obtain ⟨scheduler, registry⟩ := t
  cases scheduler with
  | none => exact hp
  | registry | minimal =>
    simp only [isPending, awaitOutput, awaitInput, PendingObjects.isPending,
      PendingObjects.use_settled] at hp ⊢
    split at hp
    · exact absurd hp (by decide)
    · exact hp

theorem pending_of_awaitAll (hs : List Handle) (hp : (t.awaitAll hs).isPending k = true) :
    t.isPending k = true := by
  induction hs generalizing t with
  | nil => exact hp
  | cons h hs ih => exact pending_of_await (ih (t := (t.awaitOutput h).awaitInput h) hp)

end Tasks

/-- Tasks let go of some objects, which were waited for one by one, and begin nothing. -/
structure Heap.ReleasesTasks (heap heap' : Heap) : Prop where
  held : heap'.tasks.held.Sublist heap.tasks.held
  waits : heap'.counters.taskWaits + heap'.tasks.held.length =
    heap.counters.taskWaits + heap.tasks.held.length
  begins : heap.tasks.Keyed → heap'.tasks.Keyed ∧
    ∀ h, heap'.tasks.isPending h = true → heap.tasks.isPending h = true

namespace Heap.ReleasesTasks

variable {heap mid heap' : Heap}

theorem of_same (hsame : heap'.schedule = heap.schedule) : heap.ReleasesTasks heap' := by
  obtain ⟨htasks, hwaits⟩ := Schedule.mk.inj hsame
  exact ⟨htasks ▸ .refl _, by rw [htasks, hwaits], fun hk => by rw [htasks]; exact ⟨hk, fun _ hp => hp⟩⟩

theorem trans (hfirst : heap.ReleasesTasks mid) (hlast : mid.ReleasesTasks heap') : heap.ReleasesTasks heap' where
  held := hlast.held.trans hfirst.held
  waits := hlast.waits.trans hfirst.waits
  begins hk := by
    obtain ⟨hkeyed, hpending⟩ := hfirst.begins hk
    obtain ⟨hkeyed', hpending'⟩ := hlast.begins hkeyed
    exact ⟨hkeyed', fun h hp => hpending h (hpending' h hp)⟩

theorem settled (heap : Heap) (level : Level) : heap.ReleasesTasks { heap with
    tasks := heap.quietTasks level
    counters := { heap.counters with
      taskWaits := heap.counters.taskWaits + (heap.awaitedTasks level).length } } where
  held := heap.held_quietTasks level ▸ List.filter_sublist
  waits := by
    have hcount : (heap.awaitedTasks level).length +
        (heap.tasks.held.filter (· ∉ heap.awaitedTasks level)).length = heap.tasks.held.length := by
      unfold awaitedTasks
      split
      · rw [Tasks.held_releaseCached,
          List.length_eq_length_filter_add (l := heap.tasks.held) heap.arena.holdsLarge]
        congr 2
        refine List.filter_congr fun h hh => ?_
        simp [hh]
      · simp
    simp only [held_quietTasks]
    omega
  begins hk := by
    refine ⟨quietTasks_registered level hk, fun h hp => ?_⟩
    rw [← hk.isPending_releaseCached]
    unfold quietTasks at hp
    dsimp only at hp
    split at hp
    · exact Tasks.pending_of_awaitAll _ hp
    · exact hp

end Heap.ReleasesTasks

def HeapM.ReleasesTasks {α : Type} (act : HeapM α) : Prop :=
  ∀ heap a heap', act.run heap = .ok (a, heap') → heap.ReleasesTasks heap'

namespace HeapM.ReleasesTasks

variable {α β : Type} {x act : HeapM α} {f : α → HeapM β} {level : ManagedHeap.Level} {kind : Kind}
  {length : Nat}

theorem bind (hx : ReleasesTasks x) (hf : ∀ a, ReleasesTasks (f a)) : ReleasesTasks (x >>= f) := by
  intro heap b heap' hrun
  obtain ⟨a, mid, hfirst, hrest⟩ := run_bind.mp hrun
  exact (hx heap a mid hfirst).trans (hf a mid b heap' hrest)

theorem leavesTasks (h : act.LeavesTasks) : ReleasesTasks act := fun heap a heap' hrun => .of_same (h heap a heap' hrun)

theorem pure {a : α} : ReleasesTasks (pure a : HeapM α) := leavesTasks .pure

theorem quiesce : ReleasesTasks (quiesce level) := by
  intro heap u heap' hrun
  rw [ends_quiesce, Except.ok.injEq, Prod.mk.injEq] at hrun
  obtain ⟨-, rfl⟩ := hrun
  exact .settled heap level

theorem collect {reason : Reason} : ReleasesTasks (collect level reason) := by
  intro heap o heap' hrun
  obtain ⟨first, last, u, hopen, hquiet, hclose⟩ := settles_collect hrun
  exact ((Heap.ReleasesTasks.of_same (Prod.mk.inj hopen).2).trans (quiesce _ _ _ hquiet)).trans
    (.of_same (Prod.mk.inj hclose).2)

theorem escalate {reserved : Bool} (levels : List ManagedHeap.Level) :
    ReleasesTasks (escalate kind length reserved levels) := by
  induction levels generalizing reserved with
  | nil => exact pure
  | cons level deeper ih =>
    refine bind collect fun _ => bind (leavesTasks (.leavesTasks .takeOrGrow)) fun taken => ?_
    cases taken with
    | ok h => exact pure
    | error reserved => exact ih

end HeapM.ReleasesTasks

def HostM.ReleasesTasks {ω α : Type} (act : HostM ω α) : Prop :=
  ∀ s heap a s' heap', (act.run s).run heap = .ok ((a, s'), heap') → heap.ReleasesTasks heap'

/-- The finalizers begin no outputs. -/
structure Host.ReleasesTasks {ω : Type} (host : Host ω) : Prop where
  native : ∀ routine key, (host.native routine key).ReleasesTasks
  evaluate : ∀ evaluator function key, (host.evaluate evaluator function key).ReleasesTasks

theorem Host.mute_releasesTasks {ω : Type} (fuel : Nat) : (Host.mute fuel : Host ω).ReleasesTasks := by
  constructor <;> intros <;> intro _ _ _ _ _ hrun <;> cases hrun

namespace HostM.ReleasesTasks

variable {ω α β : Type} {host : Host ω} {x act : HostM ω α} {f : α → HostM ω β} {kind : Kind}
  {length : Nat}

theorem bind (hx : ReleasesTasks x) (hf : ∀ a, ReleasesTasks (f a)) : ReleasesTasks (x >>= f) := by
  intro s heap b s' heap' hrun
  obtain ⟨a, t, mid, hfirst, hrest⟩ := run_bindM.mp hrun
  exact (hx _ _ _ _ _ hfirst).trans (hf a _ _ _ _ _ hrest)

theorem leavesTasks (h : act.LeavesTasks) : ReleasesTasks act := fun s heap a s' heap' hrun =>
  .of_same (h s heap a s' heap' hrun)

theorem pure {a : α} : ReleasesTasks (pure a : HostM ω α) := leavesTasks .pure

theorem lift {act : HeapM α} (h : act.ReleasesTasks) : ReleasesTasks (liftM act : HostM ω α) :=
  fun _ _ _ _ _ hrun => h _ _ _ (run_liftM.mp hrun).2

theorem reads {act : HeapM α} (h : act.Reads) : ReleasesTasks (liftM act : HostM ω α) := leavesTasks (.reads h)

theorem throw {e : Fault} : ReleasesTasks (throwThe Fault e : HostM ω α) := by
  intro _ _ _ _ _ hrun
  cases hrun

theorem modify {g : Heap → Heap} (hg : ∀ heap, (g heap).schedule = heap.schedule) :
    ReleasesTasks (modifyThe Heap g : HostM ω PUnit) := leavesTasks (.lift (.modify hg))

theorem withTransient {hs : List Handle} (hact : ReleasesTasks act) : ReleasesTasks (withTransient hs act) :=
  bind (leavesTasks (.lift (.bind .get fun _ => .bind (.modify fun _ => rfl) fun _ => .pure))) fun _ =>
    bind hact fun _ => bind (leavesTasks (.lift (.modify fun _ => rfl))) fun _ => pure

variable (hhost : host.ReleasesTasks)

include hhost

theorem invoke (function key : Handle) : ReleasesTasks (invoke host function key) := by
  refine bind (reads .kind) fun k => ?_
  cases k
  case nativeFunction =>
    refine bind (reads .payload) fun p => ?_
    cases p
    case nativeFunction routine =>
      cases routine with
      | none => exact pure
      | some routine => exact hhost.native routine key
    all_goals exact reads .wrongKind
  case closure =>
    refine bind (reads .get) fun heap => ?_
    cases heap.evaluator with
    | none => exact pure
    | some evaluator =>
      refine bind (modify fun _ => rfl) fun _ => bind (hhost.evaluate evaluator function key)
        fun outcome => bind (reads .get) fun heap => ?_
      split
      · exact bind (modify fun _ => rfl) fun _ => pure
      · exact pure
  all_goals exact throw

theorem runFinalizer (record function key : Handle) : ReleasesTasks (runFinalizer host record function key) := by
  have hcount : ∀ g : FinalizerState → FinalizerState,
      ReleasesTasks (liftM (HeapM.modifyFinalizers g) : HostM ω PUnit) :=
    fun g => leavesTasks (.lift (.modify fun _ => rfl))
  refine bind (withTransient (bind (leavesTasks (.lift (.modify fun _ => rfl))) fun _ => ?_)) fun outcome =>
    bind (leavesTasks (.lift (.modify fun _ => rfl))) fun _ => ?_
  · refine bind (reads (.bind .get fun _ => .pure)) fun scope => bind (invoke hhost function key)
      fun outcome => bind (leavesTasks (.lift ?_)) fun changed => ?_
    · refine .bind (.of_reads (.bind .get fun _ => .pure)) fun now => ?_
      split
      · exact .throw_bind
      · exact .bind (.modify fun _ => rfl) fun _ => .bind (.modify fun _ => rfl) fun _ => .pure
    · split
      · exact bind (leavesTasks (.lift (.leavesTasks .note))) fun _ => pure
      · exact pure
  · cases outcome with
    | ok _ => exact pure
    | error e => exact bind (hcount _) fun _ => leavesTasks (.lift (.leavesTasks .note))

theorem finalizePass (fuel : Nat) (previous cursor : Handle) (found : Bool) (ran : Nat) :
    ReleasesTasks (finalizePass host previous cursor found ran fuel) := by
  induction fuel generalizing previous cursor found ran with
  | zero => exact throw
  | succ fuel ih =>
    unfold HostM.finalizePass
    split
    · exact pure
    · refine bind (reads .chainFields) fun fields => bind (reads .flags) fun flags => ?_
      split
      · exact ih _ _ _ _
      · refine bind (leavesTasks (.lift (.leavesTasks .unlinkWeakRef))) fun _ => ?_
        split
        · exact ih _ _ _ _
        · exact bind (runFinalizer hhost _ _ _) fun _ => ih _ _ _ _

theorem finalizePasses (fuel ran : Nat) : ReleasesTasks (finalizePasses host ran fuel) := by
  induction fuel generalizing ran with
  | zero => exact throw
  | succ fuel ih =>
    refine bind (reads .get) fun heap => bind (leavesTasks .stepBound) fun bound =>
      bind (finalizePass hhost bound .nil heap.weak.head false ran) fun answer => ?_
    obtain ⟨found, ran⟩ := answer
    dsimp only
    split
    · exact ih ran
    · exact pure

theorem runPendingFinalizers : ReleasesTasks (runPendingFinalizers host) := by
  have hcount : ∀ g : FinalizerState → FinalizerState,
      ReleasesTasks (liftM (HeapM.modifyFinalizers g) : HostM ω PUnit) :=
    fun g => leavesTasks (.lift (.modify fun _ => rfl))
  refine bind (reads .get) fun heap => ?_
  split
  · exact pure
  · exact bind (hcount _) fun _ => bind (finalizePasses hhost host.fuel 0) fun _ =>
      bind (hcount _) fun _ => pure

theorem finalizeAndRetry {reserved : Bool} : ReleasesTasks (finalizeAndRetry host kind length reserved) := by
  refine bind (reads .pendingFinalizerCount) fun pending => ?_
  split
  · exact pure
  · exact bind (runPendingFinalizers hhost) fun _ => bind (lift .collect) fun _ =>
      leavesTasks (.lift (.leavesTasks .takeOrGrow))

theorem allocateSlow : ReleasesTasks (allocateSlow host kind length) := by
  refine bind (reads .collectionDue) fun due => ?_
  cases due
  case' some reason => refine bind (reads .get) fun heap => bind (lift .collect) fun _ => ?_
  all_goals
    refine bind (leavesTasks (.lift (.leavesTasks .takeOrGrow))) fun taken => ?_
    cases taken with
    | ok h => exact pure
    | error reserved =>
      refine bind (reads .get) fun heap => bind (lift (.escalate _)) fun taken => ?_
      cases taken with
      | ok h => exact pure
      | error reserved =>
        refine bind (finalizeAndRetry hhost) fun taken => ?_
        cases taken with
        | ok h => exact pure
        | error reserved => exact bind (leavesTasks (.lift (.leavesTasks .note))) fun _ => pure

theorem allocate {roots : List Handle} : ReleasesTasks (allocate host kind length roots).run := by
  rw [HostM.allocate]
  split
  · exact pure
  · split
    · exact pure
    · change ReleasesTasks ((Except.ok <$> (liftM (HeapM.allocateFast kind length) : HostM ω Handle)) >>= _)
      simp only [← bind_pure_comp]
      refine bind (bind (leavesTasks (.lift (.leavesTasks .allocateFast))) fun _ => pure) fun result => ?_
      cases result with
      | error e => exact pure
      | ok h =>
        change ReleasesTasks (ExceptT.run (if (!h.isNoObject) = true then Pure.pure h
          else ExceptT.mk (HostM.withTransient roots (HostM.allocateSlow host kind length))))
        split
        · exact pure
        · exact withTransient (allocateSlow hhost)

end HostM.ReleasesTasks

theorem Heeded.awaits {log : List Sight} {h : Handle} {pending : Bool} (hlog : Heeded log)
    (hmem : .read h pending ∈ log) : ∃ earlier, earlier <:+ log ∧ Awaits earlier h pending := by
  induction log with
  | nil => exact absurd hmem List.not_mem_nil
  | cons e log ih =>
    have hearlier : .read h pending ∈ log → Heeded log →
        ∃ earlier, earlier <:+ e :: log ∧ Awaits earlier h pending := by
      intro hmem hlog
      obtain ⟨earlier, hsuffix, hawaits⟩ := ih hlog hmem
      exact ⟨earlier, hsuffix.trans (List.suffix_cons ..), hawaits⟩
    cases e with
    | read k p =>
      rcases List.mem_cons.mp hmem with hsame | hmem
      · cases hsame
        exact ⟨log, List.suffix_cons .., hlog.1⟩
      · exact hearlier hmem hlog.2
    | _ =>
      rcases List.mem_cons.mp hmem with hsame | hmem
      · cases hsame
      · exact hearlier hmem hlog

theorem Heeded.idle {log : List Sight} (hlog : Heeded log) (hbegins : ∀ h, ∀ e ∈ log, ¬ e.Begins h)
    {h : Handle} {pending : Bool} (hmem : .read h pending ∈ log) : pending = false := by
  obtain ⟨_, hsuffix, since, waited, before, rfl, hpending⟩ := hlog.awaits hmem
  cases pending with
  | false => rfl
  | true =>
    obtain ⟨e, he, hbegun⟩ := hpending rfl
    exact absurd hbegun (hbegins h e (hsuffix.mem (List.mem_append_left _ he)))

theorem Proceeds.begins_none {ω : Type} {host : Host ω} {log : List Sight} {heap heap' : Heap}
    (hp : Proceeds host log heap heap') (hkeyed : heap.tasks.Keyed)
    (hmade : ∀ before after, .made before after ∈ log → before.ReleasesTasks after) (h : Handle) :
    ∀ e ∈ log, ¬ e.Begins h := by
  obtain ⟨-, hbefore⟩ := hp.carries Tasks.Keyed (fun _ _ ht => ht.awaitOutput)
    (fun before after hmem hk => ((hmade before after hmem).begins hk).1) hkeyed
  intro e he hbegun
  cases e with
  | made before after =>
    have hpending := ((hmade before after he).begins (hbefore before after he)).2 h hbegun.1
    rw [hbegun.2] at hpending
    cases hpending
  | _ => exact hbegun

/-- A call of `duplicate` that ends, whatever it answers, goes as the log tells. Each object that
the copy comes to was waited for before it is read, and is pending at no look, unless an allocation
has run a finalizer since that began an output of it. The count of waits grows by the number of the
objects that were pending when the copy came to them, and by what the allocations waited for. If the
finalizers begin no outputs, that is one wait for each object that tasks let go of in an allocation,
and nothing is pending when it is read. -/
theorem copies_await_outputs {ω : Type} {host : Host ω} {h : Handle} {s s' : ω}
    {heap heap' : Heap} {result : Except HeapError Handle}
    (hrun : ((HostM.duplicate host h).run.run s).run heap = .ok ((result, s'), heap')) :
    ∃ log, (((Watching.duplicate host h).run.run []).run s).run heap =
        .ok (((result, log), s'), heap') ∧
      Heeded log ∧
      (heap'.counters.taskWaits : Int) = heap.counters.taskWaits + log.countP Sight.isWait +
        (log.map Sight.inAllocation).sum ∧
      (∀ before after, .made before after ∈ log → ∃ kind length roots t r t',
        ((HostM.allocate host kind length roots).run.run t).run before = .ok ((r, t'), after)) ∧
      (host.ReleasesTasks → (∀ before after, .made before after ∈ log → before.ReleasesTasks after) ∧
        (heap.Sound → ∀ k pending, .read k pending ∈ log → pending = false)) := by
  have hwatch : Watching.Watches host [] (Watching.duplicate host h) (HostM.duplicate host h) :=
    Watching.watches_duplicate
  obtain ⟨⟨r, log⟩, hlogged, rfl⟩ := hwatch.forgets.run hrun
  obtain ⟨hheeded, more, hmore, hproceeds⟩ := hwatch.keepsLookups [] _ _ _ _ _ _ trivial
    (fun h hno => absurd hno List.not_mem_nil) hlogged
  obtain rfl : log = more := hmore.trans (List.append_nil more)
  refine ⟨log, hlogged, hheeded, hproceeds.waits, hproceeds.made, fun hhost => ?_⟩
  have hreleasesTasks : ∀ before after, .made before after ∈ log → before.ReleasesTasks after := by
    intro before after hmem
    obtain ⟨kind, length, roots, t, r, t', hmade⟩ := hproceeds.made before after hmem
    exact HostM.ReleasesTasks.allocate hhost _ _ _ _ _ hmade
  exact ⟨hreleasesTasks, fun hs k pending hmem =>
    hheeded.idle (hproceeds.begins_none hs.registered hreleasesTasks) hmem⟩

namespace Session

/-- A list of a vector that a task writes. -/
def listedTask : List Step :=
  [.command (.setScheduler .registry) none,
    .command (.request (.allocate .realVector 3 [])) (some "r"),
    .command (.request (.cons (.register "r") (.handle .nil))) (some "a"),
    .command (.task .beginOutput (.register "r")) none]

/-- A copy of the list waits for the vector. -/
theorem copy_awaits_listedTask : ∃ heap result heap' log,
    called { segmentCells := 8 } listedTask (.duplicate ⟨2⟩) = .ok (heap, .ok result, heap') ∧
    heap.tasks.isPending ⟨4096⟩ = true ∧ heap'.tasks.isPending ⟨4096⟩ = false ∧
    (heap.counters.taskWaits = 0 ∧ heap'.counters.taskWaits = 1) ∧
    Heeded log ∧ (heap'.counters.taskWaits : Int) = heap.counters.taskWaits +
      log.countP Sight.isWait + (log.map Sight.inAllocation).sum ∧
    (∀ before after, .made before after ∈ log → before.ReleasesTasks after) ∧
    ∀ k pending, .read k pending ∈ log → pending = false := by
  obtain ⟨⟨heap, r, heap'⟩, hcalled, htest⟩ := except_of_test
    (x := called { segmentCells := 8 } listedTask (.duplicate ⟨2⟩))
    (p := fun p : Heap × Except HeapError Handle × Heap =>
      p.2.1.isOk && p.1.tasks.isPending ⟨4096⟩ && !p.2.2.tasks.isPending ⟨4096⟩ &&
      decide (p.1.counters.taskWaits = 0) && decide (p.2.2.counters.taskWaits = 1))
    (by decide +kernel)
  simp only [Bool.and_eq_true, Bool.not_eq_true', decide_eq_true_eq] at htest
  obtain ⟨⟨⟨⟨hok, hpending⟩, hsettled⟩, hbefore⟩, hafter⟩ := htest
  cases r with
  | error e => exact nomatch hok
  | ok result =>
    obtain ⟨ho, hrun⟩ := called_eq_ok hcalled
    obtain ⟨state, hr⟩ := reachable_of_opened rfl ho
    have hcopy : ((HostM.duplicate (Host.mute loopBound : Host Unit) ⟨2⟩).run.run ()).run heap =
        .ok ((.ok result, ()), heap') := hrun
    obtain ⟨log, -, hheeded, hwaits, -, hquiet⟩ := copies_await_outputs hcopy
    obtain ⟨hreleasesTasks, hidle⟩ := hquiet (Host.mute_releasesTasks loopBound)
    exact ⟨heap, result, heap', log, hcalled, hpending, hsettled, ⟨hbefore, hafter⟩, hheeded,
      hwaits, hreleasesTasks, hidle hr.sound⟩

/-- Steps of a session on a new heap, and a watched copy in the end. -/
def watched (config : Config) (steps : List Step) (h : Handle) :
    Except Fault (Heap × List Sight × Heap) := do
  let heap ← Heap.build config Heap.mixHash
  let ((_, state), heap) ← ((runSteps Session.host steps).run {}).run heap
  let (((_, log), _), heap') ← (((Watching.duplicate Session.host h).run.run []).run state).run heap
  return (heap, log, heap')

/-- Only a full collection makes room for another pair, and a task writes a large vector. -/
def agedGarbage : List Step :=
  [.command (.setScheduler .registry) none,
    .command (.request (.cons (.handle .nil) (.handle .nil))) (some "a"),
    .command (.preserve (.register "a")) none,
    .command (.request (.cons (.handle .nil) (.handle .nil))) (some "g"),
    .command (.preserve (.register "g")) none,
    .times 2 [.command (.collect .full) none],
    .command (.release (.register "g")) none,
    .command (.request (.allocate .realVector 200 [])) (some "l"),
    .command (.task .beginOutput (.register "l")) none,
    .times 4 [.command (.request (.cons (.handle .nil) (.handle .nil))) (some "x"),
      .command (.preserve (.register "x")) none]]

/-- Only a finalizer makes room for another pair. It begins to write the pair to be copied. -/
def meddler : List Step :=
  [.command (.setScheduler .registry) none,
    .command (.request (.cons (.handle .nil) (.handle .nil))) (some "a"),
    .command (.preserve (.register "a")) none,
    .setScript 0 [.command (.task .beginOutput (.register "a")) none] .ok,
    .command (.request (.cons (.handle .nil) (.handle .nil))) (some "k"),
    .command (.request (.nativeFinalizer (.register "k") 0 false)) none,
    .times 2 [.command (.request (.cons (.handle .nil) (.handle .nil))) (some "x"),
      .command (.preserve (.register "x")) none]]

/-- A list of two pairs. A task writes the second one. -/
def writtenTail : List Step :=
  [.command (.setScheduler .registry) none,
    .command (.request (.cons (.handle .nil) (.handle .nil))) (some "b"),
    .command (.request (.cons (.handle .nil) (.register "b"))) (some "a"),
    .command (.task .beginOutput (.register "b")) none]

/-- The number of waits may grow though no object that is copied is pending. An object may be
pending when it is read, since a finalizer began to write it after the copy had come to it; and so
may the second pair of a list. -/
theorem copies_meet_tasks :
    (∃ heap log heap',
      watched { segmentCells := 8, maxCells := some 16 } agedGarbage ⟨2⟩ = .ok (heap, log, heap') ∧
      log.countP Sight.isWait = 0 ∧ heap.tasks.isPending ⟨2⟩ = false ∧
      heap'.counters.taskWaits = heap.counters.taskWaits + 1) ∧
    (∃ heap log heap',
      watched { segmentCells := 8, maxCells := some 8 } meddler ⟨2⟩ = .ok (heap, log, heap') ∧
      heap.tasks.held = [] ∧ (⟨2⟩, true) ∈ log.filterMap Sight.looked) ∧
    ∃ heap log heap',
      watched { segmentCells := 8 } writtenTail ⟨3⟩ = .ok (heap, log, heap') ∧
      heap.tasks.isPending ⟨2⟩ = true ∧ (⟨2⟩, true) ∈ log.filterMap Sight.looked ∧
      heap'.counters.taskWaits = heap.counters.taskWaits := by
  obtain ⟨⟨heap₁, log₁, heap₁'⟩, hfirst, htest₁⟩ := except_of_test
    (x := watched { segmentCells := 8, maxCells := some 16 } agedGarbage ⟨2⟩)
    (p := fun p : Heap × List Sight × Heap => decide (p.2.1.countP Sight.isWait = 0) &&
      !p.1.tasks.isPending ⟨2⟩ &&
      decide (p.2.2.counters.taskWaits = p.1.counters.taskWaits + 1)) (by decide +kernel)
  obtain ⟨⟨heap₂, log₂, heap₂'⟩, hsecond, htest₂⟩ := except_of_test
    (x := watched { segmentCells := 8, maxCells := some 8 } meddler ⟨2⟩)
    (p := fun p : Heap × List Sight × Heap => decide (p.1.tasks.held = []) &&
      decide ((⟨2⟩, true) ∈ p.2.1.filterMap Sight.looked)) (by decide +kernel)
  obtain ⟨⟨heap₃, log₃, heap₃'⟩, hthird, htest₃⟩ := except_of_test
    (x := watched { segmentCells := 8 } writtenTail ⟨3⟩)
    (p := fun p : Heap × List Sight × Heap => p.1.tasks.isPending ⟨2⟩ &&
      decide ((⟨2⟩, true) ∈ p.2.1.filterMap Sight.looked) &&
      decide (p.2.2.counters.taskWaits = p.1.counters.taskWaits)) (by decide +kernel)
  simp only [Bool.and_eq_true, Bool.not_eq_true', decide_eq_true_eq] at htest₁ htest₂ htest₃
  exact ⟨⟨heap₁, log₁, heap₁', hfirst, htest₁.1.1, htest₁.1.2, htest₁.2⟩,
    ⟨heap₂, log₂, heap₂', hsecond, htest₂.1, htest₂.2⟩,
    heap₃, log₃, heap₃', hthird, htest₃.1.1, htest₃.1.2, htest₃.2⟩

end Session

end ManagedHeap
