import ManagedHeap.Proofs.WeakChainHistory

/-!
# A finalizer runs at most once

The history shows every call of a finalizer. A record that is called was linked before and is off
the chain at the call, so it is not called again unless it is linked again, whatever finalizers do
in between.
-/

namespace ManagedHeap

/-- What the history says of the call of a finalizer, after `front` and before `rest`. -/
structure Invocation.Once (front : List Entry) (c : Invocation) (rest : List Entry) : Prop where
  /-- The record was ready and has just been taken off the chain, where it was linked with this key
  and this finalizer. -/
  linked : ∃ past, front = past ++ [.unlinked c.record true] ∧ ∃ l ∈ Entry.chain past, l.Calls c
  chain : c.chain = (Entry.chain front).map Link.record
  off : c.record ∉ c.chain
  again : ∀ {middle last : List Entry} {c' : Invocation}, rest = middle ++ .called c' :: last →
    c'.record = c.record → ∃ e ∈ middle, e.links c.record = true
  returns : ∃ later, rest = Entry.untilReturn 0 rest ++ .returned :: later
  /-- What was alive for the finalizer is not reclaimed before it returns, as long as no scope is left
  that had been entered with fewer handles kept, and the heap is not exchanged. -/
  kept : ∀ h ∈ c.live, ∀ kind,
    .freed h kind ∉ (Entry.untilReturn 0 rest).takeWhile fun e => !e.reaches c.transient

theorem Heap.InStep.once {heap : Heap} {front rest : List Entry} {c : Invocation} (hs : heap.InStep)
    (hsplit : heap.journal.ofRecords = front ++ .called c :: rest) : c.Once front rest := by
  obtain ⟨hchain, past, rfl, l, hl, hcalls⟩ := hs.orderly.called hsplit
  obtain ⟨hreturns, hkept⟩ := (hs.completed hsplit).untilReturn
  refine ⟨⟨past, rfl, l, hl, hcalls⟩, hchain, ?_, ?_, hreturns, hkept⟩
  · rw [hchain, Entry.chain_snoc]
    intro hmem
    obtain ⟨k, hk, hrecord⟩ := List.mem_map.mp hmem
    exact bne_iff_ne.mp (List.mem_filter.mp hk).2 hrecord
  · rintro middle last c' rfl hsame
    exact hs.orderly.linked_again hsplit hsame

theorem HostM.called_runFinalizer {ω : Type} {host : Host ω} {record function key : Handle}
    {state state' : ω} {heap heap' : Heap} {u : PUnit}
    (hrun : ((runFinalizer host record function key).run state).run heap =
      .ok ((u, state'), heap')) :
    ∃ c called outcome stop, c.record = record ∧ c.key = key ∧ c.finalizer = function ∧
      called.journal.ofRecords = heap.journal.ofRecords ++ [.called c] ∧
      ((invoke host function key).run state).run called = .ok ((outcome, state'), stop) ∧
      heap'.journal.ofRecords = stop.journal.ofRecords ++ [.left c.transient, .returned] := by
  obtain ⟨opened, outcome, stop, back, hopened, hinvoke, hreturned, -, -, -, hpreservesFlags⟩ :=
    run_runFinalizer hrun
  refine ⟨opened.call record key function, _, outcome, stop, rfl, rfl, rfl, ?_, hinvoke, ?_⟩
  · subst hopened
    exact Journal.ofRecords_record
  · exact (congrArg Tally.entries hpreservesFlags.tally).trans hreturned.entries

namespace Session

variable {state : State} {heap : Heap}

/-- In every run, finalizers included, every call in the history is the only one of a record that was
ready, and it is complete. As many finalizers are counted as have returned since the heap was
opened. When all pending finalizers have been run, none is pending. -/
theorem finalizers_run_once (hr : Reachable state heap) :
    (∀ front c rest, heap.journal.ofRecords = front ++ .called c :: rest → c.Once front rest) ∧
    heap.journal.ofRecords.countP Entry.isCall = heap.journal.ofRecords.countP Entry.isReturn ∧
    heap.finalizers.run = Entry.runs heap.journal.ofRecords ∧
    heap.finalizers.running = false ∧
    (∀ levels (s s' : State) (before after : Heap) record function key u,
      ((HostM.runFinalizer (hostWithin levels) record function key).run s).run before =
        .ok ((u, s'), after) →
      ∃ c called outcome stop, c.record = record ∧ c.key = key ∧ c.finalizer = function ∧
        called.journal.ofRecords = before.journal.ofRecords ++ [.called c] ∧
        ((HostM.invoke (hostWithin levels) function key).run s).run called =
          .ok ((outcome, s'), stop) ∧
        after.journal.ofRecords = stop.journal.ofRecords ++ [.left c.transient, .returned]) ∧
    ∀ levels (s s' : State) (before after : Heap), before.Sound →
      before.finalizers.running = false →
      (∀ ran, ((HostM.runPendingFinalizers (hostWithin levels)).run s).run before =
        .ok ((ran, s'), after) → after.NoneReady) ∧
      ∀ level o, ((HostM.requestCollection (hostWithin levels) level).run s).run before =
        .ok ((o, s'), after) → after.NoneReady := by
  obtain ⟨hs, hrests⟩ := hr.inStep
  refine ⟨fun front c rest hsplit => hs.once hsplit, ?_, hs.runs, hrests,
    fun levels s s' before after record function key u hrun => HostM.called_runFinalizer hrun, ?_⟩
  · have hcount := Entry.countP_isCall (hs.balanced 0)
    rwa [Nat.zero_add, Nat.zero_add] at hcount
  · intro levels s s' before after hsound hbefore
    exact ⟨fun ran hpending => HostM.spent_runPendingFinalizers hbefore hpending,
      fun level o hrequest => HostM.spent_requestCollection hsound hbefore hrequest⟩

/-- The finalizer of a pair collects, runs pending finalizers, and fails. -/
def reentrantFinalizer : List Step :=
  [.setScript 0 [.command (.collect .full) none, .command .runPendingFinalizers none]
      (.error "failed"),
    .command (.request (.cons (.handle .nil) (.handle .nil))) (some "k"),
    .command (.request (.nativeFinalizer (.register "k") 0 false)) none,
    .command (.collect .full) none]

/-- It runs once. -/
theorem reentrantFinalizer_runs_once : ∃ start replies state heap front c rest,
    Heap.build { segmentCells := 8 } Heap.mixHash = .ok start ∧
    ((runSteps Session.host reentrantFinalizer).run {}).run start = .ok ((replies, state), heap) ∧
    state.runs.size = 1 ∧ heap.finalizers.run = 1 ∧
    heap.journal.ofRecords = front ++ .called c :: rest ∧ c.Once front rest := by
  obtain ⟨⟨start, ⟨replies, state⟩, heap⟩, hrun, htest⟩ := except_of_test
    (x := do
      let start ← Heap.build { segmentCells := 8 } Heap.mixHash
      return (start, ← ((runSteps Session.host reentrantFinalizer).run {}).run start))
    (p := fun p : Heap × (List Reply × State) × Heap => decide (p.2.1.2.runs.size = 1) &&
      decide (p.2.2.finalizers.run = 1) && p.2.2.journal.ofRecords.any Entry.isCall)
    (by decide +kernel)
  simp only [except_bind, pure, Except.pure, Except.ok.injEq, Prod.mk.injEq] at hrun
  obtain ⟨_, hbuild, _, hsteps, rfl, rfl⟩ := hrun
  simp only [Bool.and_eq_true, decide_eq_true_eq, List.any_eq_true] at htest
  obtain ⟨⟨hruns, hcount⟩, e, hmem, hcall⟩ := htest
  cases e
  case called c =>
    obtain ⟨front, rest, hsplit⟩ := List.append_of_mem hmem
    exact ⟨_, replies, state, heap, front, c, rest, hbuild, hsteps, hruns, hcount, hsplit,
      (finalizers_run_once (.runSteps (.new rfl hbuild) hsteps)).1 front c rest hsplit⟩
  all_goals exact nomatch hcall

/-- The finalizer of a pair leaves a scope that was entered before it was called, and
collects. -/
def scopeLeaver : List Step :=
  [.command (.enterScope "outer") none,
    .setScript 0 [.command (.leaveScope "outer") none, .command (.collect .full) none,
      .command (.ask .isLive (.register "key")) none] .ok,
    .command (.request (.cons (.handle .nil) (.handle .nil))) (some "k"),
    .command (.request (.nativeFinalizer (.register "k") 0 false)) none,
    .command (.collect .full) none]

def tellsReclaim : List Reply → Bool
  | [.flag true, .outcome _, .flag false] => true
  | _ => false

theorem tellsReclaim_eq_true {weakRunTriple : List Reply} (ht : tellsReclaim weakRunTriple = true) :
    ∃ o, weakRunTriple = [.flag true, .outcome o, .flag false] := by
  unfold tellsReclaim at ht
  split at ht <;> simp_all

/-- The scope takes back what keeps the key alive: the key is alive when the finalizer is
called, and dead before it returns. -/
theorem scopeLeaver_reclaims_key : ∃ start replies state heap run o,
    Heap.build { segmentCells := 8 } Heap.mixHash = .ok start ∧
    ((runSteps Session.host scopeLeaver).run {}).run start = .ok ((replies, state), heap) ∧
    state.runs.toList = [run] ∧ run.key = ⟨2⟩ ∧ run.live = true ∧
    run.replies = some [.flag true, .outcome o, .flag false] := by
  obtain ⟨⟨start, ⟨replies, state⟩, heap⟩, hrun, htest⟩ := except_of_test
    (x := do
      let start ← Heap.build { segmentCells := 8 } Heap.mixHash
      return (start, ← ((runSteps Session.host scopeLeaver).run {}).run start))
    (p := fun p : Heap × (List Reply × State) × Heap =>
      p.2.1.2.runs.toList.length == 1 && p.2.1.2.runs.toList.all fun run =>
        decide (run.key = ⟨2⟩) && run.live && run.replies.any tellsReclaim) (by decide +kernel)
  simp only [except_bind, pure, Except.pure, Except.ok.injEq, Prod.mk.injEq] at hrun
  obtain ⟨_, hbuild, _, hsteps, rfl, rfl⟩ := hrun
  rw [Bool.and_eq_true, beq_iff_eq, List.length_eq_one_iff] at htest
  obtain ⟨⟨run, hruns⟩, hall⟩ := htest
  replace hruns : state.runs.toList = [run] := hruns
  simp only [hruns, List.all_cons, List.all_nil, Bool.and_true, Bool.and_eq_true,
    decide_eq_true_eq, Option.any_eq_true] at hall
  obtain ⟨⟨hkey, hlive⟩, weakRunTriple, hreplies, hhasWeakRun⟩ := hall
  obtain ⟨o, rfl⟩ := tellsReclaim_eq_true hhasWeakRun
  exact ⟨_, replies, state, heap, run, o, hbuild, hsteps, hruns, hkey, hlive, hreplies⟩

end Session

end ManagedHeap
