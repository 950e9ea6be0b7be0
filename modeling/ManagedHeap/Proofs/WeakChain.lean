import ManagedHeap.Proofs.FinalizerRuns
import ManagedHeap.Proofs.WeakChainAborts

/-!
# The chain of weak records stays whole

In every heap that a session passes through, in finalizers too, the chain leads through the
records that were linked and not taken off since. What a record refers to lives on with it. Only a
finalizer that goes on with another heap lets a pass look for its next record where it is not.
-/

namespace ManagedHeap

/-- The chain of weak records is whole, and as the history says. -/
structure Heap.ChainIntact (heap : Heap) : Prop where
  sound : heap.Sound
  linked : heap.ChainHolds (Entry.chain heap.journal.ofRecords)
  orderly : Entry.Orderly heap.journal.ofRecords

theorem Heap.Sound.kind_of_record {heap : Heap} {r : Handle} {records : List Handle}
    (hs : heap.Sound) (hc : heap.Chain records) (hr : r ∈ records) :
    ∃ c, heap.arena.get? r = some c ∧ c.kind = .weakRef := by
  obtain ⟨-, f, hf⟩ := hc.record hr
  obtain ⟨c, hcell, hp⟩ := Heap.fieldsOf_eq_some.mp hf
  have hsuits := (hs.proper hcell).suits
  rw [hp] at hsuits
  exact ⟨c, hcell, by cases hk : c.kind <;> simp_all [Payload.suits]⟩

namespace Heap.ChainIntact

variable {heap heap' : Heap} {c : Invocation} {l : Link}

theorem readable (ht : heap.ChainIntact) : heap.Readable := ⟨_, ht.linked.chain⟩

theorem evolves (ht : heap.ChainIntact) (hs : heap'.Sound) (he : heap.Evolves heap') :
    heap'.ChainIntact := by
  obtain ⟨t, hleads⟩ := he
  obtain ⟨hlinked, horderly⟩ :=
    WeakRun.orderly hleads.follows hleads.keepsRecordsThroughout ht.linked ht.orderly
  have hentries := WeakRun.ofRecords_of_follows hleads.follows
  exact ⟨hs, hentries ▸ hlinked, hentries ▸ horderly⟩

theorem called (ht : heap.ChainIntact) (hs : heap'.Sound) (hd : heap.Performs heap' (.called c))
    (hm : heap.KeepsRecords heap') : heap'.ChainIntact :=
  ⟨hs, hd.entries ▸ hd.linked hm ht.linked, hd.entries ▸ hd.orderly hm ht.linked ht.orderly⟩

theorem kind_of_link (ht : heap.ChainIntact) (hl : l ∈ Entry.chain heap.journal.ofRecords) :
    ∃ c, heap.arena.get? l.record = some c ∧ c.kind = .weakRef :=
  ht.sound.kind_of_record ht.linked.chain (List.mem_map_of_mem hl)

end Heap.ChainIntact

namespace Session

variable {state : State} {heap : Heap}

/-- The chain of weak records, in every run. In every heap that a session reaches the chain is whole, and so it is in
every heap in which a finalizer begins and every heap that a step of its script leaves. A record that
is made stands in front of the chain, and every record can be taken off it, with any record of the
chain or none for a hint. No step shows a broken chain if finalizers do not go on with another
heap. -/
theorem weak_chain_intact (hr : Reachable state heap) :
    heap.ChainIntact ∧
    (∀ l ∈ Entry.chain heap.journal.ofRecords,
      ∃ c, heap.arena.get? l.record = some c ∧ c.kind = .weakRef) ∧
    (∀ before : Heap, before.ChainIntact →
      (∀ levels step s s' reply after,
        ((runStep (hostWithin levels) step).run s).run before = .ok ((reply, s'), after) →
        after.ChainIntact ∧ before.journal.ofRecords <+: after.journal.ofRecords) ∧
      (∀ levels (s s' : State) after l hint, l ∈ Entry.chain before.journal.ofRecords →
        l.finalizer ≠ .nil → before.arena.Ready l.record →
        ((liftM (HeapM.unlinkWeakRef l.record hint) >>= fun _ =>
          HostM.runFinalizer (hostWithin levels) l.record l.finalizer l.key).run s).run before =
            .ok ((⟨⟩, s'), after) →
        ∃ c called outcome stop, called.ChainIntact ∧ called.journal.ofRecords =
            before.journal.ofRecords ++ [.unlinked l.record true, .called c] ∧ l.Calls c ∧
          ((HostM.invoke (hostWithin levels) l.finalizer l.key).run s).run called =
            .ok ((outcome, s'), stop)) ∧
      (∀ levels (s s' : State) after key onExit r,
        (∀ value function, (((HostM.makeWeakRef (hostWithin levels) key value function
            onExit).run).run s).run before = .ok ((.ok r, s'), after) →
          after.ChainIntact ∧
            after.LinkedInFront before.journal.ofRecords r key value function onExit) ∧
        ∀ finalizer : HostM.Finalizer, (((HostM.registerFinalizer (hostWithin levels) key finalizer
            onExit).run).run s).run before = .ok ((.ok r, s'), after) →
          after.ChainIntact ∧ ∃ function, finalizer.Carried function ∧
            after.LinkedInFront before.journal.ofRecords r key .nil function onExit) ∧
      ∀ records record hint, before.Chain records → record ∈ records →
        (hint = .nil ∨ hint ∈ records) → ∃ after,
          (HeapM.unlinkWeakRef record hint).run before = .ok (⟨⟩, after) ∧
          after.Chain (records.erase record) ∧ after.fieldsOf record = some .empty) ∧
    ∀ levels step e, state.Obeys (Stays False) → step.Obeys (Stays True) (Stays False) →
      ((runStep (hostWithin levels) step).run state).run heap = .error e → e.OffChain := by
  obtain ⟨hin, hrests⟩ := hr.inStep
  have hchainIntact : heap.ChainIntact := ⟨hr.sound, hin.linked, hin.orderly⟩
  refine ⟨hchainIntact, fun l hl => hchainIntact.kind_of_link hl, fun before ht => ⟨?_, ?_, ?_, ?_⟩, ?_⟩
  · intro levels step s s' reply after hrun
    obtain ⟨hs, hevolves⟩ :=
      (runStep_hasWeakRun (hostWithin_hasWeakRun levels) step).run ht.readable ht.sound hrun
    exact ⟨ht.evolves hs hevolves, hevolves.extends_ofRecords⟩
  · intro levels s s' after l hint hl hfinalizer hready hrun
    obtain ⟨hne, f, hf⟩ := ht.linked.chain.record (List.mem_map_of_mem hl)
    obtain ⟨hkey, -, hfunction⟩ := (ht.linked.has l hl).watched hf
    rw [← hkey, ← hfunction] at hrun
    obtain ⟨c, called, outcome, stop, -, hrecord, hs, hcalled, hkeepsRecords, -, hinvoke, -⟩ :=
      HostM.run_finalize ht.sound hne (hfunction ▸ hfinalizer) hf hready hrun
    obtain ⟨⟨g, hbegins⟩, -, -⟩ := id hcalled
    rw [hkey, hfunction] at hinvoke
    exact ⟨c, called, outcome, stop, ht.called hs hcalled hkeepsRecords, hrecord ▸ hcalled.entries,
      hbegins.calls (ht.linked.has l hl) hrecord, hinvoke⟩
  · intro levels s s' after key onExit r
    have hpast := List.prefix_refl before.journal.ofRecords
    refine ⟨fun value function hmake => ?_, fun finalizer hregister => ?_⟩
    · obtain ⟨⟨hs, hend⟩, hevolves⟩ := (HostM.makeWeakRef_weakRunTriple (hostWithin_hasWeakRun levels)
        before.journal.ofRecords).run.run ht.readable ⟨ht.sound, hpast⟩ hmake
      exact ⟨ht.evolves hs hevolves, hend⟩
    · obtain ⟨⟨hs, hend⟩, hevolves⟩ := (HostM.registerFinalizer_weakRunTriple (hostWithin_hasWeakRun levels)
        before.journal.ofRecords).run.run ht.readable ⟨ht.sound, hpast⟩ hregister
      exact ⟨ht.evolves hs hevolves, hend⟩
  · exact fun records record hint hc hmem hhint => HeapM.ends_unlinkWeakRef ht.sound hc hmem hhint
  · intro levels step e hscripts hstep hrun
    have hon : HostM.On (.unbroken (State.Obeys (Stays False))) (Resting True)
        (runStep (hostWithin levels) step) fun _ => Resting True :=
      runStep_resting (hostWithin_safe levels) (hostWithin_unbroken levels) hstep
    exact (hon state hscripts heap hchainIntact.readable ⟨hr.sound, fun _ => hrests⟩ heap rfl).1 e hrun

/-- The finalizer of a pair makes a record for another one, and collects. -/
def linkingFinalizer : List Step :=
  [.command (.request (.cons (.handle .nil) (.handle .nil))) (some "p"),
    .command (.preserve (.register "p")) none,
    .setScript 0 [.command (.request (.weakRef (.register "p") (.handle .nil) (.handle .nil) false))
      none, .command (.collect .full) none] .ok,
    .command (.request (.cons (.handle .nil) (.handle .nil))) (some "k"),
    .command (.request (.nativeFinalizer (.register "k") 0 false)) none,
    .command (.collect .full) none]

/-- The record that the finalizer made is on the chain, and the one that was finalized is not. -/
theorem weak_chain_intact_linkingFinalizer : ∃ heap,
    opened { segmentCells := 8 } linkingFinalizer = .ok heap ∧
    heap.finalizers.run = 1 ∧ heap.weak.length = 1 ∧ heap.ChainIntact := by
  obtain ⟨heap, ho, htest⟩ := except_of_test
    (x := opened { segmentCells := 8 } linkingFinalizer)
    (p := fun heap => decide (heap.finalizers.run = 1 ∧ heap.weak.length = 1)) (by decide +kernel)
  obtain ⟨hrun, hlength⟩ := of_decide_eq_true htest
  obtain ⟨state, hr⟩ := reachable_of_opened rfl ho
  exact ⟨heap, ho, hrun, hlength, (weak_chain_intact hr).1⟩

/-- A finalizer is pending that leaves a scope, entered before, and collects. A pair is kept by
nothing, and no cell is left. -/
def scopeLeaverBeforeLink : List Step :=
  [.command (.request (.cons (.handle .nil) (.handle .nil))) (some "a"),
    .command (.preserve (.register "a")) none,
    .command (.request (.cons (.handle .nil) (.handle .nil))) (some "b"),
    .command (.preserve (.register "b")) none,
    .command (.enterScope "outer") none,
    .setScript 0 [.command (.leaveScope "outer") none, .command (.collect .full) none] .ok,
    .command (.request (.cons (.handle .nil) (.handle .nil))) (some "x"),
    .command (.request (.cons (.handle .nil) (.handle .nil))) (some "k"),
    .command (.request (.nativeFinalizer (.register "k") 0 false)) none]

/-- Two records have a finalizer that goes on with another heap and fills it with pairs. -/
def heapChanger : List Step :=
  [.setScript 0 [.command .replaceHeap none,
      .times 8 [.command (.request (.cons (.handle .nil) (.handle .nil))) none]] .ok,
    .command (.request (.cons (.handle .nil) (.handle .nil))) (some "k"),
    .command (.request (.nativeFinalizer (.register "k") 0 false)) none,
    .command (.request (.nativeFinalizer (.register "k") 0 false)) none,
    .command (.collect .full) none]

def stopsAtOther {α : Type} (h : Handle) : Except Fault α → Bool
  | .error (.chainHoldsOther k) => k == h
  | _ => false

theorem stopsAtOther_eq_true {α : Type} {h : Handle} {x : Except Fault α}
    (hx : stopsAtOther h x = true) : x = .error (.chainHoldsOther h) := by
  unfold stopsAtOther at hx
  split at hx
  · rw [eq_of_beq hx]
  · cases hx

/-- A record that is made for a pair that is alive stands on the chain with a dead key, since a
finalizer took back what kept the pair meanwhile. And a finalizer that goes on with another heap
leaves the pass that called it with a link into the old one. -/
theorem weak_chain_broken :
    (∃ start replies state mid state' heap r f,
      Heap.build { segmentCells := 8, maxCells := some 8 } Heap.mixHash = .ok start ∧
      ((runSteps Session.host scopeLeaverBeforeLink).run {}).run start =
        .ok ((replies, state), mid) ∧ mid.arena.contains ⟨4⟩ = true ∧
      ((HostM.makeWeakRef Session.host ⟨4⟩ .nil .nil false).run.run state).run mid =
        .ok ((.ok r, state'), heap) ∧
      heap.weak.head = r ∧ heap.fieldsOf r = some f ∧ f.key = ⟨4⟩ ∧
      heap.arena.contains ⟨4⟩ = false) ∧
    ∃ start, Heap.build { segmentCells := 8 } Heap.mixHash = .ok start ∧
      ((runSteps Session.host heapChanger).run {}).run start = .error (.chainHoldsOther ⟨4⟩) := by
  constructor
  · obtain ⟨⟨_, ⟨replies, state⟩, mid, ⟨r, state'⟩, heap⟩, hall, htest⟩ := except_of_test
      (x := do
        let start ← Heap.build { segmentCells := 8, maxCells := some 8 } Heap.mixHash
        let first ← ((runSteps Session.host scopeLeaverBeforeLink).run {}).run start
        let last ← ((HostM.makeWeakRef Session.host ⟨4⟩ .nil .nil false).run.run first.1.2).run
          first.2
        return (start, first.1, first.2, last))
      (p := fun p : Heap × (List Reply × State) × Heap × (Except HeapError Handle × State) ×
          Heap => p.2.2.1.arena.contains ⟨4⟩ &&
        p.2.2.2.1.1.toOption == some p.2.2.2.2.weak.head &&
        (p.2.2.2.2.fieldsOf p.2.2.2.2.weak.head).any (·.key == ⟨4⟩) &&
        !p.2.2.2.2.arena.contains ⟨4⟩) (by decide +kernel)
    simp only [except_bind, pure, Except.pure, Except.ok.injEq, Prod.mk.injEq] at hall
    obtain ⟨start, hbuild, ⟨⟨replies, state⟩, mid⟩, hsteps, _, hlast, rfl, hfirst, rfl, rfl⟩ := hall
    obtain ⟨rfl, rfl⟩ := Prod.mk.inj hfirst
    simp only [Bool.and_eq_true, Option.any_eq_true, Bool.not_eq_true', beq_iff_eq] at htest
    obtain ⟨⟨⟨hbefore, hmade⟩, f, hf, hkey⟩, hafter⟩ := htest
    obtain rfl := eq_ok_of_toOption hmade
    exact ⟨start, replies, state, mid, state', heap, _, f, hbuild, hsteps, hbefore, hlast, rfl,
      hf, hkey, hafter⟩
  · obtain ⟨start, hbuild, htest⟩ := except_of_test
      (x := Heap.build { segmentCells := 8 } Heap.mixHash)
      (p := fun start => stopsAtOther ⟨4⟩ (((runSteps Session.host heapChanger).run {}).run start))
      (by decide +kernel)
    exact ⟨start, hbuild, stopsAtOther_eq_true htest⟩

end Session

end ManagedHeap
