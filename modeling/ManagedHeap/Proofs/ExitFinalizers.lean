import ManagedHeap.Proofs.FinalizerRuns

/-!
# Finalizers that run on exit

When a heap ends, the records that are to be finalized on exit become ready, and the ready
records are finalized until none is left. So every finalizer that was registered for the exit before
has been called by then, be it that its key died earlier. This is done only once for a heap: it says
nothing of what is registered afterwards.
-/

namespace ManagedHeap

namespace Heap

variable {heap mid heap' : Heap} {r : Handle}

theorem PreservesFlags.ready (hpreservesFlags : heap.PreservesFlags heap') (hready : heap.arena.Ready r) :
    heap'.arena.Ready r := by
  obtain ⟨c, hc, hflag⟩ := hready
  obtain ⟨d, hd, -⟩ := hpreservesFlags.kept hc
  exact ⟨d, hd, (hpreservesFlags.flags hc hd).1 hflag⟩

theorem PreservesFlags.exits (hpreservesFlags : heap.PreservesFlags heap') (hexits : heap.arena.Exits r) :
    heap'.arena.Exits r := by
  obtain ⟨c, hc, hflag⟩ := hexits
  obtain ⟨d, hd, -⟩ := hpreservesFlags.kept hc
  exact ⟨d, hd, (hpreservesFlags.flags hc hd).2 hflag⟩

end Heap

def Flags.due (fs : Flags) : Flags :=
  { fs with readyToFinalize := fs.readyToFinalize || fs.finalizeOnExit }

theorem HeapM.readies_flagOnExit {records : List Handle} {heap heap' : Heap} {u : PUnit}
    (hrun : (flagOnExit records).run heap = .ok (u, heap')) :
    ∀ r ∈ records, heap.arena.Exits r → heap'.arena.Ready r := by
  induction records generalizing heap with
  | nil => exact fun _ hr => absurd hr List.not_mem_nil
  | cons k ks ih =>
    obtain ⟨_, mid, hflag, hrest⟩ := run_bind.mp hrun
    have hfirst : PreservesRecords (updateCell k (Cell.mapFlags Flags.due)) :=
      .updateCell (fun _ => rfl) (fun _ => rfl)
        fun c => ⟨fun hready => (Bool.or_eq_true _ _).mpr (.inl hready), id⟩
    intro r hr hexits
    rcases List.mem_cons.mp hr with rfl | hr
    · refine (PreservesRecords.flagOnExit ks _ _ _ hrest).ready ?_
      obtain ⟨c, hc, hflagged⟩ := hexits
      obtain ⟨-, rfl⟩ := run_updateCell.mp hflag
      refine ⟨c.mapFlags Flags.due, ?_, (Bool.or_eq_true _ _).mpr (.inr hflagged)⟩
      change (heap.arena.setCell r (Cell.mapFlags Flags.due)).get? r = _
      rw [Arena.get?_setCell (f := Cell.mapFlags Flags.due) fun _ => rfl, if_pos rfl, hc,
        Option.map_some]
    · exact ih hrest r hr ((hfirst _ _ _ hflag).exits hexits)

namespace HostM

variable {ω : Type} {host : Host ω} {state state' : ω} {heap heap' : Heap}

theorem run_runExitFinalizers {ran : Nat} (hopen : heap.finalizers.exitDone = false)
    (hrun : ((runExitFinalizers host).run state).run heap = .ok ((ran, state'), heap')) :
    ∃ records flagged stop, heap.arena.weakRecords heap.weak = .ok records ∧
      (HeapM.flagOnExit records).run heap = .ok (⟨⟩, flagged) ∧
      ((runPendingFinalizers host).run state).run flagged = .ok ((ran, state'), stop) ∧
      stop.PreservesFlags heap' ∧ heap'.arena = stop.arena ∧ heap'.weak = stop.weak := by
  rw [runExitFinalizers] at hrun
  obtain ⟨now, first, mid, hget, hrest⟩ := run_bindM.mp hrun
  obtain ⟨rfl, hnow⟩ := run_liftM.mp hget
  obtain ⟨rfl, rfl⟩ := run_get.mp hnow
  rw [if_neg (by rw [hopen]; exact Bool.false_ne_true)] at hrest
  obtain ⟨records, second, walked, hwalk, hflag⟩ := run_bindM.mp hrest
  obtain ⟨rfl, hwalked⟩ := run_liftM.mp hwalk
  obtain ⟨hrecords, rfl⟩ := HeapM.run_weakRecords.mp hwalked
  obtain ⟨_, third, flagged, hflags, hpending⟩ := run_bindM.mp hflag
  obtain ⟨rfl, hflagged⟩ := run_liftM.mp hflags
  obtain ⟨count, fourth, stop, hran, hend⟩ := run_bindM.mp hpending
  obtain ⟨_, fifth, done, hdone, hlast⟩ := run_bindM.mp hend
  obtain ⟨rfl, hmodify⟩ := run_liftM.mp hdone
  obtain ⟨_, sixth, noted, hnote, hanswer⟩ := run_bindM.mp hlast
  obtain ⟨rfl, hnoted⟩ := run_liftM.mp hnote
  obtain ⟨hsame, rfl⟩ := run_pure.mp hanswer
  obtain ⟨rfl, rfl⟩ := Prod.mk.inj hsame
  obtain rfl := run_modify.mp hmodify
  obtain rfl := run_modify.mp hnoted
  exact ⟨records, flagged, stop, hrecords, hflagged, hran, .aside rfl rfl rfl rfl, rfl, rfl⟩

theorem leads_runExitFinalizers {ran : Nat} (hhost : host.HasWeakRun) (hs : heap.Sound)
    (hread : heap.Readable) (hrests : heap.finalizers.running = false)
    (hopen : heap.finalizers.exitDone = false)
    (hrun : ((runExitFinalizers host).run state).run heap = .ok ((ran, state'), heap')) :
    ∃ flagged t u, WeakRun.Leads t heap flagged ∧ WeakRun.Leads u flagged heap' ∧ heap'.NoneReady ∧
      ∀ records r, heap.Chain records → r ∈ records → heap.arena.Exits r →
        flagged.arena.Ready r := by
  obtain ⟨listed, flagged, stop, hlisted, hflag, hpending, hpreservesFlags, harena, hweak⟩ :=
    run_runExitFinalizers hopen hrun
  have hfirst := HeapM.PreservesRecords.flagOnExit listed _ _ _ hflag
  obtain ⟨records, hrecords⟩ := hread
  obtain ⟨t, ht⟩ : heap.Evolves flagged := .of_preservesFlags hfirst
  obtain ⟨-, hevolves⟩ := (HasWeakRun.runPendingFinalizers hhost).run
    ⟨records, hfirst.chain hrecords⟩ (HeapM.Safe.flagOnExit listed _ _ _ hs hflag) hpending
  obtain ⟨u, hu⟩ := hevolves.trans (.of_preservesFlags hpreservesFlags)
  refine ⟨flagged, t, u, ht, hu, ?_, ?_⟩
  · intro rs hrs
    rw [harena, hweak] at hrs
    rw [harena]
    exact spent_runPendingFinalizers (ht.rests hrests) hpending rs hrs
  · intro rs r hrs hr hexits
    obtain rfl := Except.ok.inj (hrs.listed.symm.trans hlisted)
    exact HeapM.readies_flagOnExit hflag r hr hexits

theorem calls_runExitFinalizers {ran : Nat} (hhost : host.HasWeakRun) (hs : heap.Sound)
    (hin : heap.InStep) (hrests : heap.finalizers.running = false)
    (hopen : heap.finalizers.exitDone = false)
    (hrun : ((runExitFinalizers host).run state).run heap = .ok ((ran, state'), heap')) :
    heap'.NoneReady ∧ ∃ new, heap'.journal.ofRecords = heap.journal.ofRecords ++ new ∧
      ∀ front l rest, heap.journal.ofRecords = front ++ .linked l :: rest → l.onExit = true →
        l.finalizer ≠ .nil → (∀ config, .opened config ∉ rest ++ new) →
        ∃ c, l.Calls c ∧ ((rest ++ new).takeWhile fun e => !e.links l.record).filter
          (Entry.calls l.record) = [.called c] := by
  obtain ⟨flagged, t, u, ht, hu, hnoneReady, hready⟩ :=
    leads_runExitFinalizers hhost hs ⟨_, hin.linked.chain⟩ hrests hopen hrun
  have hflagged := hin.leads ht
  have hlast := hflagged.leads hu
  have hentries := WeakRun.ofRecords_of_follows (ht.append hu).follows
  refine ⟨hnoneReady, _, hentries, fun front l rest hsplit honExit hfinalizer hsame => ?_⟩
  have hwhole : heap'.journal.ofRecords = front ++ .linked l :: (rest ++ WeakRun.entries (t ++ u)) := by
    rw [hentries, hsplit, List.append_assoc, List.cons_append]
  refine hlast.orderly.calls_once hwhole hsame ?_ hfinalizer
  -- a record that nothing takes off the chain is ready in the end, but none is
  by_contra hnone
  rw [WeakRun.entries_append] at hsame hnone
  have hstays : ∀ es, es <+: rest ++ (t.entries ++ u.entries) →
      l ∈ Entry.chain (front ++ .linked l :: es) := by
    intro es hes
    rw [List.append_cons]
    refine Entry.mem_chain_append (Entry.chain_snoc ▸ List.mem_cons_self) fun e he => ⟨?_, ?_⟩
    · rintro config rfl
      exact hsame config (hes.subset he)
    · rintro ready rfl
      exact hnone ⟨ready, hes.subset he⟩
  have hmem : l ∈ Entry.chain heap.journal.ofRecords := by
    rw [hsplit]
    exact hstays rest (List.prefix_append _ _)
  have hmid : l ∈ Entry.chain flagged.journal.ofRecords := by
    rw [WeakRun.ofRecords_of_follows ht.follows, hsplit, List.append_assoc, List.cons_append]
    exact hstays _ (List.append_assoc .. ▸ List.prefix_append _ _)
  have hend : l ∈ Entry.chain heap'.journal.ofRecords := by
    rw [hwhole, WeakRun.entries_append]
    exact hstays _ (List.prefix_refl _)
  have hexits := (hin.linked.has l hmem).exits honExit
  have hkeepsRecord := WeakRun.keepsRecord_of_linked hu.follows hu.keepsRecordsThroughout hflagged.linked hmid fun e he => ⟨?_, ?_⟩
  · exact hnoneReady _ hlast.linked.chain.listed l.record (List.mem_map_of_mem hend) (hkeepsRecord.ready
      (hready _ l.record hin.linked.chain (List.mem_map_of_mem hmem) hexits))
  · rintro config rfl
    exact hsame config (List.mem_append_right _ (List.mem_append_right _ he))
  · rintro ready rfl
    exact hnone ⟨ready, List.mem_append_right _ (List.mem_append_right _ he)⟩

end HostM

namespace Session

variable {state state' : State} {heap heap' : Heap}

/-- The run of finalizers that ends a heap, if it is the first one. Whatever a session did before, in
finalizers too, every finalizer that was linked for the exit at some moment of the history is called
once after that moment, before its record is linked again and before the run is complete, unless the
heap is exchanged. A registration is the last link of the history, with its key, its finalizer, and
the flag for the exit if that was asked for. -/
theorem exit_finalizers_run_once {levels ran : Nat} (hr : Reachable state heap)
    (hopen : heap.finalizers.exitDone = false)
    (hrun : ((HostM.runExitFinalizers (hostWithin levels)).run state).run heap =
      .ok ((ran, state'), heap')) :
    heap'.NoneReady ∧
    (∃ new, heap'.journal.ofRecords = heap.journal.ofRecords ++ new ∧
      ∀ front l rest, heap.journal.ofRecords = front ++ .linked l :: rest → l.onExit = true →
        l.finalizer ≠ .nil → (∀ config, .opened config ∉ rest ++ new) →
        ∃ c, l.Calls c ∧ ((rest ++ new).takeWhile fun e => !e.links l.record).filter
          (Entry.calls l.record) = [.called c]) ∧
    ∀ levels (s s' : State) (before after : Heap) r key onExit, before.Sound → before.Readable →
      (∀ value function, (((HostM.makeWeakRef (hostWithin levels) key value function
          onExit).run).run s).run before = .ok ((.ok r, s'), after) →
        after.LinkedInFront before.journal.ofRecords r key value function onExit) ∧
      ∀ finalizer : HostM.Finalizer, (((HostM.registerFinalizer (hostWithin levels) key finalizer
          onExit).run).run s).run before = .ok ((.ok r, s'), after) →
        ∃ function, finalizer.Carried function ∧
          after.LinkedInFront before.journal.ofRecords r key .nil function onExit := by
  obtain ⟨hin, hrests⟩ := hr.inStep
  obtain ⟨hnoneReady, hcalls⟩ := HostM.calls_runExitFinalizers (hostWithin_hasWeakRun levels) hr.sound hin
    hrests hopen hrun
  refine ⟨hnoneReady, hcalls, fun levels s s' before after r key onExit hs hread => ⟨?_, ?_⟩⟩
  · intro value function hmake
    exact ((HostM.makeWeakRef_weakRunTriple (hostWithin_hasWeakRun levels) before.journal.ofRecords).run.run
      hread ⟨hs, List.prefix_refl _⟩ hmake).1.2
  · intro finalizer hregister
    exact ((HostM.registerFinalizer_weakRunTriple (hostWithin_hasWeakRun levels) before.journal.ofRecords).run.run
      hread ⟨hs, List.prefix_refl _⟩ hregister).1.2

/-- A pair that is kept for good has a finalizer that runs on exit. -/
def farewell : List Step :=
  [.command (.request (.cons (.handle .nil) (.handle .nil))) (some "k"),
    .command (.preserve (.register "k")) none,
    .command (.request (.nativeFinalizer (.register "k") 0 true)) none]

def isFarewell : Entry → Bool
  | .linked l => l.onExit && l.finalizer != .nil
  | _ => false

/-- The finalizer runs when the heap ends. -/
theorem farewell_runs_once : ∃ first replies state heap ran state' heap' front l rest new c,
    Heap.build { segmentCells := 8 } Heap.mixHash = .ok first ∧
    ((runSteps Session.host farewell).run {}).run first = .ok ((replies, state), heap) ∧
    heap.finalizers.exitDone = false ∧
    ((HostM.runExitFinalizers Session.host).run state).run heap = .ok ((ran, state'), heap') ∧
    ran = 1 ∧ state'.runs.size = 1 ∧ heap'.NoneReady ∧
    heap.journal.ofRecords = front ++ .linked l :: rest ∧ l.onExit = true ∧ l.finalizer ≠ .nil ∧
    heap'.journal.ofRecords = heap.journal.ofRecords ++ new ∧
    (∀ config, .opened config ∉ rest ++ new) ∧ l.Calls c ∧
    ((rest ++ new).takeWhile fun e => !e.links l.record).filter (Entry.calls l.record) =
      [.called c] := by
  obtain ⟨⟨first, ⟨replies, state⟩, heap, ⟨ran, state'⟩, heap'⟩, hall, htest⟩ := except_of_test
    (x := do
      let first ← Heap.build { segmentCells := 8 } Heap.mixHash
      let before ← ((runSteps Session.host farewell).run {}).run first
      let last ← ((HostM.runExitFinalizers Session.host).run before.1.2).run before.2
      return (first, before.1, before.2, last))
    (p := fun p : Heap × (List Reply × State) × Heap × (Nat × State) × Heap =>
      !p.2.2.1.finalizers.exitDone && p.2.2.2.1.1 == 1 && p.2.2.2.1.2.runs.size == 1 &&
        p.2.2.1.journal.ofRecords.any isFarewell &&
        (p.2.2.2.2.journal.ofRecords.drop 1).all (!·.reaches 0)) (by decide +kernel)
  simp only [except_bind, pure, Except.pure, Except.ok.injEq, Prod.mk.injEq] at hall
  obtain ⟨_, hbuild, ⟨⟨_, _⟩, _⟩, hsteps, ⟨⟨_, _⟩, _⟩, hrun, rfl, ⟨rfl, rfl⟩, rfl, ⟨rfl, rfl⟩,
    rfl⟩ := hall
  simp only [Bool.and_eq_true, Bool.not_eq_true', beq_iff_eq, List.any_eq_true, List.all_eq_true]
    at htest
  obtain ⟨⟨⟨⟨hopen, rfl⟩, hruns⟩, e, hmem, hfarewell⟩, hsame⟩ := htest
  obtain ⟨hnoneReady, ⟨new, hnew, hcalls⟩, -⟩ :=
    exit_finalizers_run_once (.runSteps (.new rfl hbuild) hsteps) hopen hrun
  cases e
  case linked l =>
    obtain ⟨honExit, hfinalizer⟩ := (Bool.and_eq_true ..).mp hfarewell
    obtain ⟨front, rest, hsplit⟩ := List.append_of_mem hmem
    have hopened : ∀ config, .opened config ∉ rest ++ new := by
      intro config hconfig
      have hlater : .opened config ∈ (heap'.journal.ofRecords).drop 1 := by
        rw [hnew, hsplit, List.append_assoc, List.cons_append]
        cases front with
        | nil => exact hconfig
        | cons => exact List.mem_append_right _ (List.mem_cons_of_mem _ hconfig)
      exact nomatch hsame _ hlater
    obtain ⟨c, hc, honce⟩ := hcalls front l rest hsplit honExit (bne_iff_ne.mp hfinalizer) hopened
    exact ⟨_, _, _, _, _, _, _, front, l, rest, new, c, hbuild, hsteps, hopen, hrun, rfl, hruns,
      hnoneReady, hsplit, honExit, bne_iff_ne.mp hfinalizer, hnew, hopened, hc, honce⟩
  all_goals exact nomatch hfarewell

end Session

end ManagedHeap
