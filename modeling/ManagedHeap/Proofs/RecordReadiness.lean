import ManagedHeap.Proofs.NeededObjects

/-!
# Weak records with reachable keys

A record becomes ready to be finalized if the marking does not reach its key. Where names are
not followed, this happens to a record whose key is the name of a symbol, although the sweep
keeps the name.
-/

namespace ManagedHeap

/-- A collection flags a record whose key is reachable just if the key is a name that the
collection covers, and the collection neither follows names nor reaches the key otherwise. -/
theorem collect_readies_reached_iff {state : Session.State} {heap heap' : Heap} {level : Level}
    {reason : Reason} {o : Outcome} (hr : Session.Reachable state heap)
    (hrun : (HeapM.collect level reason).run heap = .ok (o, heap')) :
    ∃ quiet records, (HeapM.quiesce level).run heap = .ok ((), quiet) ∧
      heap.arena.weakRecords heap.weak = .ok records ∧
      ∀ r ∈ records, ∀ f, heap.arena.Record r f → ¬ heap.arena.Ready r →
        heap.ReachedFrom (heap.Root quiet.tasks) f.key →
        (heap'.arena.Ready r ↔ level.index < heap.config.nameMarkLevel ∧
          ∃ c, heap.arena.get? f.key = some c ∧ c.IsName ∧ level.sweeps c = true ∧
            ¬ heap.Retains level records f.key) := by
  have hs := hr.sound
  obtain ⟨records, hcol⟩ := HeapM.collect_collected hs hrun
  obtain ⟨waits, hquiet⟩ := HeapM.run_quiesce level heap
  refine ⟨_, records, hquiet, hcol.chain, ?_⟩
  intro r hmem f hf hnot hreached
  rw [hcol.readied_iff hmem hf hnot]
  constructor
  · intro hdead
    obtain ⟨c, hc, hsaves⟩ :=
      (heap.closedUnderMarking_retains level records).saves_reached hs hcol.chain hreached
    have hlive := (Arena.get?_eq_some.mp hc).2
    have hswept : level.sweeps c = true := by
      by_contra hout
      refine hdead (.inr ⟨c, hc, ?_⟩)
      by_contra hcovered
      exact hout ((Scan.sweeps_iff (s := heap.scan level) hlive).mpr (by simpa using hcovered))
    rcases hsaves with hout | hretained | ⟨hnames, hname⟩
    · rw [hswept] at hout
      cases hout
    · exact absurd (.inl hretained) hdead
    · refine ⟨?_, c, hc, hname, hswept, fun hretained => hdead (.inl hretained)⟩
      simpa [Heap.scan] using hnames
  · rintro ⟨-, c, hc, -, hswept, hunmarked⟩ (hretained | ⟨d, hd, hspares⟩)
    · exact hunmarked hretained
    · rw [hc, Option.some.injEq] at hd
      subst hd
      rw [(Scan.sweeps_iff (s := heap.scan level) (Arena.get?_eq_some.mp hc).2).mp hswept] at hspares
      cases hspares

/-- A record whose key is the name of a symbol. -/
def nameWatched : List Session.Step :=
  [.command (.request (.symbol #[120])) (some "s"),
    .command (.ask .symbolName (.register "s")) (some "n"),
    .command (.request (.weakRef (.register "n") (.handle .nil) (.handle .nil) false)) none]

/-- A minor collection flags the record, although its key is reachable through the symbol. -/
theorem collect_readies_name : ∃ heap o heap' quiet,
    Session.collected { segmentCells := 4 } nameWatched .minor = .ok (heap, o, heap') ∧
    (HeapM.quiesce .minor).run heap = .ok ((), quiet) ∧
    heap.arena.Record ⟨3⟩ ⟨⟨4096⟩, .nil, .nil, .nil⟩ ∧ ¬ heap.arena.Ready ⟨3⟩ ∧
    heap.ReachedFrom (heap.Root quiet.tasks) ⟨4096⟩ ∧ heap'.arena.Ready ⟨3⟩ ∧
    Level.minor.index < heap.config.nameMarkLevel ∧
    ∃ c, heap.arena.get? ⟨4096⟩ = some c ∧ c.IsName := by
  obtain ⟨⟨heap, o, heap'⟩, hcollected, htest⟩ := except_of_test
    (x := Session.collected { segmentCells := 4 } nameWatched .minor)
    (p := fun p : Heap × Outcome × Heap => decide (p.1.symbols.handles = [⟨2⟩]) &&
      (p.1.arena.get? ⟨2⟩).any (fun c : Cell =>
        !c.flags.permanent && (c.edges true).contains ⟨4096⟩) &&
      (p.1.arena.get? ⟨4096⟩).isSome &&
      decide ((p.1.arena.weakFields ⟨3⟩).toOption = some ⟨⟨4096⟩, .nil, .nil, .nil⟩) &&
      decide ((p.1.arena.weakRecords p.1.weak).toOption = some [⟨3⟩]) &&
      (p.1.arena.get? ⟨3⟩).any (fun c : Cell => !c.flags.readyToFinalize) &&
      (p.2.2.arena.get? ⟨3⟩).any fun c : Cell => c.flags.readyToFinalize)
    (by decide +kernel)
  obtain ⟨ho, hrun⟩ := Session.collected_eq_ok hcollected
  obtain ⟨state, hr⟩ := Session.reachable_of_opened rfl ho
  simp only [Bool.and_eq_true, decide_eq_true_eq, Option.any_eq_true, Bool.not_eq_true',
    List.contains_iff_mem, Option.isSome_iff_exists] at htest
  obtain ⟨⟨⟨⟨⟨⟨hsymbols, s, hsym, hperm, hk⟩, n, hn⟩, hfields⟩, hrecords⟩, w, hw, hunready⟩,
    w', hw', hflag⟩ := htest
  have hrecord := Arena.weakFields_eq_ok.mp (eq_ok_of_toOption hfields)
  have hnot : ¬ heap.arena.Ready ⟨3⟩ := Arena.not_ready hw hunready
  have hready : heap'.arena.Ready ⟨3⟩ := ⟨w', hw', hflag⟩
  obtain ⟨quiet, records, hquiet, hchain, hiff⟩ := collect_readies_reached_iff hr hrun
  rw [eq_ok_of_toOption hrecords, Except.ok.injEq] at hchain
  have hroot : heap.Root quiet.tasks ⟨2⟩ := .inr (.inr (.inl (by simp [hsymbols])))
  have hreached : heap.ReachedFrom (heap.Root quiet.tasks) ⟨4096⟩ :=
    .edge (.start hroot hsym) hsym hperm hk hn
  have hmem : (⟨3⟩ : Handle) ∈ records := by simp [← hchain]
  obtain ⟨hlevel, c, hc, hname, -⟩ := (hiff ⟨3⟩ hmem _ hrecord hnot hreached).mp hready
  exact ⟨heap, o, heap', quiet, hcollected, hquiet, hrecord, hnot, hreached, hready, hlevel, c, hc,
    hname⟩

end ManagedHeap
