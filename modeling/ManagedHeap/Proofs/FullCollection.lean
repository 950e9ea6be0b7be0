import ManagedHeap.Proofs.RootOrder
import ManagedHeap.Proofs.CollectionTotality
import ManagedHeap.Proofs.WeakChain
import ManagedHeap.Proofs.SessionEffects

/-!
# Full collections are exact

Between its operations no heap of a session is collecting. So a full collection returns just if
what it looks into is alive, and then it flags and keeps just what the least set of needed objects
says, for every order of the roots.
-/

namespace ManagedHeap

theorem Heap.Effect.collecting {heap heap' : Heap} {pays : Bool} (hs : heap.Sound)
    (he : heap.Effect pays heap') (hidle : heap.collecting = false) : heap'.collecting = false := by
  refine he.keep (I := fun heap => heap.collecting = false) hs (fun _ hstep hidle => ?_) hidle
  cases hstep with
  | amend ha => exact (Heap.pace_eq_iff.mp ha.pace).2.2.2.1.trans hidle
  | grow hrun =>
    rcases HeapM.run_growth hrun with ⟨-, rfl⟩ | ⟨-, -, i, arena, event, -, rfl⟩ <;> exact hidle
  | claim _ _ _ hrun =>
    rcases HeapM.run_claim hrun with ⟨-, rfl⟩ | ⟨h, arena, -, -, rfl⟩ <;> exact hidle
  | collect hrun =>
    obtain ⟨-, _, _, _, _, _, _, -, -, -, -, _, _, _, _, _, -, rfl, -⟩ := HeapM.run_collect hrun
    rfl
  | renew hbuild =>
    obtain ⟨arena, -, rfl⟩ := Heap.build_eq_ok hbuild
    rfl

theorem Session.Reachable.collecting {state : State} {heap : Heap} (hr : Reachable state heap) :
    heap.collecting = false := by
  obtain ⟨start, ⟨config, hash, fresh, -, hbuild, hstart, -⟩, hcomes⟩ := hr.comes
  refine hcomes.2.keep (I := fun heap => heap.collecting = false)
    (fun hv he => he.collecting hv.1) ?_
  obtain ⟨arena, -, rfl⟩ := Heap.build_eq_ok hbuild
  exact hstart ▸ rfl

namespace Heap

variable {heap other : Heap} {records : List Handle}

namespace Reordered

theorem cacheExact (hr : heap.Reordered other) (hf : heap.CacheExact) : other.CacheExact :=
  hf.congr (fun _ => by rw [hr.arena]) hr.strings hr.config

theorem collecting (hr : heap.Reordered other) : other.collecting = heap.collecting := by
  obtain ⟨_, _, _, _, _, hrest⟩ := hr.rest
  rw [hrest]

theorem collectable (hr : heap.Reordered other) (hc : heap.Collectable records) :
    other.Collectable records := by
  refine ⟨fun h hh => ?_, fun h hh => ?_, ?_, ?_⟩
  · rw [hr.arena]
    exact hc.roots h (hr.rootList.mem_iff.mpr hh)
  · rw [hr.arena]
    exact hc.symbols h ((hr.symbols.map _).mem_iff.mpr hh)
  · rw [hr.arena]
    exact hc.watched
  · rw [hr.arena]
    exact hc.keys

end Reordered

theorem Needed.contains {tasks : Tasks} {h : Handle} (hn : heap.Needed tasks records h) :
    heap.arena.contains h = true := by
  cases hn with
  | root _ hc | edge _ _ _ _ hc | value _ _ _ _ _ hc | permanent _ _ _ _ _ hc =>
    exact Arena.contains_of_get? hc

end Heap

/-- A full collection returns just if the handles that it looks into are those of live objects.
Then it flags just the records whose keys are not needed, keeps just the permanent objects, the
needed ones, what the ready records refer to and the names, and does the same for every order of
the roots. -/
theorem full_collection_exact {state : Session.State} {heap : Heap} {reason : Reason}
    (hr : Session.Reachable state heap) :
    ∃ quiet records, (HeapM.quiesce .full).run heap = .ok ((), quiet) ∧
      heap.arena.weakRecords heap.weak = .ok records ∧
      ((∃ o heap', (HeapM.collect .full reason).run heap = .ok (o, heap')) ↔
        heap.Collectable records) ∧
      ∀ o heap', (HeapM.collect .full reason).run heap = .ok (o, heap') →
        (∀ r ∈ records, ∀ f, heap.arena.Record r f → ¬ heap.arena.Ready r →
          (heap'.arena.Ready r ↔
            ¬ heap.Needed quiet.tasks records f.key ∧ ¬ heap.PermanentAt f.key)) ∧
        (∀ h, heap'.arena.contains h = true ↔ ∃ c, heap.arena.get? h = some c ∧
          (c.flags.permanent = true ∨ heap.Needed quiet.tasks records h ∨
            heap.ReachedFrom (heap.ReadyField heap' records) h ∨ c.IsName)) ∧
        ∀ other, heap.Reordered other →
          ∃ p other', (HeapM.collect .full reason).run other = .ok (p, other') ∧
            heap'.SameObjects other' ∧ p.freed = o.freed ∧ p.marked = o.marked ∧
            p.newlyReady = o.newlyReady := by
  have hs := hr.sound
  have hchain := hr.inStep.1.linked.chain.listed
  set records := (Entry.chain heap.journal.ofRecords).map Link.record
  obtain ⟨waits, hquiet⟩ := HeapM.run_quiesce .full heap
  have hreturns : ∀ {o heap'}, (HeapM.collect .full reason).run heap = .ok (o, heap') →
      heap.Collectable records := fun hrun => by
    obtain ⟨listed, hlisted, hc⟩ := HeapM.collectable_of_run hs hrun
    obtain rfl := Except.ok.inj (hchain.symm.trans hlisted)
    exact hc
  refine ⟨_, records, hquiet, hchain, ⟨fun ⟨_, _, hrun⟩ => hreturns hrun,
    HeapM.ends_collect hs hr.cacheExact hr.collecting hchain⟩, fun o heap' hrun => ?_⟩
  obtain ⟨listed, hcol⟩ := HeapM.collect_collected hs hrun
  obtain rfl := Except.ok.inj (hchain.symm.trans hcol.chain)
  refine ⟨?_, fun h => hcol.survives_iff hs, ?_⟩
  · intro r hmem f hf hnot
    rw [hcol.readied_iff hmem hf hnot, Heap.key_alive_iff hs hcol.chain, not_or]
  · intro other hreordered
    have hs' := hreordered.sound hs
    have hchain' : other.arena.weakRecords other.weak = .ok records := by
      rw [hreordered.arena, hreordered.weak, hchain]
    obtain ⟨p, other', hother⟩ :
        ∃ p other', (HeapM.collect .full reason).run other = .ok (p, other') :=
      HeapM.ends_collect hs' (hreordered.cacheExact hr.cacheExact)
        (hreordered.collecting.trans hr.collecting) hchain' (hreordered.collectable (hreturns hrun))
    obtain ⟨listed', hcol'⟩ := HeapM.collect_collected hs' hother
    obtain rfl := Except.ok.inj (hchain'.symm.trans hcol'.chain)
    exact ⟨p, other', hother, hcol.reordered hcol' hreordered hs⟩

/-- Two records: the key of the first is held by a task, that of the second by nothing. -/
def pairsWatched : List Session.Step :=
  [.command (.request (.cons (.handle .nil) (.handle .nil))) (some "k"),
    .command (.request (.cons (.handle .nil) (.handle .nil))) (some "v"),
    .command (.request (.weakRef (.register "k") (.register "v") (.handle .nil) false)) none,
    .command (.request (.cons (.handle .nil) (.handle .nil))) (some "d"),
    .command (.request (.weakRef (.register "d") (.handle .nil) (.handle .nil) false)) none,
    .command (.setScheduler .registry) none,
    .command (.task .beginOutput (.register "k")) none]

/-- A full collection flags just the second record, and keeps the value of the first. -/
theorem full_collection_pairsWatched : ∃ heap o heap' quiet records,
    Session.collected { segmentCells := 4 } pairsWatched .full = .ok (heap, o, heap') ∧
    (HeapM.quiesce .full).run heap = .ok ((), quiet) ∧
    heap.arena.weakRecords heap.weak = .ok records ∧
    heap.arena.Record ⟨4096⟩ ⟨⟨2⟩, ⟨3⟩, .nil, .nil⟩ ∧ heap.Needed quiet.tasks records ⟨3⟩ ∧
    heap'.arena.contains ⟨3⟩ = true ∧
    heap.arena.Record ⟨4098⟩ ⟨⟨4097⟩, .nil, .nil, ⟨4096⟩⟩ ∧ heap'.arena.Ready ⟨4098⟩ ∧
    ¬ heap.Needed quiet.tasks records ⟨4097⟩ := by
  obtain ⟨⟨heap, o, heap'⟩, hcollected, htest⟩ := except_of_test
    (x := Session.collected { segmentCells := 4 } pairsWatched .full)
    (p := fun p : Heap × Outcome × Heap =>
      decide ((p.1.arena.weakFields ⟨4096⟩).toOption = some ⟨⟨2⟩, ⟨3⟩, .nil, .nil⟩) &&
      decide ((p.1.arena.weakFields ⟨4098⟩).toOption = some ⟨⟨4097⟩, .nil, .nil, ⟨4096⟩⟩) &&
      decide ((p.1.arena.weakRecords p.1.weak).toOption = some [⟨4098⟩, ⟨4096⟩]) &&
      (p.1.arena.get? ⟨4096⟩).any (fun c : Cell => !c.flags.readyToFinalize) &&
      (p.1.arena.get? ⟨4098⟩).any (fun c : Cell => !c.flags.readyToFinalize) &&
      (p.1.arena.get? ⟨2⟩).any (fun c : Cell => !c.flags.permanent) &&
      (p.1.arena.get? ⟨3⟩).isSome &&
      (p.2.2.arena.get? ⟨4096⟩).any (fun c : Cell => !c.flags.readyToFinalize) &&
      (p.2.2.arena.get? ⟨4098⟩).any (fun c : Cell => c.flags.readyToFinalize))
    (by decide +kernel)
  obtain ⟨ho, hrun⟩ := Session.collected_eq_ok hcollected
  obtain ⟨state, hr⟩ := Session.reachable_of_opened rfl ho
  simp only [Bool.and_eq_true, decide_eq_true_eq, Option.any_eq_true, Bool.not_eq_true',
    Option.isSome_iff_exists] at htest
  obtain ⟨⟨⟨⟨⟨⟨⟨⟨hw, hu⟩, hrecords⟩, w, hgw, hnotw⟩, u, hgu, hnotu⟩, k, hk, hperm⟩, v, hv⟩,
    w', hw', hunready⟩, u', hu', hready⟩ := htest
  have hrw := Arena.weakFields_eq_ok.mp (eq_ok_of_toOption hw)
  have hru := Arena.weakFields_eq_ok.mp (eq_ok_of_toOption hu)
  obtain ⟨quiet, records, hquiet, hchain, -, hexact⟩ := full_collection_exact hr
  obtain ⟨hflags, hlive, -⟩ := hexact o heap' hrun
  have hlist := hchain
  rw [eq_ok_of_toOption hrecords, Except.ok.injEq] at hlist
  have hmemw : (⟨4096⟩ : Handle) ∈ records := by simp [← hlist]
  have hmemu : (⟨4098⟩ : Handle) ∈ records := by simp [← hlist]
  -- the key of the first record is needed, since the record does not become ready
  have hkey : heap.Needed quiet.tasks records ⟨2⟩ := by
    by_contra hdead
    obtain ⟨c, hc, hflag⟩ := (hflags _ hmemw _ hrw (Arena.not_ready hgw hnotw)).mpr
      ⟨hdead, Heap.not_permanentAt hk hperm⟩
    rw [hw', Option.some.injEq] at hc
    rw [← hc, hunready] at hflag
    exact nomatch hflag
  have hvalue : heap.Needed quiet.tasks records ⟨3⟩ :=
    .value hmemw hrw (Arena.not_ready hgw hnotw) hkey (.inl rfl) hv
  have hflagged : heap'.arena.Ready ⟨4098⟩ := ⟨u', hu', hready⟩
  exact ⟨heap, o, heap', quiet, records, hcollected, hquiet, hchain, hrw, hvalue,
    (hlive _).mpr ⟨v, hv, .inr (.inl hvalue)⟩, hru, hflagged,
    ((hflags _ hmemu _ hru (Arena.not_ready hgu hnotu)).mp hflagged).1⟩

/-- A record whose key died while it was made. -/
theorem full_collection_deadKey : ∃ start replies state mid state' heap r f quiet,
    Heap.build { segmentCells := 8, maxCells := some 8 } Heap.mixHash = .ok start ∧
    ((Session.runSteps Session.host Session.scopeLeaverBeforeLink).run {}).run start =
      .ok ((replies, state), mid) ∧
    mid.arena.contains ⟨4⟩ = true ∧
    ((HostM.makeWeakRef Session.host ⟨4⟩ .nil .nil false).run.run state).run mid =
      .ok ((.ok r, state'), heap) ∧
    heap.arena.weakRecords heap.weak = .ok [r] ∧ heap.arena.Record r f ∧ ¬ heap.arena.Ready r ∧
    (HeapM.quiesce .full).run heap = .ok ((), quiet) ∧
    ¬ heap.Needed quiet.tasks [r] f.key ∧ ¬ heap.PermanentAt f.key ∧
    ∃ e, (HeapM.collect .full .requested).run heap = .error e := by
  obtain ⟨⟨_, ⟨replies, state⟩, mid, ⟨made, state'⟩, heap⟩, hall, htest⟩ := except_of_test
    (x := do
      let start ← Heap.build { segmentCells := 8, maxCells := some 8 } Heap.mixHash
      let first ← ((Session.runSteps Session.host Session.scopeLeaverBeforeLink).run {}).run start
      let last ← ((HostM.makeWeakRef Session.host ⟨4⟩ .nil .nil false).run.run first.1.2).run
        first.2
      return (start, first.1, first.2, last))
    (p := fun p : Heap × (List Session.Reply × Session.State) × Heap ×
        (Except HeapError Handle × Session.State) × Heap =>
      p.2.2.1.arena.contains ⟨4⟩ && decide (p.2.2.2.1.1.toOption = some ⟨7⟩) &&
      decide ((p.2.2.2.2.arena.weakRecords p.2.2.2.2.weak).toOption = some [⟨7⟩]) &&
      (p.2.2.2.2.arena.get? ⟨7⟩).any (fun c : Cell => !c.flags.readyToFinalize) &&
      (p.2.2.2.2.arena.weakFields ⟨7⟩).toOption.any (fun f : WeakFields => decide (f.key = ⟨4⟩)) &&
      !p.2.2.2.2.arena.contains ⟨4⟩ &&
      ((HeapM.collect .full .requested).run p.2.2.2.2).toOption.isNone) (by decide +kernel)
  simp only [except_bind, pure, Except.pure, Except.ok.injEq, Prod.mk.injEq] at hall
  obtain ⟨start, hbuild, ⟨⟨replies, state⟩, mid⟩, hsteps, _, hlast, rfl, hfirst, rfl, rfl⟩ := hall
  obtain ⟨rfl, rfl⟩ := Prod.mk.inj hfirst
  simp only [Bool.and_eq_true, decide_eq_true_eq, Option.any_eq_true, Bool.not_eq_true'] at htest
  obtain ⟨⟨⟨⟨⟨⟨hbefore, hmade⟩, hrecords⟩, c, hc, hnot⟩, f, hf, hkey⟩, hdead⟩, habort⟩ := htest
  obtain rfl := eq_ok_of_toOption hmade
  obtain ⟨waits, hquiet⟩ := HeapM.run_quiesce .full heap
  have hgone : ¬ heap.arena.contains f.key = true := by
    rw [hkey, hdead]
    exact Bool.false_ne_true
  refine ⟨start, replies, state, mid, state', heap, _, f, _, hbuild, hsteps, hbefore, hlast,
    eq_ok_of_toOption hrecords, Arena.weakFields_eq_ok.mp (eq_ok_of_toOption hf),
    Arena.not_ready hc hnot, hquiet, fun hneeded => hgone hneeded.contains,
    fun ⟨_, hperm, _⟩ => hgone (Arena.contains_of_get? hperm), ?_⟩
  cases hrun : (HeapM.collect .full .requested).run heap with
  | error e => exact ⟨e, rfl⟩
  | ok r =>
    rw [hrun] at habort
    cases habort

end ManagedHeap
