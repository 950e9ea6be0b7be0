import ManagedHeap.Proofs.SessionWeakRuns

/-!
# The weak chain and its history

On the weak chain are the records that the history says were linked and not taken off since. Each
step of a run keeps this, so every heap that a session reaches has it.
-/

namespace ManagedHeap

/-- The record of the link refers to what it was linked with, and what was alive of that then is
alive. -/
structure Heap.HasLink (heap : Heap) (l : Link) : Prop where
  fields : ∃ f, heap.fieldsOf l.record = some f ∧ f.watched = [l.key, l.value, l.finalizer]
  live : ∀ h ∈ l.live, h ∈ [l.key, l.value, l.finalizer] ∧ heap.arena.contains h = true
  exits : l.onExit = true → heap.arena.Exits l.record

/-- The links of the records on the chain, first to last. -/
structure Heap.ChainHolds (heap : Heap) (ls : List Link) : Prop where
  chain : heap.Chain (ls.map Link.record)
  has : ∀ l ∈ ls, heap.HasLink l

namespace Heap

variable {heap mid heap' : Heap} {ls : List Link} {l : Link} {es : List Entry} {d : WeakStep}
  {r : Handle}

theorem HasLink.watched {f : WeakFields} (hl : heap.HasLink l) (hf : heap.fieldsOf l.record = some f) :
    f.key = l.key ∧ f.value = l.value ∧ f.finalizer = l.finalizer := by
  obtain ⟨g, hg, hwatched⟩ := hl.fields
  obtain rfl := Option.some.inj (hf.symm.trans hg)
  simpa [WeakFields.watched] using hwatched

theorem HasLink.keepsRecord (hl : heap.HasLink l) (ht : heap.KeepsRecord mid l.record) : mid.HasLink l := by
  obtain ⟨f, hf, hwatched⟩ := hl.fields
  refine ⟨?_, fun h hh => ?_, fun hexit => ht.exits (hl.exits hexit)⟩
  · obtain ⟨g, hg, hsame⟩ := ht.watched hf
    exact ⟨g, hg, hsame.trans hwatched⟩
  · obtain ⟨hmem, hlive⟩ := hl.live h hh
    exact ⟨hmem, ht.live hf (hwatched ▸ hmem) hlive⟩

namespace ChainHolds

theorem nil (hc : heap.Chain []) : heap.ChainHolds [] := ⟨hc, nofun⟩

theorem of_sublist {rest : List Link} (hl : heap.ChainHolds ls) (hm : heap.KeepsRecords mid)
    (hc : mid.Chain (rest.map Link.record)) (hsub : ∀ l ∈ rest, l ∈ ls) : mid.ChainHolds rest where
  chain := hc
  has l hmem := (hl.has l (hsub l hmem)).keepsRecord
    (hm hl.chain hc (List.mem_map_of_mem (hsub l hmem)) (List.mem_map_of_mem hmem))

theorem keeps (hl : heap.ChainHolds ls) (hm : heap.KeepsRecords mid) (hc : mid.Chain (ls.map Link.record)) :
    mid.ChainHolds ls := hl.of_sublist hm hc fun _ => id

theorem erase (hl : heap.ChainHolds ls) (hm : heap.KeepsRecords mid)
    (hc : mid.Chain ((ls.map Link.record).erase r)) : mid.ChainHolds (ls.filter (·.record != r)) := by
  refine hl.of_sublist hm ?_ fun _ hmem => (List.mem_filter.mp hmem).1
  rw [hl.chain.once.erase_eq_filter, List.filter_map] at hc
  exact hc

theorem cons (hl : heap.ChainHolds ls) (hm : heap.KeepsRecords mid) (hlinks : heap.Links mid l) :
    mid.ChainHolds (l :: ls) := by
  obtain ⟨hout, hc⟩ := hlinks.chain hl.chain
  refine ⟨hc, fun k hk => ?_⟩
  rcases List.mem_cons.mp hk with rfl | hk
  · refine ⟨hlinks.filled, fun h hh => ?_, hlinks.exits⟩
    rw [hlinks.live, alive, List.mem_filter] at hh
    exact hh
  · exact (hl.has k hk).keepsRecord (hm hl.chain hc (List.mem_map_of_mem hk)
      (List.mem_cons_of_mem _ (List.mem_map_of_mem hk)))

end ChainHolds

theorem Performs.linked (hd : heap.Performs mid d) (hm : heap.KeepsRecords mid)
    (hl : heap.ChainHolds (Entry.chain es)) : mid.ChainHolds (Entry.chain (es ++ d.entries)) := by
  obtain ⟨hbecomes, -, -⟩ := hd
  have hsame : (∀ e ∈ d.entries, ∀ ls, Entry.relink ls e = ls) →
      mid.Chain ((Entry.chain es).map Link.record) → mid.ChainHolds (Entry.chain (es ++ d.entries)) := by
    intro hplain hc
    rw [Entry.chain_append_of_plain hplain]
    exact hl.keeps hm hc
  cases d with
  | still =>
    have hstill : heap.PreservesTally mid := hbecomes
    exact hsame nofun (hstill.chain hl.chain)
  | aside =>
    have hkeeps : heap.Preserves mid := hbecomes
    exact hsame nofun (hkeeps.chain hl.chain)
  | collected gone level =>
    have hcollects : heap.Collects mid gone := hbecomes
    refine hsame (fun e he ls => ?_) (hcollects.chain hl.chain)
    rcases List.mem_append.mp he with he | he
    · obtain ⟨k, -, rfl⟩ := List.mem_map.mp he
      rfl
    · rw [List.mem_singleton.mp he]
      rfl
  | linked l =>
    have hlinks : heap.Links mid l := hbecomes
    rw [Entry.chain_append]
    exact hl.cons hm hlinks
  | dropped r =>
    obtain ⟨f, htakesOffChain, -⟩ := hbecomes
    rw [Entry.chain_append]
    exact hl.erase hm (htakesOffChain.chain hl.chain).2
  | called c =>
    obtain ⟨f, hbegins⟩ := hbecomes
    rw [Entry.chain_append]
    exact hl.erase hm (hbegins.chain hl.chain).2
  | returned depth =>
    have hkeeps : heap.Preserves mid := hbecomes
    refine hsame (fun e he ls => ?_) (hkeeps.chain hl.chain)
    rcases List.mem_pair.mp he with rfl | rfl <;> rfl
  | cut depth =>
    refine hsame (fun e he ls => ?_) (hbecomes.1.chain hl.chain)
    rw [List.mem_singleton.mp he]
    rfl
  | renewed config =>
    have hnone : mid.Chain [] := hbecomes
    rw [Entry.chain_append]
    exact .nil hnone

theorem Begins.calls {c : Invocation} {f : WeakFields} (hbegins : heap.Begins mid c f)
    (hl : heap.HasLink l) (hrecord : c.record = l.record) : l.Calls c := by
  obtain ⟨hkey, -, hfinalizer⟩ := hl.watched (hrecord ▸ hbegins.filled)
  rw [hbegins.key] at hkey
  rw [hbegins.finalizer] at hfinalizer
  refine ⟨hrecord, hkey, hfinalizer, hfinalizer ▸ hbegins.nonempty, hbegins.fields,
    fun h hh hneeds => ?_⟩
  rw [hbegins.live, alive, List.mem_filter, hkey, hfinalizer]
  exact ⟨by simpa using hneeds, hbegins.contains (hl.live h hh).2⟩

theorem Performs.orderly (hd : heap.Performs mid d) (hm : heap.KeepsRecords mid)
    (hl : heap.ChainHolds (Entry.chain es)) (ho : Entry.Orderly es) :
    Entry.Orderly (es ++ d.entries) := by
  have hlast := hd.linked hm hl
  obtain ⟨hbecomes, -, -⟩ := hd
  cases d with
  | linked l =>
    have hlinks : heap.Links mid l := hbecomes
    refine ho.append_linked fun k hk hsame => (hlinks.chain hl.chain).1 ?_
    exact hsame ▸ List.mem_map_of_mem hk
  | dropped r =>
    obtain ⟨f, htakesOffChain, hnil, -⟩ := hbecomes
    obtain ⟨l, hmem, rfl⟩ := List.mem_map.mp (htakesOffChain.chain hl.chain).1
    obtain ⟨-, -, hfinalizer⟩ := (hl.has l hmem).watched htakesOffChain.filled
    exact ho.append_unlinked hmem (hfinalizer.symm.trans hnil)
  | called c =>
    obtain ⟨f, hbegins⟩ := hbecomes
    obtain ⟨l, hmem, hrecord⟩ := List.mem_map.mp (hbegins.chain hl.chain).1
    refine ho.append_called hmem (hbegins.calls (hl.has l hmem) hrecord.symm) ?_
    rw [hbegins.listed hlast.chain, WeakStep.entries, ← List.singleton_append, ← List.append_assoc]
    exact congrArg (List.map Link.record) Entry.chain_snoc
  | collected gone level =>
    refine ho.append_plain fun e he => ?_
    rcases List.mem_append.mp he with he | he
    · obtain ⟨k, -, rfl⟩ := List.mem_map.mp he
      trivial
    · rw [List.mem_singleton.mp he]
      trivial
  | returned depth =>
    refine ho.append_plain fun e he => ?_
    rcases List.mem_pair.mp he with rfl | rfl <;> trivial
  | still | aside => exact ho.append_plain fun e he => absurd he List.not_mem_nil
  | cut | renewed =>
    refine ho.append_plain fun e he => ?_
    rw [List.mem_singleton.mp he]
    trivial

end Heap

theorem WeakRun.orderly {heap heap' : Heap} {t : WeakRun} {es : List Entry} (hf : heap.Follows t heap')
    (ha : heap.KeepsRecordsThroughout t) (hl : heap.ChainHolds (Entry.chain es)) (ho : Entry.Orderly es) :
    heap'.ChainHolds (Entry.chain (es ++ entries t)) ∧ Entry.Orderly (es ++ entries t) := by
  induction t generalizing heap es with
  | nil =>
    obtain rfl : heap' = heap := hf
    rw [WeakRun.entries, List.flatMap_nil, List.append_nil]
    exact ⟨hl, ho⟩
  | cons e t ih =>
    obtain ⟨d, mid⟩ := e
    obtain ⟨hd, hrest⟩ := hf
    obtain ⟨hm, hkeepsRecordsThroughout⟩ := ha
    have hentries : es ++ WeakRun.entries ((d, mid) :: t) = (es ++ d.entries) ++ entries t :=
      (List.append_assoc ..).symm
    rw [hentries]
    exact ih hrest hkeepsRecordsThroughout (hd.linked hm hl) (hd.orderly hm hl ho)

theorem WeakRun.keepsRecord_of_linked {heap heap' : Heap} {t : WeakRun} {es : List Entry} {l : Link}
    (hf : heap.Follows t heap') (ha : heap.KeepsRecordsThroughout t) (hl : heap.ChainHolds (Entry.chain es))
    (hmem : l ∈ Entry.chain es) (hnot : ∀ e ∈ entries t,
      (∀ config, e ≠ .opened config) ∧ ∀ ready, e ≠ .unlinked l.record ready) :
    heap.KeepsRecord heap' l.record := by
  induction t generalizing heap es with
  | nil =>
    obtain rfl : heap' = heap := hf
    exact .refl _ _
  | cons e t ih =>
    obtain ⟨d, mid⟩ := e
    obtain ⟨hd, hrest⟩ := hf
    obtain ⟨hm, hkeepsRecordsThroughout⟩ := ha
    have hlast := hd.linked hm hl
    have hmem' : l ∈ Entry.chain (es ++ d.entries) :=
      Entry.mem_chain_append hmem fun e he => hnot e (List.mem_append_left _ he)
    have hfirst : heap.KeepsRecord mid l.record := hm hl.chain hlast.chain
      (List.mem_map_of_mem hmem) (List.mem_map_of_mem hmem')
    exact hfirst.trans (ih hrest hkeepsRecordsThroughout hlast hmem' fun e he => hnot e (List.mem_append_right _ he))

/-- How many finalizers have returned since the heap was opened. -/
def Entry.runs (es : List Entry) : Nat := (sinceOpened es).countP isReturn

theorem Entry.runs_append {es fs : List Entry} (hfs : ∀ e ∈ fs, ∀ config, e ≠ opened config) :
    runs (es ++ fs) = runs es + fs.countP isReturn := by
  rw [runs, sinceOpened_append hfs, List.countP_append, runs]

theorem WeakStep.runs_entries {es : List Entry} (d : WeakStep) :
    Entry.runs (es ++ d.entries) = d.runs (Entry.runs es) := by
  cases d with
  | renewed config => exact congrArg (List.countP Entry.isReturn) Entry.sinceOpened_opened
  | collected gone level =>
    have hplain : ∀ e ∈ (collected gone level).entries,
        e.isReturn = false ∧ ∀ config, e ≠ .opened config := by
      intro e he
      rcases List.mem_append.mp he with he | he
      · obtain ⟨k, -, rfl⟩ := List.mem_map.mp he
        exact ⟨rfl, nofun⟩
      · rw [List.mem_singleton.mp he]
        exact ⟨rfl, nofun⟩
    rw [Entry.runs_append fun e he => (hplain e he).2, List.countP_eq_zero.mpr fun e he => ?_]
    · rfl
    · rw [(hplain e he).1]
      exact Bool.false_ne_true
  | still | aside => exact congrArg Entry.runs (List.append_nil es)
  | _ => exact Entry.runs_append (by simp [entries])

theorem WeakRun.runs_of_follows {heap heap' : Heap} {t : WeakRun} {es : List Entry}
    (hf : heap.Follows t heap') (hruns : heap.finalizers.run = Entry.runs es) :
    heap'.finalizers.run = Entry.runs (es ++ entries t) := by
  induction t generalizing heap es with
  | nil =>
    obtain rfl : heap' = heap := hf
    rw [entries, List.flatMap_nil, List.append_nil, hruns]
  | cons e t ih =>
    obtain ⟨d, mid⟩ := e
    obtain ⟨hd, hrest⟩ := hf
    have hmid : mid.finalizers.run = Entry.runs (es ++ d.entries) := by
      rw [hd.run, hruns, d.runs_entries]
    rw [ih hrest hmid, List.append_assoc]
    rfl

/-- The heap is as its history says. -/
structure Heap.InStep (heap : Heap) : Prop where
  linked : heap.ChainHolds (Entry.chain heap.journal.ofRecords)
  orderly : Entry.Orderly heap.journal.ofRecords
  balanced : Entry.Balanced heap.journal.ofRecords
  completed : Entry.Completed heap.journal.ofRecords
  runs : heap.finalizers.run = Entry.runs heap.journal.ofRecords

namespace Heap.InStep

variable {heap heap' : Heap} {t : WeakRun}

theorem build {config : Config} {hash : Bytes → Encoding → UInt32}
    (hbuild : Heap.build config hash = .ok heap) : heap.InStep := by
  obtain ⟨hchain, htally⟩ := Heap.build_chain hbuild
  have hentries : heap.journal.ofRecords = [.opened config] := congrArg Tally.entries htally
  refine ⟨?_, ?_, ?_, ?_, ?_⟩
  · rw [hentries]
    exact .nil hchain
  · rw [hentries]
    exact Entry.Orderly.nil.append_plain (by simp [Entry.Plain])
  · rw [hentries]
    exact .of_plain (by simp [Entry.nest])
  · rw [hentries]
    exact .of_uncalled (by simp)
  · rw [hentries]
    exact congrArg Tally.run htally

theorem leads (hs : heap.InStep) (ht : t.Leads heap heap') : heap'.InStep := by
  obtain ⟨hlinked, horderly⟩ := WeakRun.orderly ht.follows ht.keepsRecordsThroughout hs.linked hs.orderly
  have hentries := WeakRun.ofRecords_of_follows ht.follows
  refine ⟨hentries ▸ hlinked, hentries ▸ horderly, ?_, ?_, ?_⟩
  · exact hentries ▸ hs.balanced.append ht.balanced
  · exact hentries ▸ hs.completed.append ht.completed
  · exact hentries ▸ WeakRun.runs_of_follows ht.follows hs.runs

end Heap.InStep

theorem Session.Reachable.inStep {state : State} {heap : Heap} (hr : Reachable state heap) :
    heap.InStep ∧ heap.finalizers.running = false := by
  obtain ⟨config, hash, start, hbuild, t, ht⟩ := hr.evolves
  exact ⟨(Heap.InStep.build hbuild).leads ht,
    ht.rests (congrArg Tally.running (Heap.build_chain hbuild).2)⟩

end ManagedHeap
