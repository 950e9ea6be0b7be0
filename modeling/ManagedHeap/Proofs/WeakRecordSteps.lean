import ManagedHeap.Proofs.CollectionReports
import ManagedHeap.Proofs.WeakRuns

/-!
# What single operations do to weak records

Collections, linking, unlinking and leaving a scope are the steps that matter to weak
records; all other operations leave the records alone.
-/

namespace ManagedHeap

namespace Graph

variable {g : Graph} {h k : Handle} {f : Cell → Cell}

def fieldsOf (g : Graph) (h : Handle) : Option WeakFields := (g h).bind (·.payload.fields?)

theorem fieldsOf_edit_ne (hk : k ≠ h) : (g.edit h f).fieldsOf k = g.fieldsOf k := by
  rw [fieldsOf, edit_ne hk, fieldsOf]

theorem fieldsOf_edit_self {c : Cell} (hc : g h = some c) :
    (g.edit h f).fieldsOf h = (f c).payload.fields? := by
  rw [fieldsOf, edit_self hc, Option.bind_some]
  exact Payload.fields?_forgetting (f c).payload

def KeepsRecord (g g' : Graph) (r : Handle) : Prop :=
  ∀ ⦃c⦄, g r = some c → ∃ d, g' r = some d ∧ c.flags.Lasts d.flags ∧
    ∀ {f}, c.payload.fields? = some f → ∃ e, d.payload.fields? = some e ∧ e.watched = f.watched

variable {g' g'' : Graph} {r : Handle}

theorem KeepsRecord.of_eq (hg : g' r = g r) : g.KeepsRecord g' r :=
  fun c hc => ⟨c, hg.trans hc, .refl _, fun hf => ⟨_, hf, rfl⟩⟩

theorem KeepsRecord.trans (hfirst : g.KeepsRecord g' r) (hlast : g'.KeepsRecord g'' r) : g.KeepsRecord g'' r := by
  intro c hc
  obtain ⟨d, hd, hcd, hwatched⟩ := hfirst hc
  obtain ⟨e, he, hde, hwatched'⟩ := hlast hd
  refine ⟨e, he, hcd.trans hde, fun hf => ?_⟩
  obtain ⟨f', hf', hsame⟩ := hwatched hf
  obtain ⟨f'', hf'', hsame'⟩ := hwatched' hf'
  exact ⟨f'', hf'', hsame'.trans hsame⟩

theorem KeepsRecord.relinked {next : Handle} : g.KeepsRecord (g.edit h (Cell.relinked next)) r := by
  by_cases hr : r = h
  · subst hr
    intro c hc
    refine ⟨_, edit_self hc, ?_, fun {f} hf => ⟨{ f with next }, ?_, rfl⟩⟩
    · rw [Cell.relinked_eq]
      exact ⟨id, id⟩
    · refine (Payload.fields?_forgetting _).trans ?_
      rw [Cell.relinked_eq, Payload.fields?_eq_some.mp hf]
      rfl
  · exact .of_eq (edit_ne hr)

end Graph

theorem Heap.KeepsRecords.of_graph {heap heap' : Heap} (hlive : ∀ {k}, heap.arena.contains k = true →
      heap'.arena.contains k = true)
    (hkeepsRecord : ∀ {records rs r}, heap.Chain records → heap'.Chain rs → r ∈ records → r ∈ rs →
      heap.graph.KeepsRecord heap'.graph r) : heap.KeepsRecords heap' := by
  intro records rs r hc hrs hr hr'
  obtain ⟨-, f, hf⟩ := hc.strung.fields_of_mem hr
  obtain ⟨c, hcell, -⟩ := Option.bind_eq_some_iff.mp hf
  obtain ⟨e, he, hflags, hwatched⟩ := hkeepsRecord hc hrs hr hr' (graph_of_get? hcell)
  obtain ⟨d, hd, rfl⟩ := graph_eq_some.mp he
  refine .of_flags hcell hd hflags (fun {f'} hf' => ?_) fun _ _ => hlive
  obtain ⟨c', hcell', hfields⟩ := Option.bind_eq_some_iff.mp hf'
  obtain rfl := Option.some.inj (hcell'.symm.trans hcell)
  obtain ⟨e, hfields', hsame⟩ := hwatched ((Payload.fields?_forgetting _).trans hfields)
  refine ⟨e, ?_, hsame⟩
  rw [fieldsOf, hd, Option.bind_some, ← Payload.fields?_forgetting]
  exact hfields'

theorem Heap.fieldsOf_graph (heap : Heap) (h : Handle) : heap.fieldsOf h = heap.graph.fieldsOf h :=
  heap.fieldsOf_eq h

theorem Heap.contains_graph (heap : Heap) (h : Handle) :
    heap.arena.contains h = (heap.graph h).isSome := by
  rw [Heap.graph, Option.isSome_map]
  rfl

theorem Cell.fields?_relinked {c : Cell} {f : WeakFields} (next : Handle)
    (hf : c.payload.fields? = some f) : (c.relinked next).payload.fields? = some { f with next } := by
  have hp := Payload.fields?_eq_some.mp hf
  rw [relinked_eq, hp]
  rfl

theorem Collected.fieldsOf_eq {level : Level} {records : List Handle} {heap heap' : Heap}
    {o : Outcome} {h : Handle} {c d : Cell} (hcol : Collected level records heap heap' o)
    (hc : heap.arena.get? h = some c) (hd : heap'.arena.get? h = some d) :
    heap'.fieldsOf h = heap.fieldsOf h := by
  have hforget := Cell.forgetting_of_lasting (hcol.same hc hd).lasting
  simp only [Heap.fieldsOf, hc, hd, Option.bind_some]
  rw [← Payload.fields?_forgetting d.payload, hforget, Payload.fields?_forgetting]

section

variable {level : Level} {records rs : List Handle} {heap heap' : Heap} {o : Outcome}
  {h r k : Handle} {c : Cell} {f : WeakFields}

theorem Collected.contains (hcol : Collected level records heap heap' o)
    (hc : heap.arena.get? h = some c) (hkeeps : heap.Keeps level records h c) :
    heap'.arena.contains h = true := by
  obtain ⟨d, hd⟩ := hcol.stayed hc hkeeps
  exact Arena.contains_of_get? hd

theorem Collected.record (hcol : Collected level records heap heap' o) (hrs : heap.Chain rs)
    (hr : r ∈ rs) : ∃ c d, heap.arena.get? r = some c ∧ heap'.arena.get? r = some d ∧
      heap'.fieldsOf r = heap.fieldsOf r := by
  obtain rfl : rs = records := Except.ok.inj (hrs.listed.symm.trans hcol.chain)
  obtain ⟨-, f, hf⟩ := hrs.strung.fields_of_mem hr
  obtain ⟨c, hc, -⟩ := Option.bind_eq_some_iff.mp hf
  obtain ⟨d, hd⟩ := hcol.stayed hc (keeps_of_start hc (.inr (.inr (.inl hr))))
  exact ⟨c, d, hc, hd, hcol.fieldsOf_eq hc hd⟩

theorem Collected.watched (hcol : Collected level records heap heap' o) (hrs : heap.Chain rs)
    (hr : r ∈ rs) (hf : heap.fieldsOf r = some f) (hk : k ∈ f.watched)
    (hlive : heap.arena.contains k = true) : heap'.arena.contains k = true := by
  obtain rfl : rs = records := Except.ok.inj (hrs.listed.symm.trans hcol.chain)
  obtain ⟨c, hc⟩ := Option.isSome_iff_exists.mp hlive
  refine hcol.contains hc ?_
  have hrecord := Heap.fieldsOf_eq_some.mp hf
  by_cases hcovered : heap.arena.Covered (heap.scan level) k
  · refine .inr (.inl ?_)
    by_cases hready : ReadyAfter (heap.scan level) heap.arena (heap.Start level rs) rs r
    · exact .field hr hready hrecord hk hcovered
    · obtain ⟨hnot, halive⟩ := not_or.mp hready
      have hkey := not_exists.mp halive f
      simp only [not_and, not_not] at hkey
      refine .retained ?_
      simp only [WeakFields.watched, List.mem_cons, List.not_mem_nil, or_false] at hk
      rcases hkey hrecord with hretained | hspared
      · rcases hk with rfl | hk
        · exact hretained
        · exact .value hr hrecord hnot hretained hk hcovered
      · rcases hk with rfl | hk
        · exact absurd hcovered (Arena.not_covered_of_spared hspared)
        · exact .spared hr hrecord hnot hspared hk hcovered
  · left
    rw [Bool.eq_false_iff]
    intro hsweeps
    refine hcovered ⟨c, hc, ?_⟩
    exact (Scan.sweeps_iff (s := heap.scan level) (Arena.get?_eq_some.mp hc).2).mp hsweeps

theorem Heap.mem_losses {heap heap' : Heap} {h : Handle} {kind : Kind}
    (hmem : (h, kind) ∈ heap.losses heap') :
    ∃ c, heap.arena.get? h = some c ∧ c.kind = kind ∧ heap'.arena.contains h = false := by
  obtain ⟨k, -, hk⟩ := List.mem_filterMap.mp hmem
  obtain ⟨c, hc, hpair⟩ := Option.map_eq_some_iff.mp hk
  obtain ⟨hget, hgone⟩ := Option.filter_eq_some_iff.mp hc
  obtain ⟨rfl, rfl⟩ := Prod.mk.inj hpair
  exact ⟨c, hget, rfl, by simpa using hgone⟩

theorem Collected.collects (hcol : Collected level records heap heap' o) :
    heap.Collects heap' (heap.losses heap') := by
  have hrecord : ∀ {rs r}, heap.Chain rs → r ∈ rs → heap'.fieldsOf r = heap.fieldsOf r := by
    intro rs r hrs hr
    obtain ⟨-, -, -, -, hsame⟩ := hcol.record hrs hr
    exact hsame
  refine ⟨congrArg (fun c : Control => c.roots.transient.toList) hcol.control, ?_, hrecord, ?_,
    fun hrs hr hf => hcol.watched hrs hr hf, fun hmem => ?_⟩
  · intro rs hrs
    refine hrs.congr (congrArg Control.weak hcol.control) (fun r hr => hrecord hrs hr) ?_
    intro r f hf hr
    obtain ⟨d, hd, -⟩ := Option.bind_eq_some_iff.mp hf
    obtain ⟨c, hc, -⟩ := hcol.came hd
    exact hrs.loose ((hcol.fieldsOf_eq hc hd).symm.trans hf) hr
  · intro h hpin hlive
    obtain ⟨c, hc⟩ := Option.isSome_iff_exists.mp hlive
    refine hcol.contains hc (keeps_of_start hc (.inl ?_))
    have hroots : h ∈ heap.roots.handles := by
      simp only [RootSet.handles, List.mem_append]
      exact .inl (.inl (.inr hpin))
    simp only [Heap.rootList, List.mem_append]
    exact .inl (.inl hroots)
  · obtain ⟨c, hc, -, hgone⟩ := Heap.mem_losses hmem
    exact ⟨Arena.contains_of_get? hc, hgone⟩

theorem Collected.keepsRecords (hcol : Collected level records heap heap' o) : heap.KeepsRecords heap' := by
  intro rs _ r hrs _ hr _
  obtain ⟨c, d, hc, hd, hfields⟩ := hcol.record hrs hr
  refine .of_flags hc hd ⟨fun hready => ?_, fun hexits => ?_⟩
    (fun hf => ⟨_, hfields.trans hf, rfl⟩) fun hf => hcol.watched hrs hr hf
  · exact (hcol.ready hd).mpr (.inl ⟨c, hc, hready⟩)
  · have hsame : d.flags.finalizeOnExit = c.flags.finalizeOnExit :=
      (congrArg (fun c : Cell => c.header.flags.finalizeOnExit) (hcol.same hc hd).lasting :)
    exact hsame.trans hexits

end

namespace HeapM

variable {heap heap' : Heap} {record hint : Handle} {fields : WeakFields} {u : PUnit}

theorem journal_linkWeakRef {key value finalizer : Handle} {onExit : Bool}
    (hrun : (linkWeakRef record key value finalizer onExit).run heap = .ok (u, heap')) :
    heap'.journal = heap.journal.record
      (.linked ⟨record, key, value, finalizer, onExit, heap'.alive [key, value, finalizer]⟩) := by
  simp only [linkWeakRef, pushRecord, run_bind, run_get, run_updateCell] at hrun
  obtain ⟨_, _, ⟨rfl, rfl⟩, _, mid, ⟨-, rfl⟩, hrun⟩ := hrun
  split at hrun
  · simp only [run_bind, run_updateCell, run_modify] at hrun
    obtain ⟨_, _, ⟨-, rfl⟩, rfl⟩ := hrun
    rfl
  · rw [run_modify] at hrun
    subst hrun
    rfl

theorem journal_unlinkWeakRef
    (hrun : (unlinkWeakRef record hint).run heap = .ok (u, heap')) :
    ∃ c, heap.arena.get? record = some c ∧
      heap'.journal = heap.journal.record (.unlinked record c.flags.readyToFinalize) := by
  simp only [unlinkWeakRef, run_bind] at hrun
  obtain ⟨fields, _, hfields, previous, _, hprevious, fs, _, hflags, hrun⟩ := hrun
  obtain rfl := Reads.chainFields _ _ _ hfields
  obtain rfl := Reads.predecessor _ _ _ hprevious
  obtain ⟨c, hc, rfl, rfl⟩ := run_flags.mp hflags
  refine ⟨c, hc, ?_⟩
  split at hrun
  all_goals
    simp only [clearRecord, run_bind, run_modify, run_updateCell] at hrun
  · obtain ⟨_, _, rfl, _, _, ⟨-, rfl⟩, rfl⟩ := hrun
    rfl
  · obtain ⟨_, _, ⟨-, rfl⟩, _, _, ⟨-, rfl⟩, rfl⟩ := hrun
    rfl

theorem unlinked_unlinkWeakRef (hne : record ≠ .nil) (hf : heap.fieldsOf record = some fields)
    (hrun : (unlinkWeakRef record hint).run heap = .ok (u, heap')) :
    heap'.finalizers = heap.finalizers ∧ heap'.fieldsOf record = some .empty ∧
      (∀ {h}, heap.arena.contains h = true → heap'.arena.contains h = true) ∧
      (∀ {h g}, h ≠ record → heap'.fieldsOf h = some g →
        ∃ g', heap.fieldsOf h = some g' ∧ g.watched = g'.watched) ∧
      (∀ {records}, heap.Chain records →
        record ∈ records ∧ heap'.Chain (records.erase record)) ∧
      heap'.pinned = heap.pinned ∧ heap.KeepsRecords heap' := by
  obtain ⟨fields', previous, hrecord, hprevious, hcontrol, hgraph⟩ := run_unlinkWeakRef hrun
  obtain rfl : fields' = fields :=
    hrecord.unique (Heap.fieldsOf_eq_some.mp hf)
  generalize hrelink : (if previous.isNil then heap.graph
    else heap.graph.edit previous (Cell.relinked fields'.next)) = g at hgraph
  -- what the graph between the two changes shows
  have hsome : ∀ k, (g k).isSome = (heap.graph k).isSome := by
    intro k
    subst hrelink
    split
    · rfl
    · exact Graph.isSome_edit
  have hsame : ∀ k, k ≠ previous → g.fieldsOf k = heap.fieldsOf k := by
    intro k hk
    subst hrelink
    rw [Heap.fieldsOf_graph]
    split
    · rfl
    · exact Graph.fieldsOf_edit_ne hk
  have hlive : ∀ {k}, heap'.arena.contains k = heap.arena.contains k := by
    intro k
    rw [Heap.contains_graph, Heap.contains_graph, hgraph, Graph.isSome_edit, hsome]
  have hself : heap'.fieldsOf record = some .empty := by
    obtain ⟨c, hc, -⟩ := hrecord
    have hin : (g record).isSome = true := by
      rw [hsome, Heap.graph_of_get? hc]
      rfl
    obtain ⟨d, hd⟩ := Option.isSome_iff_exists.mp hin
    rw [Heap.fieldsOf_graph, hgraph, Graph.fieldsOf_edit_self hd]
    rfl
  have hout : ∀ {k}, k ≠ record → heap'.fieldsOf k = g.fieldsOf k := by
    intro k hk
    rw [Heap.fieldsOf_graph, hgraph, Graph.fieldsOf_edit_ne hk]
  have hweak := congrArg Control.weak hcontrol
  have hchain : ∀ {records}, heap.Chain records →
      record ∈ records ∧ heap'.Chain (records.erase record) := by
    intro records hc
    rcases run_predecessor hprevious with ⟨rfl, hhead⟩ | ⟨hnil, e, he, hnext⟩
    · refine hc.unlink (h := .nil) (g := .empty) hne hf hself (.inl ⟨hhead, hweak, ?_⟩)
      intro k hk
      subst hrelink
      exact (hout hk).trans (heap.fieldsOf_graph k).symm
    · have hnotNil : previous.isNil = false := by simpa [Handle.isNil] using hnil
      rw [hnotNil, if_neg Bool.false_ne_true] at hrelink hweak
      refine hc.unlink hne hf hself (.inr ⟨he, hnext, hweak, ?_, ?_⟩)
      · intro hk
        obtain ⟨c, hcell, hce⟩ := Option.bind_eq_some_iff.mp ((heap.fieldsOf_graph previous).symm.trans he)
        rw [hout hk, ← hrelink, Graph.fieldsOf_edit_self hcell, Cell.fields?_relinked _ hce]
      · intro k hk hkp
        exact (hout hk).trans (hsame k hkp)
  refine ⟨congrArg Control.finalizers hcontrol, hself,
    fun h => hlive.trans h, ?_, hchain, congrArg (fun c : Control => c.roots.transient.toList) hcontrol,
    ?_⟩
  · intro k e hk he
    rw [hout hk] at he
    by_cases hkp : k = previous
    · subst hkp
      subst hrelink
      split at he
      · exact ⟨e, (heap.fieldsOf_graph k).trans he, rfl⟩
      · obtain ⟨c, hc⟩ : ∃ c, heap.graph k = some c := by
          rw [← Option.isSome_iff_exists, ← Graph.isSome_edit (h := k)
            (f := Cell.relinked fields'.next)]
          exact Option.isSome_of_isSome_bind (by rw [Graph.fieldsOf] at he; rw [he]; rfl)
        rw [Graph.fieldsOf_edit_self hc, Cell.relinked_eq] at he
        cases hp : c.payload <;> rw [hp] at he
        case weakRef key value finalizer next =>
          obtain rfl := Option.some.inj he
          refine ⟨⟨key, value, finalizer, next⟩, ?_, rfl⟩
          rw [Heap.fieldsOf_graph, Graph.fieldsOf, hc, Option.bind_some, hp]
          rfl
        all_goals cases he
    · exact ⟨e, (hsame k hkp).symm.trans he, rfl⟩
  · refine .of_graph (fun h => hlive.trans h) fun {records rs r} hrecords hrs _ hr => ?_
    obtain rfl := hrs.unique (hchain hrecords).2
    have hother : r ≠ record := (hrecords.once.mem_erase_iff.mp hr).1
    have hfirst : heap.graph.KeepsRecord g r := by
      subst hrelink
      split
      · exact .of_eq rfl
      · exact .relinked
    exact hfirst.trans (.of_eq (by rw [hgraph, Graph.edit_ne hother]))

theorem takesOffChain_unlinkWeakRef (hne : record ≠ .nil) (hf : heap.fieldsOf record = some fields)
    (hready : heap.arena.Ready record)
    (hrun : (unlinkWeakRef record hint).run heap = .ok (u, heap')) :
    heap.TakesOffChain heap' record fields ∧ heap'.pinned = heap.pinned ∧
      heap'.tally = heap.tally.add [.unlinked record true] ∧ heap.KeepsRecords heap' := by
  obtain ⟨hfinalizers, hself, hlive, hothers, hchain, hpins, hkeepsRecords⟩ :=
    unlinked_unlinkWeakRef hne hf hrun
  obtain ⟨c, hc, hjournal⟩ := journal_unlinkWeakRef hrun
  obtain ⟨c', hc', hflag⟩ := id hready
  obtain rfl := Option.some.inj (hc'.symm.trans hc)
  rw [hflag] at hjournal
  refine ⟨⟨hready, hf, hself, hlive, hothers, hchain⟩, hpins, ?_, hkeepsRecords⟩
  exact Tally.ext (congrArg FinalizerState.run hfinalizers)
    (congrArg FinalizerState.running hfinalizers)
    ((congrArg Journal.ofRecords hjournal).trans Journal.ofRecords_record)

theorem links_linkWeakRef {key value finalizer : Handle} {onExit : Bool} (hne : record ≠ .nil)
    (hout : ∀ records, heap.Chain records → record ∉ records)
    (hrun : (linkWeakRef record key value finalizer onExit).run heap = .ok (u, heap')) :
    ∃ live, heap.Links heap' ⟨record, key, value, finalizer, onExit, live⟩ ∧
      heap'.tally = heap.tally.add [.linked ⟨record, key, value, finalizer, onExit, live⟩] ∧
      heap.KeepsRecords heap' := by
  obtain ⟨⟨c, hc⟩, hcontrol, hgraph⟩ := run_linkWeakRef hrun
  have hseen := congrFun hgraph record
  rw [Graph.edit_self (Heap.graph_of_get? hc)] at hseen
  have hself : heap'.fieldsOf record = some ⟨key, value, finalizer, heap.weak.head⟩ := by
    rw [Heap.fieldsOf_graph, Graph.fieldsOf, hseen]
    rfl
  have hothers : ∀ {h}, h ≠ record → heap'.fieldsOf h = heap.fieldsOf h := by
    intro h hh
    rw [Heap.fieldsOf_graph, hgraph, Graph.fieldsOf_edit_ne hh, Heap.fieldsOf_graph]
  have hlive : ∀ {h}, heap.arena.contains h = true → heap'.arena.contains h = true := by
    intro h hlive
    rwa [Heap.contains_graph, hgraph, Graph.isSome_edit, ← Heap.contains_graph]
  have hexits : onExit = true → heap'.arena.Exits record := by
    intro hasked
    obtain ⟨d, hd, hsame⟩ := Heap.graph_eq_some.mp hseen
    refine ⟨d, hd, (congrArg (fun c : Cell => c.header.flags.finalizeOnExit) hsame).trans ?_⟩
    exact (Bool.or_eq_true _ _).mpr (.inr hasked)
  refine ⟨heap'.alive [key, value, finalizer],
    ⟨congrArg (fun c : Control => c.roots.transient.toList) hcontrol, hlive, ⟨_, hself, rfl⟩,
      hexits, rfl, hothers, fun hrs => ⟨hout _ hrs, ?_⟩⟩, ?_,
    .of_graph hlive fun hrs _ hr _ => .of_eq ?_⟩
  · exact hrs.link hne (hout _ hrs) rfl (congrArg Control.weak hcontrol) hself fun k => hothers
  · exact Tally.ext (congrArg (fun c : Control => c.finalizers.run) hcontrol)
      (congrArg (fun c : Control => c.finalizers.running) hcontrol)
      ((congrArg Journal.ofRecords (journal_linkWeakRef hrun)).trans Journal.ofRecords_record)
  · rw [hgraph, Graph.edit_ne]
    rintro rfl
    exact hout _ hrs hr

end HeapM

end ManagedHeap
