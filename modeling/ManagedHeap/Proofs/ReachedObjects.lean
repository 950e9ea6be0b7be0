import ManagedHeap.Proofs.CollectionInvariant
import ManagedHeap.Proofs.SessionInvariant

/-!
# Reachable objects survive

What can be reached from the roots survives every collection as it is. Objects older than
the collection are never traced, and names are not always followed; the remembered list and
the flags of the names make up for it.
-/

namespace ManagedHeap

namespace Heap

/-- The live objects that can be reached from starting points. The permanent objects are not
expanded. -/
inductive ReachedFrom (heap : Heap) (start : Handle → Prop) : Handle → Prop
  | start {h : Handle} {c : Cell} : start h → heap.arena.get? h = some c →
      ReachedFrom heap start h
  | edge {h k : Handle} {c d : Cell} : ReachedFrom heap start h → heap.arena.get? h = some c →
      c.flags.permanent = false → k ∈ c.edges true → heap.arena.get? k = some d →
      ReachedFrom heap start k

/-- The roots of a collection that finds the tasks as they are given. -/
def Root (heap : Heap) (tasks : Tasks) (h : Handle) : Prop :=
  h ∈ heap.roots.handles ∨ h ∈ heap.protect.slots.toList ∨ h ∈ heap.symbols.handles ∨
    h ∈ tasks.held ∨ ∃ records, heap.arena.weakRecords heap.weak = .ok records ∧ h ∈ records

theorem ReachedFrom.live {heap : Heap} {start : Handle → Prop} {h : Handle}
    (hr : heap.ReachedFrom start h) : ∃ c, heap.arena.get? h = some c := by
  cases hr with
  | start _ hc => exact ⟨_, hc⟩
  | edge _ _ _ _ hd => exact ⟨_, hd⟩

section ReachedFrom

variable {heap : Heap} {start start' : Handle → Prop} {h : Handle}

theorem ReachedFrom.trans (hr : heap.ReachedFrom start' h)
    (hsub : ∀ k c, start' k → heap.arena.get? k = some c → heap.ReachedFrom start k) :
    heap.ReachedFrom start h := by
  induction hr with
  | start hs hc => exact hsub _ _ hs hc
  | edge _ hc hperm hk hd ih => exact .edge ih hc hperm hk hd

theorem ReachedFrom.mono (hr : heap.ReachedFrom start h) (hsub : ∀ k, start k → start' k) :
    heap.ReachedFrom start' h := hr.trans fun k _ hs hc => .start (hsub k hs) hc

theorem ReachedFrom.started (hr : heap.ReachedFrom start h) : ∃ p, start p := by
  induction hr with
  | start hs _ => exact ⟨_, hs⟩
  | edge _ _ _ _ _ ih => exact ih

end ReachedFrom

theorem Root.start {heap : Heap} {level : Level} {records : List Handle} {h : Handle}
    (hchain : heap.arena.weakRecords heap.weak = .ok records)
    (hr : heap.Root (heap.quietTasks level) h) : heap.Start level records h := by
  rcases hr with hroot | hprotected | hsymbol | hheld | ⟨rs, hrs, hrecord⟩
  · exact .inl (List.mem_append_left _ (List.mem_append_left _ hroot))
  · exact .inl (List.mem_append_left _ (List.mem_append_right _ hprotected))
  · exact .inl (List.mem_append_right _ hsymbol)
  · exact .inr (.inl hheld)
  · rw [hchain, Except.ok.injEq] at hrs
    exact .inr (.inr (.inl (hrs ▸ hrecord)))

theorem ClosedUnderMarking.saves_reached {heap : Heap} {level : Level} {records : List Handle}
    {M : Handle → Prop} {h : Handle} (hM : heap.ClosedUnderMarking level records M) (hs : heap.Sound)
    (hchain : heap.arena.weakRecords heap.weak = .ok records)
    (hr : heap.ReachedFrom (heap.Root (heap.quietTasks level)) h) :
    ∃ c, heap.arena.get? h = some c ∧ heap.Saves level M h c := by
  induction hr with
  | start hstart hc => exact ⟨_, hc, hM.saves_start hc (hstart.start hchain)⟩
  | edge _ hc hperm hk hd ih =>
    obtain ⟨c, hc', hsaves⟩ := ih
    rw [hc, Option.some.injEq] at hc'
    subst hc'
    exact ⟨_, hd, hM.saves_edge hs hc hperm (hsaves.imp_right (Or.imp_right And.right)) hk hd⟩

end Heap

/-- What stays of an object across a collection: everything but its generation, its flags
for the collector, the look-up cache of a symbol and the chain link of a cached string. -/
structure Cell.Endures (c d : Cell) : Prop where
  kind : d.kind = c.kind
  refcount : d.header.refcount = c.header.refcount
  payload : d.payload.forgetting = c.payload.forgetting
  cached : d.flags.cached = c.flags.cached
  attrib : c.flags.cached = false → d.attrib = c.attrib

theorem Cell.Survives.endures {level : Level} {c d : Cell} (hs : c.Survives level d) :
    c.Endures d := by
  have hcached := cached_of_lasting hs.lasting
  refine ⟨kind_of_lasting hs.lasting, refcount_of_lasting hs.lasting,
    forgetting_of_lasting hs.lasting, hcached, ?_⟩
  intro huncached
  have hattached := attached_of_lasting hs.lasting
  rw [huncached] at hcached
  simpa only [attached, hcached, huncached, Bool.false_eq_true, if_false] using hattached

/-- A collection of any level keeps every object that is reachable from the roots, and keeps
it as it is. -/
theorem collect_keeps_reached {state : Session.State} {heap heap' : Heap} {level : Level}
    {reason : Reason} {o : Outcome} (hr : Session.Reachable state heap)
    (hrun : (HeapM.collect level reason).run heap = .ok (o, heap')) :
    ∃ quiet, (HeapM.quiesce level).run heap = .ok ((), quiet) ∧
      ∀ h, heap.ReachedFrom (heap.Root quiet.tasks) h →
        ∃ c d, heap.arena.get? h = some c ∧ heap'.arena.get? h = some d ∧ c.Endures d := by
  have hs := hr.sound
  obtain ⟨records, hcol⟩ := HeapM.collect_collected hs hrun
  obtain ⟨waits, hquiet⟩ := HeapM.run_quiesce level heap
  refine ⟨_, hquiet, ?_⟩
  intro h hreached
  obtain ⟨c, hc, hsaves⟩ :=
    (heap.closedUnderMarking_lingers level records).saves_reached hs hcol.chain hreached
  obtain ⟨d, hd⟩ := hcol.stayed hc (Collected.keeps_of_saves hsaves)
  exact ⟨c, d, hc, hd, (hcol.same hc hd).endures⟩

/-- A minor collection does not follow the name of a symbol, but keeps it. -/
theorem collect_keeps_name : ∃ heap o heap' c d,
    Session.collected { segmentCells := 4 } [.command (.request (.symbol #[120])) none] .minor =
      .ok (heap, o, heap') ∧
    heap.arena.get? ⟨4096⟩ = some c ∧ c.IsName ∧
    heap'.arena.get? ⟨4096⟩ = some d ∧ c.Endures d := by
  obtain ⟨⟨heap, o, heap'⟩, hcollected, htest⟩ := except_of_test
    (x := Session.collected { segmentCells := 4 } [.command (.request (.symbol #[120])) none]
      .minor)
    (p := fun p : Heap × Outcome × Heap => decide (p.1.symbols.handles = [⟨2⟩]) &&
      (p.1.arena.get? ⟨2⟩).any (fun c : Cell => !c.flags.permanent && (c.edges true).contains ⟨4096⟩) &&
      (p.1.arena.get? ⟨4096⟩).any fun c : Cell =>
        decide (c.kind = .charString) && c.flags.cached && c.flags.symbolName)
    (by decide +kernel)
  obtain ⟨ho, hrun⟩ := Session.collected_eq_ok hcollected
  obtain ⟨state, hr⟩ := Session.reachable_of_opened rfl ho
  simp only [Bool.and_eq_true, decide_eq_true_eq, Option.any_eq_true, Bool.not_eq_true',
    List.contains_iff_mem] at htest
  obtain ⟨⟨hsymbols, s, hsym, hperm, hk⟩, c, hc, hname⟩ := htest
  obtain ⟨quiet, -, hkeeps⟩ := collect_keeps_reached hr hrun
  have hroot : heap.Root quiet.tasks ⟨2⟩ := .inr (.inr (.inl (by simp [hsymbols])))
  obtain ⟨c', d, hc', hd, hendures⟩ := hkeeps ⟨4096⟩ (.edge (.start hroot hsym) hsym hperm hk hc)
  rw [hc, Option.some.injEq] at hc'
  subst hc'
  exact ⟨heap, o, heap', c, d, hcollected, hc, ⟨hname.1.1, hname.1.2, hname.2⟩, hd, hendures⟩

end ManagedHeap
