import ManagedHeap.Proofs.WeakRecordSteps

/-!
# What foreign code and allocation do to the weak chain

Runs of the weak chain compose along with the computations, from the operations on the heap up to
a slow allocation, which may run finalizers, as long as the foreign code has such runs itself.
-/

namespace ManagedHeap

/-- The chain of records can be read. -/
def Heap.Readable (heap : Heap) : Prop := ∃ records, heap.Chain records

theorem Heap.Performs.chain {heap heap' : Heap} {d : WeakStep} {records : List Handle}
    (hd : heap.Performs heap' d) (hc : heap.Chain records) :
    ∃ rs, heap'.Chain rs ∧ ∀ r ∈ rs, r ∈ records ∨ d.Links r := by
  obtain ⟨hd, -, -⟩ := hd
  cases d with
  | still =>
    have hstill : heap.PreservesTally heap' := hd
    exact ⟨records, hstill.chain hc, fun _ => .inl⟩
  | aside =>
    have hkeeps : heap.Preserves heap' := hd
    exact ⟨records, hkeeps.chain hc, fun _ => .inl⟩
  | collected gone level =>
    have hcollects : heap.Collects heap' gone := hd
    exact ⟨records, hcollects.chain hc, fun _ => .inl⟩
  | linked l =>
    have hlinks : heap.Links heap' l := hd
    refine ⟨l.record :: records, (hlinks.chain hc).2, fun k hk => ?_⟩
    rcases List.mem_cons.mp hk with rfl | hk
    · exact .inr ⟨l, rfl, rfl⟩
    · exact .inl hk
  | dropped r =>
    obtain ⟨f, htakesOffChain, -⟩ := hd
    exact ⟨records.erase r, (htakesOffChain.chain hc).2, fun _ hk => .inl (List.mem_of_mem_erase hk)⟩
  | called c =>
    obtain ⟨f, hbegins⟩ := hd
    exact ⟨records.erase c.record, (hbegins.chain hc).2,
      fun _ hk => .inl (List.mem_of_mem_erase hk)⟩
  | returned =>
    have hkeeps : heap.Preserves heap' := hd
    exact ⟨records, hkeeps.chain hc, fun _ => .inl⟩
  | cut => exact ⟨records, hd.1.chain hc, fun _ => .inl⟩
  | renewed =>
    have hnone : heap'.Chain [] := hd
    exact ⟨[], hnone, nofun⟩

theorem Heap.Performs.readable {heap heap' : Heap} {d : WeakStep} (hd : heap.Performs heap' d)
    (hc : heap.Readable) : heap'.Readable := by
  obtain ⟨records, hc⟩ := hc
  obtain ⟨rs, hrs, -⟩ := hd.chain hc
  exact ⟨rs, hrs⟩

theorem WeakRun.readable {heap heap' : Heap} {t : WeakRun} (hf : heap.Follows t heap')
    (hc : heap.Readable) : heap'.Readable := by
  induction t generalizing heap with
  | nil =>
    obtain rfl : heap' = heap := hf
    exact hc
  | cons e t ih => exact ih hf.2 (hf.1.readable hc)

variable {ω α β : Type}

theorem Heap.Evolves.readable {heap heap' : Heap}
    (he : heap.Evolves heap') (hc : heap.Readable) : heap'.Readable := by
  obtain ⟨t, ht⟩ := he
  exact WeakRun.readable ht.follows hc

theorem Heap.Evolves.extends_ofRecords {heap heap' : Heap} (he : heap.Evolves heap') :
    heap.journal.ofRecords <+: heap'.journal.ofRecords := by
  obtain ⟨t, ht⟩ := he
  rw [WeakRun.ofRecords_of_follows ht.follows]
  exact List.prefix_append _ _

def HeapM.WeakRunTriple (P : Heap → Prop) (act : HeapM α) (Q : α → Heap → Prop) : Prop :=
  ∀ start : Heap, start.Readable → Triple (fun heap => P heap ∧ start.Evolves heap) act
    fun a heap => Q a heap ∧ start.Evolves heap

def HostM.WeakRunTriple (P : Heap → Prop) (act : HostM ω α) (Q : α → Heap → Prop) : Prop :=
  ∀ start : Heap, start.Readable → Triple (fun heap => P heap ∧ start.Evolves heap) act
    fun a heap => Q a heap ∧ start.Evolves heap

def Attempt.WeakRunTriple (P : Heap → Prop) (act : Attempt ω α) (Q : α → Heap → Prop)
    (E : Heap → Prop) : Prop :=
  ∀ start : Heap, start.Readable → Triple (fun heap => P heap ∧ start.Evolves heap) act
    (fun a heap => Q a heap ∧ start.Evolves heap) fun heap => E heap ∧ start.Evolves heap

abbrev HostM.HasWeakRun (act : HostM ω α) : Prop := WeakRunTriple Heap.Sound act fun _ => Heap.Sound

abbrev Attempt.HasWeakRun (act : Attempt ω α) : Prop :=
  WeakRunTriple Heap.Sound act (fun _ => Heap.Sound) Heap.Sound

variable {P P' : Heap → Prop}

namespace HeapM.WeakRunTriple

variable {x act : HeapM α} {f : α → HeapM β} {Q Q' : α → Heap → Prop} {R : β → Heap → Prop}

theorem of (h : ∀ heap a heap', heap.Readable → P heap → act.run heap = .ok (a, heap') →
    Q a heap' ∧ heap.Evolves heap') : WeakRunTriple P act Q := by
  rintro start hstart heap a heap' ⟨hP, hevolves⟩ hrun
  obtain ⟨hQ, hlast⟩ := h heap a heap' (hevolves.readable hstart) hP hrun
  exact ⟨hQ, hevolves.trans hlast⟩

theorem preservesFlags (h : Triple P act Q) (hpreservesFlags : ∀ heap a heap', P heap →
    act.run heap = .ok (a, heap') → heap.PreservesFlags heap') : WeakRunTriple P act Q :=
  of fun heap a heap' _ hP hrun => ⟨h heap a heap' hP hrun, .of_preservesFlags (hpreservesFlags heap a heap' hP hrun)⟩

theorem preservesRecords (h : Triple P act Q) (hpreservesRecords : PreservesRecords act) : WeakRunTriple P act Q :=
  preservesFlags h fun heap a heap' _ hrun => hpreservesRecords heap a heap' hrun

theorem bind (hx : WeakRunTriple P x Q) (hf : ∀ a, WeakRunTriple (Q a) (f a) R) : WeakRunTriple P (x >>= f) R :=
  fun start hs => Triple.bind (hx start hs) fun a => hf a start hs

theorem pure {a : α} (h : ∀ heap, P heap → Q a heap) : WeakRunTriple P (pure a) Q :=
  fun _ _ => Triple.pure fun heap hP => ⟨h heap hP.1, hP.2⟩

theorem conseq (hx : WeakRunTriple P x Q) (hP : ∀ heap, P' heap → P heap)
    (hQ : ∀ a heap, Q a heap → Q' a heap) : WeakRunTriple P' x Q' :=
  fun start hs => Triple.conseq (hx start hs) (fun heap h => ⟨hP heap h.1, h.2⟩)
    fun a heap h => ⟨hQ a heap h.1, h.2⟩

end HeapM.WeakRunTriple

namespace HostM.WeakRunTriple

variable {x act : HostM ω α} {f : α → HostM ω β} {Q Q' : α → Heap → Prop} {R : β → Heap → Prop}

theorem of (h : ∀ state heap a state' heap', heap.Readable → P heap →
    (act.run state).run heap = .ok ((a, state'), heap') → Q a heap' ∧ heap.Evolves heap') :
    WeakRunTriple P act Q := by
  rintro start hstart state heap ⟨a, state'⟩ heap' ⟨hP, hevolves⟩ hrun
  obtain ⟨hQ, hlast⟩ := h state heap a state' heap' (hevolves.readable hstart) hP hrun
  exact ⟨hQ, hevolves.trans hlast⟩

theorem run {state state' : ω} {heap heap' : Heap} {a : α} (h : WeakRunTriple P act Q)
    (hc : heap.Readable) (hP : P heap)
    (hrun : (act.run state).run heap = .ok ((a, state'), heap')) :
    Q a heap' ∧ heap.Evolves heap' :=
  h heap hc state heap (a, state') heap' ⟨hP, .refl heap⟩ hrun

theorem bind (hx : WeakRunTriple P x Q) (hf : ∀ a, WeakRunTriple (Q a) (f a) R) : WeakRunTriple P (x >>= f) R :=
  fun start hs => Triple.bind (hx start hs) fun a => hf a start hs

theorem pure {a : α} (h : ∀ heap, P heap → Q a heap) : WeakRunTriple P (pure a : HostM ω α) Q :=
  fun _ _ => Triple.pure fun heap hP => ⟨h heap hP.1, hP.2⟩

theorem throw {e : Fault} : WeakRunTriple P (throwThe Fault e : HostM ω α) Q := fun _ _ => Triple.throw

theorem conseq (hx : WeakRunTriple P x Q) (hP : ∀ heap, P' heap → P heap)
    (hQ : ∀ a heap, Q a heap → Q' a heap) : WeakRunTriple P' x Q' :=
  fun start hs => Triple.conseq (hx start hs) (fun heap h => ⟨hP heap h.1, h.2⟩)
    fun a heap h => ⟨hQ a heap h.1, h.2⟩

theorem lift {act : HeapM α} (h : act.WeakRunTriple P Q) : WeakRunTriple P (liftM act : HostM ω α) Q :=
  fun start hs => Triple.lift (h start hs)

theorem getHeap {Q : Heap → Heap → Prop} (h : ∀ heap, P heap → Q heap heap) :
    WeakRunTriple P (getThe Heap : HostM ω Heap) Q :=
  lift (.preservesRecords (.get h) (.of_reads .get))

theorem getState {Q : ω → Heap → Prop} (h : ∀ heap a, P heap → Q a heap) :
    WeakRunTriple P (getThe ω : HostM ω ω) Q :=
  fun _ _ => Triple.getState fun heap a hP => ⟨h heap a hP.1, hP.2⟩

theorem modifyState {f : ω → ω} {Q : PUnit → Heap → Prop} (h : ∀ heap, P heap → Q ⟨⟩ heap) :
    WeakRunTriple P (modifyThe ω f : HostM ω PUnit) Q :=
  fun _ _ => Triple.modifyState fun heap hP => ⟨h heap hP.1, hP.2⟩

end HostM.WeakRunTriple

namespace Attempt.WeakRunTriple

variable {E E' : Heap → Prop} {x : Attempt ω α} {f : α → Attempt ω β} {Q Q' : α → Heap → Prop}
  {R : β → Heap → Prop}

theorem bind (hx : WeakRunTriple P x Q E) (hf : ∀ a, WeakRunTriple (Q a) (f a) R E) : WeakRunTriple P (x >>= f) R E :=
  fun start hs => Triple.bind (hx start hs) fun a => hf a start hs

theorem pure {a : α} (h : ∀ heap, P heap → Q a heap) : WeakRunTriple P (pure a : Attempt ω α) Q E :=
  fun _ _ => Triple.pure fun heap hP => ⟨h heap hP.1, hP.2⟩

theorem throw {e : HeapError} (h : ∀ heap, P heap → E heap) :
    WeakRunTriple P (throw e : Attempt ω α) Q E :=
  fun _ _ => Triple.throw fun heap hP => ⟨h heap hP.1, hP.2⟩

theorem throw_bind {e : HeapError} {R : β → Heap → Prop} (h : ∀ heap, P heap → E heap) :
    WeakRunTriple P ((throwThe HeapError e : Attempt ω α) >>= f) R E :=
  throw (α := β) h

theorem throwFault {e : Fault} : WeakRunTriple P (throwThe Fault e : Attempt ω α) Q E :=
  fun _ _ => Triple.throwFault

theorem conseq (hx : WeakRunTriple P x Q E) (hP : ∀ heap, P' heap → P heap)
    (hQ : ∀ a heap, Q a heap → Q' a heap) : WeakRunTriple P' x Q' E :=
  fun start hs => Triple.conseq (hx start hs) (fun heap h => ⟨hP heap h.1, h.2⟩)
    (fun a heap h => ⟨hQ a heap h.1, h.2⟩) fun _ => id

theorem mk {act : HostM ω (Except HeapError α)} (h : HostM.WeakRunTriple P act fun r heap => match r with
      | .ok a => Q a heap
      | .error _ => E heap) : WeakRunTriple P (ExceptT.mk act) Q E := by
  refine fun start hs => Triple.mk ((h start hs).conseq (fun _ => id) ?_)
  rintro (e | a) heap h
  · exact h
  · exact h

theorem run (hx : WeakRunTriple P x Q E) : HostM.WeakRunTriple P x.run fun r heap => match r with
      | .ok a => Q a heap
      | .error _ => E heap := by
  refine fun start hs => HostM.Triple.conseq (hx start hs) (fun _ => id) ?_
  rintro (e | a) heap h
  · exact h
  · exact h

theorem liftHost {act : HostM ω α} (h : HostM.WeakRunTriple P act Q) :
    WeakRunTriple P (liftM act : Attempt ω α) Q E :=
  fun start hs => Triple.liftHost (h start hs)

theorem lift {act : HeapM α} (h : act.WeakRunTriple P Q) : WeakRunTriple P (liftM act : Attempt ω α) Q E :=
  liftHost (.lift h)

theorem of_triple (hspec : Triple P x Q E)
    (h : WeakRunTriple P x (fun _ _ => True) E) : WeakRunTriple P x Q E := by
  intro start hs state heap r heap' hP hrun
  have hevolves := h start hs state heap r heap' hP hrun
  have hend := hspec state heap r heap' hP.1 hrun
  obtain ⟨e | a, state'⟩ := r
  · exact ⟨hend, hevolves.2⟩
  · exact ⟨hend, hevolves.2⟩

theorem onward (hx : WeakRunTriple P x Q E) (past : List Entry) :
    WeakRunTriple (fun heap => P heap ∧ past <+: heap.journal.ofRecords) x
      (fun a heap => Q a heap ∧ past <+: heap.journal.ofRecords) E := by
  rintro start hs state heap r heap' ⟨⟨hP, hpast⟩, hevolves⟩ hrun
  have hend := hx start hs state heap r heap' ⟨hP, hevolves⟩ hrun
  have hlast := hx heap (hevolves.readable hs) state heap r heap' ⟨hP, .refl heap⟩ hrun
  obtain ⟨e | a, state'⟩ := r
  · exact hend
  · exact ⟨⟨hend.1, hpast.trans hlast.2.extends_ofRecords⟩, hend.2⟩

theorem protecting (hx : WeakRunTriple P x Q E)
    (hQ : ∀ a heap protect, Q a heap → Q a { heap with protect })
    (hE : ∀ heap protect, E heap → E { heap with protect }) :
    WeakRunTriple P (HostM.protecting x) Q E := by
  refine mk (.bind (Q := fun _ => P) (.lift (.preservesRecords (.of_reads .protectDepth fun _ _ => id)
    (.of_reads .protectDepth))) fun base => .bind hx.run fun r => .bind (.lift (.preservesRecords
    (fun heap _ heap' hr hrun => ?_) .closeScope)) fun _ => .pure fun _ => id)
  obtain rfl := HeapM.run_closeScope hrun
  cases r with
  | ok a => exact hQ a heap _ hr
  | error e => exact hE heap _ hr

theorem of_and {φ : Prop} (h : φ → WeakRunTriple P x Q E) :
    WeakRunTriple (fun heap => P heap ∧ φ) x Q E := by
  rintro start hs state heap a heap' ⟨⟨hP, hφ⟩, hevolves⟩ hrun
  exact h hφ start hs state heap a heap' ⟨hP, hevolves⟩ hrun

end Attempt.WeakRunTriple

namespace HostM.HasWeakRun

variable {x : HostM ω α} {f : α → HostM ω β}

theorem bind (hx : HasWeakRun x) (hf : ∀ a, HasWeakRun (f a)) : HasWeakRun (x >>= f) := WeakRunTriple.bind hx hf

theorem pure {a : α} : HasWeakRun (pure a : HostM ω α) := WeakRunTriple.pure fun _ => id

theorem throw {e : Fault} : HasWeakRun (throwThe Fault e : HostM ω α) := WeakRunTriple.throw

theorem preservesRecords {act : HeapM α} (hsafe : act.Safe) (hpreservesRecords : act.PreservesRecords) :
    HasWeakRun (liftM act : HostM ω α) := WeakRunTriple.lift (.preservesRecords hsafe hpreservesRecords)

theorem reads {act : HeapM α} (h : act.Reads) : HasWeakRun (liftM act : HostM ω α) :=
  preservesRecords (.of_reads h) (.of_reads h)

theorem getHeap : HasWeakRun (getThe Heap : HostM ω Heap) := WeakRunTriple.getHeap fun _ => id

theorem note {e : Event} : HasWeakRun (liftM (HeapM.note e) : HostM ω PUnit) := preservesRecords .note .note

theorem modifyHeap {g : Heap → Heap} (hconfig : ∀ heap, (g heap).config = heap.config)
    (harena : ∀ heap, (g heap).arena = heap.arena)
    (hstrings : ∀ heap, (g heap).strings = heap.strings)
    (hremembered : ∀ heap, (g heap).remembered = heap.remembered)
    (htasks : ∀ heap, (g heap).tasks = heap.tasks) (hweak : ∀ heap, (g heap).weak = heap.weak)
    (htally : ∀ heap, (g heap).tally = heap.tally)
    (htransient : ∀ heap, (g heap).roots.transient = heap.roots.transient) :
    HasWeakRun (modifyThe Heap g : HostM ω PUnit) :=
  preservesRecords (.modify hconfig harena hstrings hremembered htasks)
    (.modify harena hweak htally htransient)

theorem stepBound {host : Host ω} : HasWeakRun (stepBound host) :=
  bind (reads .walkBound) fun _ => pure

end HostM.HasWeakRun

namespace Attempt.HasWeakRun

variable {x : Attempt ω α} {f : α → Attempt ω β}

theorem bind (hx : HasWeakRun x) (hf : ∀ a, HasWeakRun (f a)) : HasWeakRun (x >>= f) := WeakRunTriple.bind hx hf

theorem pure {a : α} : HasWeakRun (pure a : Attempt ω α) := WeakRunTriple.pure fun _ => id

theorem liftHost {act : HostM ω α} (h : HostM.HasWeakRun act) :
    HasWeakRun (liftM act : Attempt ω α) := WeakRunTriple.liftHost h

theorem preservesRecords {act : HeapM α} (hsafe : act.Safe) (hpreservesRecords : act.PreservesRecords) :
    HasWeakRun (liftM act : Attempt ω α) := WeakRunTriple.lift (.preservesRecords hsafe hpreservesRecords)

theorem reads {act : HeapM α} (h : act.Reads) : HasWeakRun (liftM act : Attempt ω α) :=
  preservesRecords (.of_reads h) (.of_reads h)

theorem run (hx : HasWeakRun x) : HostM.HasWeakRun x.run := by
  refine (WeakRunTriple.run hx).conseq (fun _ => id) ?_
  rintro (e | a) heap h
  · exact h
  · exact h

theorem mk {act : HostM ω (Except HeapError α)} (h : HostM.HasWeakRun act) :
    HasWeakRun (ExceptT.mk act : Attempt ω α) := by
  refine WeakRunTriple.mk (HostM.WeakRunTriple.conseq h (fun _ => id) ?_)
  rintro (e | a) heap h
  · exact h
  · exact h

theorem attempt {act : HeapM (Except HeapError α)} (hsafe : act.Safe) (hpreservesRecords : act.PreservesRecords) :
    HasWeakRun (HostM.attempt act : Attempt ω α) := mk (HostM.HasWeakRun.preservesRecords hsafe hpreservesRecords)

theorem protecting (hx : HasWeakRun x) : HasWeakRun (HostM.protecting x) :=
  WeakRunTriple.protecting hx (fun _ _ _ hs => hs.aside rfl rfl rfl rfl rfl)
    fun _ _ hs => hs.aside rfl rfl rfl rfl rfl

end Attempt.HasWeakRun

/-- What the foreign code does to the weak chain is a run of steps. -/
structure Host.HasWeakRun (host : Host ω) : Prop where
  safe : host.Safe
  native : ∀ routine key, HostM.HasWeakRun (host.native routine key)
  evaluate : ∀ evaluator function key, HostM.HasWeakRun (host.evaluate evaluator function key)

namespace HeapM

variable {heap heap' : Heap}

theorem tally_collect {level : Level} {reason : Reason} {o : Outcome} (hs : heap.Sound)
    (hrun : (collect level reason).run heap = .ok (o, heap')) :
    heap'.tally = heap.tally.add ((heap.losses heap').map .loss ++ [.collected level]) := by
  obtain ⟨records, hcol⟩ := collect_collected hs hrun
  refine Tally.ext (congrArg (fun c : Control => c.finalizers.run) hcol.control)
    (congrArg (fun c : Control => c.finalizers.running) hcol.control) ?_
  refine (collect_reports hs hrun).ofRecords.trans ?_
  rw [Entry.filter_collected (fun _ => rfl) rfl]
  rfl

theorem collects {level : Level} {reason : Reason} :
    WeakRunTriple Heap.Sound (collect level reason) fun _ => Heap.Sound :=
  .of fun heap o heap' _ hs hrun => by
    obtain ⟨records, hcol⟩ := collect_collected hs hrun
    exact ⟨hcol.sound hs, .of_collects hcol.collects (tally_collect hs hrun) hcol.keepsRecords⟩

theorem cuts_leaveRecovery {scope : RecoveryScope} {changed : Bool}
    (hrun : (leaveRecovery scope).run heap = .ok (changed, heap')) :
    heap.Preserves heap' ∧ heap'.tally = heap.tally.add [.left scope.transient] ∧
      heap'.pinned = heap.pinned.take scope.transient ∧ heap'.arena = heap.arena := by
  simp only [leaveRecovery, run_bind] at hrun
  obtain ⟨now, _, henter, hrun⟩ := hrun
  obtain rfl := Reads.enterRecovery _ _ _ henter
  split at hrun
  · simp only [run_bind, run_throw, false_and, exists_false] at hrun
  · simp only [modifyRoots, run_bind, run_modify, run_pure] at hrun
    obtain ⟨_, _, rfl, _, _, rfl, -, rfl⟩ := hrun
    exact ⟨.aside rfl rfl, Tally.ext rfl rfl Journal.ofRecords_record, Array.toList_shrink, rfl⟩

end HeapM

/-- The heap with other handles kept for operations under way. -/
def Heap.keeping (heap : Heap) (transient : Array Handle) : Heap :=
  { heap with roots := { heap.roots with transient } }

theorem Heap.keeping_performs (heap : Heap) (transient : Array Handle) :
    heap.Performs (heap.keeping transient) .aside :=
  ⟨Preserves.aside rfl rfl, rfl, (List.append_nil _).symm⟩

theorem Heap.length_pinned (heap : Heap) : heap.pinned.length = heap.roots.transient.size :=
  Array.length_toList

theorem Heap.pinned_added (heap : Heap) (hs : List Handle) :
    (heap.keeping (heap.roots.transient ++ hs.toArray)).pinned = heap.pinned ++ hs :=
  Array.toList_append

theorem Heap.pinned_cut (heap : Heap) (depth : Nat) :
    (heap.keeping (heap.roots.transient.shrink depth)).pinned = heap.pinned.take depth :=
  Array.toList_shrink

theorem Heap.Sound.keeping {heap : Heap} (hs : heap.Sound) (transient : Array Handle) :
    (heap.keeping transient).Sound := hs.aside rfl rfl rfl rfl rfl

theorem HeapM.run_openTransient {hs : List Handle} {depth : Nat} {heap heap' : Heap} :
    (openTransient hs).run heap = .ok (depth, heap') ↔
      depth = heap.roots.transient.size ∧
        heap' = heap.keeping (heap.roots.transient ++ hs.toArray) := by
  simp only [openTransient, modifyRoots, run_bind, run_get, run_modify, run_pure]
  constructor
  · rintro ⟨_, _, ⟨rfl, rfl⟩, _, _, rfl, rfl, rfl⟩
    exact ⟨rfl, rfl⟩
  · rintro ⟨rfl, rfl⟩
    exact ⟨_, _, ⟨rfl, rfl⟩, ⟨⟩, _, rfl, rfl, rfl⟩

theorem HeapM.run_closeTransient {depth : Nat} {heap heap' : Heap} {u : PUnit} :
    (closeTransient depth).run heap = .ok (u, heap') ↔
      heap' = heap.keeping (heap.roots.transient.shrink depth) := by
  rw [closeTransient, modifyRoots, run_modify]
  exact eq_comm

namespace HostM

variable {act : HostM ω α}

theorem run_liftM {act : HeapM α} {state state' : ω} {heap heap' : Heap} {a : α} :
    ((liftM act : HostM ω α).run state).run heap = .ok ((a, state'), heap') ↔
      state' = state ∧ act.run heap = .ok (a, heap') := by
  change (act >>= fun a => Pure.pure (a, state)).run heap = _ ↔ _
  rw [run_bind]
  simp only [run_pure, Prod.mk.injEq]
  constructor
  · rintro ⟨b, mid, hrun, ⟨rfl, rfl⟩, rfl⟩
    exact ⟨rfl, hrun⟩
  · rintro ⟨rfl, hrun⟩
    exact ⟨a, heap', hrun, ⟨rfl, rfl⟩, rfl⟩

theorem run_bindM {x : HostM ω α} {f : α → HostM ω β} {state state' : ω} {heap heap' : Heap}
    {b : β} : ((x >>= f).run state).run heap = .ok ((b, state'), heap') ↔
      ∃ a mid between, (x.run state).run heap = .ok ((a, mid), between) ∧
        ((f a).run mid).run between = .ok ((b, state'), heap') := by
  rw [StateT.run_bind, run_bind]
  exact ⟨fun ⟨⟨a, mid⟩, between, h⟩ => ⟨a, mid, between, h⟩,
    fun ⟨a, mid, between, h⟩ => ⟨⟨a, mid⟩, between, h⟩⟩

theorem run_withTransient {hs : List Handle} {state state' : ω} {heap heap' : Heap} {a : α}
    (hrun : ((withTransient hs act).run state).run heap = .ok ((a, state'), heap')) :
    ∃ stop, (act.run state).run (heap.keeping (heap.roots.transient ++ hs.toArray)) =
        .ok ((a, state'), stop) ∧
      heap' = stop.keeping (stop.roots.transient.shrink heap.roots.transient.size) := by
  rw [withTransient] at hrun
  obtain ⟨depth, first, opened, hopen, hrun⟩ := run_bindM.mp hrun
  obtain ⟨rfl, hopened⟩ := run_liftM.mp hopen
  obtain ⟨rfl, rfl⟩ := HeapM.run_openTransient.mp hopened
  obtain ⟨b, second, stop, hact, hrun⟩ := run_bindM.mp hrun
  obtain ⟨u, third, closed, hclose, hrun⟩ := run_bindM.mp hrun
  obtain ⟨rfl, hclosed⟩ := run_liftM.mp hclose
  obtain rfl := HeapM.run_closeTransient.mp hclosed
  obtain ⟨hend, rfl⟩ := run_pure.mp hrun
  obtain ⟨rfl, rfl⟩ := Prod.mk.inj hend
  exact ⟨stop, hact, rfl⟩

theorem WeakRunTriple.withTransient {hs : List Handle} {Q Q' : α → Heap → Prop} (hact : WeakRunTriple P' act Q')
    (hP : ∀ heap transient, P heap → P' (heap.keeping transient))
    (hQ : ∀ a heap transient, Q' a heap → Q a (heap.keeping transient)) :
    WeakRunTriple P (withTransient hs act) Q := by
  refine .of fun state heap a state' heap' hc hstart hrun => ?_
  obtain ⟨stop, hbody, rfl⟩ := run_withTransient hrun
  have hopen := heap.keeping_performs (heap.roots.transient ++ hs.toArray)
  obtain ⟨hend, hevolves⟩ := hact.run (hopen.readable hc) (hP _ _ hstart) hbody
  refine ⟨hQ a stop _ hend, .of_between hopen (heap.pinned_added hs) hevolves
    (stop.keeping_performs _) rfl rfl ?_ id⟩
  rw [Heap.pinned_cut, List.take_take, heap.length_pinned, Nat.min_self]

theorem HasWeakRun.invoke {host : Host ω} (hhost : host.HasWeakRun) (function key : Handle) :
    HasWeakRun (invoke host function key) := by
  refine bind (reads .kind) fun k => ?_
  cases k
  case nativeFunction =>
    refine bind (reads .payload) fun p => ?_
    cases p
    case nativeFunction routine =>
      cases routine with
      | none => exact pure
      | some routine => exact hhost.native routine key
    all_goals exact reads .wrongKind
  case closure =>
    refine bind getHeap fun heap => ?_
    cases heap.evaluator with
    | none => exact pure
    | some evaluator =>
      refine bind ?_ fun _ => bind (hhost.evaluate evaluator function key) fun outcome =>
        bind getHeap fun after => ?_
      · exact modifyHeap (fun _ => rfl) (fun _ => rfl) (fun _ => rfl) (fun _ => rfl) (fun _ => rfl)
          (fun _ => rfl) (fun _ => rfl) fun _ => rfl
      · split
        · refine bind ?_ fun _ => pure
          exact modifyHeap (fun _ => rfl) (fun _ => rfl) (fun _ => rfl) (fun _ => rfl)
            (fun _ => rfl) (fun _ => rfl) (fun _ => rfl) fun _ => rfl
        · exact pure
  all_goals exact throw

end HostM

end ManagedHeap
