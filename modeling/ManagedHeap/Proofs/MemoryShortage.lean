import ManagedHeap.Proofs.FinalizerWeakRuns

/-!
# Running out of memory

Before an allocation gives up it collects fully. If records are pending then, it runs all
their finalizers and collects fully once more, and no more than once: records that become
ready in that last collection are left pending.
-/

namespace ManagedHeap

open HeapM

def Arena.pending (a : Arena) (records : List Handle) : Nat := records.countP a.readyAt

namespace Collected

variable {level : Level} {records : List Handle} {heap heap' : Heap} {o : Outcome} {h : Handle}

theorem stays_record (hcol : Collected level records heap heap' o) (hh : h ∈ records) :
    ∃ c d, heap.arena.get? h = some c ∧ heap'.arena.get? h = some d := by
  obtain ⟨-, f, hf⟩ := (Heap.weakRecords_eq_ok.mp hcol.chain).1.fields_of_mem hh
  obtain ⟨c, hc, -⟩ := Option.bind_eq_some_iff.mp hf
  obtain ⟨d, hd⟩ := hcol.stayed hc (keeps_of_start hc (.inr (.inr (.inl hh))))
  exact ⟨c, d, hc, hd⟩

theorem chain_after (hcol : Collected level records heap heap' o) :
    heap'.arena.weakRecords heap'.weak = .ok records := by
  obtain ⟨hstrung, hlength⟩ := Heap.weakRecords_eq_ok.mp hcol.chain
  have hweak : heap'.weak = heap.weak := congrArg Control.weak hcol.control
  refine Heap.weakRecords_eq_ok.mpr ⟨?_, hweak ▸ hlength⟩
  rw [hweak]
  refine hstrung.congr fun r hr => ?_
  obtain ⟨c, d, hc, hd⟩ := hcol.stays_record hr
  exact hcol.fieldsOf_eq hc hd

open Classical in
theorem pending (hcol : Collected level records heap heap' o) (hs : heap.Sound) :
    heap'.arena.pending records = heap.arena.pending records + o.newlyReady := by
  have honce : records.Nodup := (Heap.weakRecords_eq_ok.mp hcol.chain).1.nodup
  have hmem : ∀ h, h ∈ heap.arena.positions.filter (records.contains ·) ↔ h ∈ records := by
    intro h
    rw [List.mem_filter, List.contains_iff_mem, and_iff_right_iff_imp]
    intro hh
    obtain ⟨c, -, hc, -⟩ := hcol.stays_record hh
    exact (Arena.mem_positions hs.tidy).mpr ⟨c, (Arena.get?_eq_some.mp hc).1⟩
  have hperm : (heap.arena.positions.filter (records.contains ·)).Perm records :=
    (List.perm_ext_iff_of_nodup ((Arena.positions_nodup hs.tidy).filter _) honce).mpr hmem
  -- off the chain nothing becomes ready
  have hoff : (heap.arena.positions.filter fun h => !records.contains h).countP
        (fun h => decide (heap.Ripens level records h)) =
      (heap.arena.positions.filter fun h => !records.contains h).countP heap.arena.readyAt := by
    refine List.countP_congr fun h hh => ?_
    have hout : h ∉ records := by
      simpa using (List.mem_filter.mp hh).2
    rw [decide_eq_true_iff, Arena.readyAt_iff, Heap.Ripens]
    exact ⟨fun h => h.resolve_right fun hin => hout hin.1, .inl⟩
  have hon : heap'.arena.pending records =
      records.countP fun h => decide (heap.Ripens level records h) := by
    refine List.countP_congr fun h hh => ?_
    obtain ⟨-, d, -, hd⟩ := hcol.stays_record hh
    rw [decide_eq_true_iff, Arena.readyAt_iff, ← hcol.ready hd]
    exact ⟨fun ⟨e, he, hready⟩ => Option.some.inj (he.symm.trans hd) ▸ hready,
      fun hready => ⟨d, hd, hready⟩⟩
  have hsplit := fun p : Handle → Bool =>
    List.countP_eq_countP_filter_add heap.arena.positions p (records.contains ·)
  have hnewly := hcol.newly
  rw [Arena.readies, hsplit heap.arena.readyAt, hsplit fun h => decide (heap.Ripens level records h),
    hperm.countP_eq, hperm.countP_eq, hoff] at hnewly
  rw [hon, Arena.pending]
  omega

end Collected

namespace Heap

def LastFullFound (heap : Heap) (newly pending : Nat) : Prop :=
  ∃ o records, heap.counters.last = some o ∧ o.level = .full ∧ o.reason = .exhausted ∧
    o.newlyReady = newly ∧ heap.arena.weakRecords heap.weak = .ok records ∧
    heap.arena.pending records = pending

def Exhausted (heap : Heap) : Prop := ∃ newly, heap.LastFullFound newly newly

def NonePendingBefore (heap : Heap) (e : HeapError) : Prop :=
  ∀ kind length, e = .outOfMemory kind length → heap.finalizers.running = false → heap.Exhausted

variable {heap heap' : Heap} {records : List Handle} {newly pending : Nat}

theorem LastFullFound.congr (hs : heap.LastFullFound newly pending)
    (hlast : heap'.counters.last = heap.counters.last) (hweak : heap'.weak = heap.weak)
    (hcells : ∀ h, heap'.arena.get? h = heap.arena.get? h) : heap'.LastFullFound newly pending := by
  obtain ⟨o, records, hold, hlevel, hreason, hnewly, hrecords, hpending⟩ := hs
  refine ⟨o, records, hlast.trans hold, hlevel, hreason, hnewly, ?_, ?_⟩
  · obtain ⟨hstrung, hlength⟩ := weakRecords_eq_ok.mp hrecords
    refine weakRecords_eq_ok.mpr ⟨?_, hweak ▸ hlength⟩
    rw [hweak]
    refine hstrung.congr fun r _ => ?_
    rw [fieldsOf, hcells, fieldsOf]
  · rw [← hpending]
    refine List.countP_congr fun r _ => ?_
    rw [Arena.readyAt, hcells, Arena.readyAt]

theorem Exhausted.congr (hs : heap.Exhausted) (hlast : heap'.counters.last = heap.counters.last)
    (hweak : heap'.weak = heap.weak) (hcells : ∀ h, heap'.arena.get? h = heap.arena.get? h) :
    heap'.Exhausted :=
  hs.imp fun _ hs => hs.congr hlast hweak hcells

theorem NonePendingBefore.congr {e : HeapError} (he : heap.NonePendingBefore e)
    (hrunning : heap'.finalizers.running = heap.finalizers.running)
    (hlast : heap'.counters.last = heap.counters.last) (hweak : heap'.weak = heap.weak)
    (hcells : ∀ h, heap'.arena.get? h = heap.arena.get? h) : heap'.NonePendingBefore e :=
  fun kind length hsame hrests =>
    (he kind length hsame (hrunning.symm.trans hrests)).congr hlast hweak hcells

theorem NonePendingBefore.of_ne {e : HeapError} (he : ∀ kind length, e ≠ .outOfMemory kind length) :
    heap.NonePendingBefore e :=
  fun kind length hsame => absurd hsame (he kind length)

theorem pending_of_noneReady (hr : heap.NoneReady)
    (hrecords : heap.arena.weakRecords heap.weak = .ok records) :
    heap.arena.pending records = 0 := by
  refine List.countP_eq_zero.mpr fun r hr' => ?_
  rw [Arena.readyAt_iff]
  exact hr records hrecords r hr'

theorem lastFullFound_of_collect {o : Outcome} (hs : heap.Sound)
    (hrun : (collect .full .exhausted).run heap = .ok (o, heap')) :
    ∃ records, heap.arena.weakRecords heap.weak = .ok records ∧
      heap'.LastFullFound o.newlyReady (heap.arena.pending records + o.newlyReady) ∧
      heap'.finalizers = heap.finalizers := by
  obtain ⟨-, _, _, _, _, _, _, -, -, -, -, _, _, _, _, _, -, hheap', hlast, ho, -⟩ := run_collect hrun
  obtain ⟨records, hcol⟩ := collect_collected hs hrun
  refine ⟨records, hcol.chain, ⟨o, records, hheap' ▸ hlast, congrArg Outcome.level ho,
    congrArg Outcome.reason ho, rfl, hcol.chain_after, hcol.pending hs⟩, ?_⟩
  exact congrArg Control.finalizers hcol.control

end Heap

namespace HeapM

open Arena

variable {heap heap' : Heap} {records : List Handle} {kind : Kind} {length : Nat}

theorem ends_pendingFinalizerCount
    (hrecords : heap.arena.weakRecords heap.weak = .ok records) :
    pendingFinalizerCount.run heap = .ok (heap.arena.pending records, heap) := by
  have hfilter : ∀ rs acc : List Handle, (∀ r ∈ rs, r ∈ records) →
      (List.filterAuxM (fun r => return (← flags r).readyToFinalize) rs acc : HeapM _).run heap =
        .ok ((rs.filter heap.arena.readyAt).reverse ++ acc, heap) := by
    intro rs
    induction rs with
    | nil => exact fun acc _ => rfl
    | cons r rs ih =>
      intro acc hsub
      obtain ⟨-, f, hf⟩ :=
        (Heap.weakRecords_eq_ok.mp hrecords).1.fields_of_mem (hsub r List.mem_cons_self)
      obtain ⟨c, hc, -⟩ := Option.bind_eq_some_iff.mp hf
      have hready : c.flags.readyToFinalize = heap.arena.readyAt r := by rw [readyAt, hc]
      rw [List.filterAuxM, run_bind]
      refine ⟨c.flags.readyToFinalize, heap, ?_, ?_⟩
      · exact run_bind.mpr ⟨c.flags, heap, run_flags.mpr ⟨c, hc, rfl, rfl⟩, rfl⟩
      · rw [hready, ih _ fun x hx => hsub x (List.mem_cons_of_mem _ hx), List.filter_cons]
        cases heap.arena.readyAt r <;> simp
  rw [pendingFinalizerCount, run_bind]
  refine ⟨records, heap, run_weakRecords.mpr ⟨hrecords, rfl⟩, run_bind.mpr
    ⟨records.filter heap.arena.readyAt, heap, ?_, ?_⟩⟩
  · rw [List.filterM, run_bind]
    refine ⟨_, heap, hfilter records [] fun _ => id, ?_⟩
    rw [List.append_nil, List.reverse_reverse]
    rfl
  · rw [← List.countP_eq_length_filter]
    rfl

theorem run_takeOrGrow_error {reserved b : Bool}
    (hrun : (takeOrGrow kind length reserved).run heap = .ok (.error b, heap')) :
    heap'.finalizers = heap.finalizers ∧ heap'.counters = heap.counters ∧
      heap'.weak = heap.weak ∧ ∀ h, heap'.arena.get? h = heap.arena.get? h := by
  obtain ⟨mid, hgrow, hlast⟩ := takeOrGrow_cases hrun
  have hmid : heap' = mid := by
    rcases hlast with ⟨-, rfl⟩ | ⟨payload, chunks, claimed, -, hclaim, hr⟩
    · rfl
    · obtain ⟨rfl, -⟩ | ⟨h, -, hno⟩ := hr
      · rcases claimCell?_cases hclaim with ⟨-, hsame⟩ | ⟨h, _, _, _, hno, -⟩
        · exact hsame
        · exact nomatch hno
      · exact nomatch hno
  subst hmid
  rcases hgrow with rfl | ⟨room, hgrow⟩
  · exact ⟨rfl, rfl, rfl, fun _ => rfl⟩
  · rcases grow_cases hgrow with rfl | ⟨i, arena, event, hsegment, rfl⟩
    · exact ⟨rfl, rfl, rfl, fun _ => rfl⟩
    · exact ⟨rfl, rfl, rfl, fun _ => get?_addSegment hsegment⟩

theorem lastFullFound_escalate {levels : List Level} {reserved b : Bool} (hs : heap.Sound)
    (hkind : kind ≠ .free)
    (hrun : (escalate kind length reserved (levels ++ [.full])).run heap = .ok (.error b, heap')) :
    ∃ newly pending, newly ≤ pending ∧ heap'.LastFullFound newly pending := by
  induction levels generalizing heap reserved with
  | nil =>
    obtain ⟨o, mid, hcollect, hrest⟩ := run_bind.mp hrun
    obtain ⟨taken, last, htake, hend⟩ := run_bind.mp hrest
    cases taken with
    | ok h => exact nomatch (run_pure.mp hend).1
    | error b' =>
      obtain ⟨-, rfl⟩ := run_pure.mp hend
      obtain ⟨records, -, hlastFullFound, -⟩ := Heap.lastFullFound_of_collect hs hcollect
      obtain ⟨-, hcounters, hweak, hcells⟩ := run_takeOrGrow_error htake
      exact ⟨_, _, Nat.le_add_left _ _, hlastFullFound.congr (by rw [hcounters]) hweak hcells⟩
  | cons level levels ih =>
    obtain ⟨o, mid, hcollect, hrest⟩ := run_bind.mp hrun
    obtain ⟨taken, last, htake, hend⟩ := run_bind.mp hrest
    have hmid : mid.Sound := Safe.collect _ _ _ hs hcollect
    cases taken with
    | ok h => exact nomatch (run_pure.mp hend).1
    | error b' => exact ih (run_takeOrGrow hmid hkind htake).1 hend

end HeapM

theorem Level.upward_eq (level : Level) : ∃ levels, level.upward = levels ++ [.full] := by
  cases level
  · exact ⟨[.minor, .mid], rfl⟩
  · exact ⟨[.mid], rfl⟩
  · exact ⟨[], rfl⟩

namespace HostM

variable {ω : Type} {host : Host ω} {kind : Kind} {length : Nat}

theorem exhausted_finalizeAndRetry (hhost : host.Safe) {reserved : Bool} :
    Triple (fun heap => heap.Sound ∧ ∃ newly pending, newly ≤ pending ∧ heap.LastFullFound newly pending)
      (finalizeAndRetry host kind length reserved) fun taken heap => ∀ b, taken = .error b →
        heap.finalizers.running = false → heap.Exhausted := by
  rintro state heap ⟨taken, state'⟩ heap' ⟨hs, newly, pending, hle, hlastFullFound⟩ hrun b rfl hrests
  obtain ⟨n, first, counted, hcount, hrest⟩ := run_bindM.mp hrun
  obtain ⟨rfl, hcounted⟩ := run_liftM.mp hcount
  obtain ⟨o, records, hlast, hlevel, hreason, hnewly, hrecords, hpending⟩ := id hlastFullFound
  rw [HeapM.ends_pendingFinalizerCount hrecords, Except.ok.injEq, Prod.mk.injEq] at hcounted
  obtain ⟨rfl, rfl⟩ := hcounted
  split at hrest
  · rename_i hnone
    obtain ⟨-, rfl⟩ := run_pure.mp hrest
    obtain rfl : pending = newly := by omega
    exact ⟨_, hlastFullFound⟩
  · obtain ⟨ran, second, finalized, hrunning, hmore⟩ := run_bindM.mp hrest
    obtain ⟨o', third, collected, hcollect, htake⟩ := run_bindM.mp hmore
    obtain ⟨rfl, hcollected⟩ := run_liftM.mp hcollect
    obtain ⟨rfl, htaken⟩ := run_liftM.mp htake
    have hfinalized : finalized.Sound := Safe.runPendingFinalizers hhost _ _ _ _ hs hrunning
    obtain ⟨rs, hrs, hlastFullFound', hsame⟩ := Heap.lastFullFound_of_collect hfinalized hcollected
    obtain ⟨hfinalizers, hcounters, hweak, hcells⟩ := HeapM.run_takeOrGrow_error htaken
    have hbefore : heap.finalizers.running = false := by
      rcases run_runPendingFinalizers hrunning with ⟨-, rfl⟩ | ⟨hidle, -⟩
      · rw [← hsame, ← hfinalizers, hrests]
      · exact hidle
    rw [Heap.pending_of_noneReady (spent_runPendingFinalizers hbefore hrunning) hrs, Nat.zero_add]
      at hlastFullFound'
    exact ⟨_, hlastFullFound'.congr (by rw [hcounters]) hweak hcells⟩

theorem excused_allocateSlow (hhost : host.Safe) (hkind : kind ≠ .free) :
    Triple Heap.Sound (allocateSlow host kind length) fun result heap =>
      ∀ e, result = .error e → heap.NonePendingBefore e := by
  refine .bind (Q := fun _ => Heap.Sound) (Safe.reads .collectionDue) fun due => ?_
  rcases due with _ | reason
  on_goal 2 =>
    refine .bind (Q := fun _ => Heap.Sound) Safe.getHeap fun heap => ?_
    refine .bind (Q := fun _ => Heap.Sound) (Safe.lift .collect) fun _ => ?_
  all_goals
    refine .bind (Q := fun _ => Heap.Sound) (Safe.lift (.takeOrGrow hkind)) fun taken => ?_
    cases taken with
    | ok h => exact .pure fun _ _ _ hcontra => absurd hcontra (by simp)
    | error reserved =>
      refine .bind (Q := fun _ => Heap.Sound) Safe.getHeap fun heap => ?_
      obtain ⟨levels, hlevels⟩ := Level.upward_eq heap.strategy.chooseLevel
      rw [hlevels]
      refine .bind (Q := fun taken heap => heap.Sound ∧ ∀ b, taken = .error b →
        ∃ newly pending, newly ≤ pending ∧ heap.LastFullFound newly pending) (.lift ?_) fun taken => ?_
      · intro heap taken heap' hs hrun
        refine ⟨?_, fun b hb => lastFullFound_escalate hs hkind (hb ▸ hrun)⟩
        exact (escalate_holds hkind _ _ _ _ _ ⟨hs, fun p (hp : p ∈ []) => by cases hp⟩ hrun).1.1
      · cases taken with
        | ok h => exact .pure fun _ _ _ hcontra => absurd hcontra (by simp)
        | error reserved =>
          refine .bind (((exhausted_finalizeAndRetry hhost).conseq
            (fun _ hs => ⟨hs.1, hs.2 reserved rfl⟩) fun _ _ => id)) fun taken => ?_
          cases taken with
          | ok h => exact .pure fun _ _ _ hcontra => absurd hcontra (by simp)
          | error reserved =>
            refine .bind (Q := fun _ heap => heap.finalizers.running = false → heap.Exhausted)
              (.lift (.modify fun heap hs hrests =>
                (hs reserved rfl hrests).congr rfl rfl fun _ => rfl)) fun _ => .pure ?_
            rintro heap hs e he kind' length' - hrests
            exact hs hrests

end HostM

end ManagedHeap
