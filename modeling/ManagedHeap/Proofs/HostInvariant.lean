import ManagedHeap.Proofs.AllocationInvariant
import ManagedHeap.Proofs.RecordInvariant

/-!
# Foreign code and allocation keep the invariant

Finalizers run between any two steps of a slow allocation. As long as the foreign code
keeps the invariant, everything that may run it does.
-/

namespace ManagedHeap

namespace HostM

variable {ω α β : Type} {x : HostM ω α} {f : α → HostM ω β}

def Safe (act : HostM ω α) : Prop := Triple Heap.Sound act fun _ => Heap.Sound

namespace Safe

theorem bind (hx : Safe x) (hf : ∀ a, Safe (f a)) : Safe (x >>= f) := Triple.bind hx hf

theorem pure {a : α} : Safe (pure a : HostM ω α) := Triple.pure fun _ => id

theorem throw {e : Fault} : Safe (throwThe Fault e : HostM ω α) := Triple.throw

theorem lift {act : HeapM α} (h : act.Safe) : Safe (liftM act : HostM ω α) := Triple.lift h

theorem reads {act : HeapM α} (h : act.Reads) : Safe (liftM act : HostM ω α) := lift (.of_reads h)

theorem getHeap : Safe (getThe Heap : HostM ω Heap) := Triple.getHeap fun _ => id

end Safe

end HostM

/-- The foreign code keeps the invariant. -/
structure Host.Safe {ω : Type} (host : Host ω) : Prop where
  native : ∀ routine key, HostM.Safe (host.native routine key)
  evaluate : ∀ evaluator function key, HostM.Safe (host.evaluate evaluator function key)

namespace HostM.Safe

variable {ω α : Type} {host : Host ω}

theorem stepBound : Safe (stepBound host) := bind (reads .walkBound) fun _ => pure

theorem modifyHeap {g : Heap → Heap} (hconfig : ∀ heap, (g heap).config = heap.config)
    (harena : ∀ heap, (g heap).arena = heap.arena)
    (hstrings : ∀ heap, (g heap).strings = heap.strings)
    (hremembered : ∀ heap, (g heap).remembered = heap.remembered)
    (htasks : ∀ heap, (g heap).tasks = heap.tasks) : Safe (modifyThe Heap g : HostM ω PUnit) :=
  lift (.modify hconfig harena hstrings hremembered htasks)

theorem withTransient {hs : List Handle} {act : HostM ω α} (hact : Safe act) :
    Safe (withTransient hs act) :=
  bind (lift .openTransient) fun _ => bind hact fun _ => bind (lift .closeTransient) fun _ => pure

theorem invoke (hhost : host.Safe) (function key : Handle) : Safe (invoke host function key) := by
  refine bind (reads .kind) fun k => ?_
  cases k
  case nativeFunction =>
    refine bind (reads .payload) fun p => ?_
    cases p
    case nativeFunction routine =>
      cases routine with
      | none => exact pure
      | some routine => exact hhost.native routine key
    all_goals exact reads .wrongKind
  case closure =>
    refine bind getHeap fun heap => ?_
    cases heap.evaluator with
    | none => exact pure
    | some evaluator =>
      refine bind ?_ fun _ => bind (hhost.evaluate evaluator function key) fun outcome =>
        bind getHeap fun after => ?_
      · exact modifyHeap (fun _ => rfl) (fun _ => rfl) (fun _ => rfl) (fun _ => rfl) fun _ => rfl
      · split
        · refine bind ?_ fun _ => pure
          exact modifyHeap (fun _ => rfl) (fun _ => rfl) (fun _ => rfl) (fun _ => rfl) fun _ => rfl
        · exact pure
  all_goals exact throw

theorem runFinalizer (hhost : host.Safe) (record function key : Handle) :
    Safe (runFinalizer host record function key) := by
  refine bind (withTransient (bind (lift .noteCall) fun _ => ?_)) fun outcome =>
    bind (lift .countRun) fun _ => ?_
  · refine bind (reads .enterRecovery) fun scope => bind (invoke hhost function key) fun outcome =>
      bind (lift .leaveRecovery) fun changed => ?_
    split
    · exact bind (lift .note) fun _ => pure
    · exact pure
  · cases outcome with
    | ok u => exact pure
    | error e => exact bind (lift .modifyFinalizers) fun _ => lift .note

theorem finalizePass (hhost : host.Safe) (fuel : Nat) (previous cursor : Handle) (found : Bool)
    (ran : Nat) : Safe (finalizePass host previous cursor found ran fuel) := by
  induction fuel generalizing previous cursor found ran with
  | zero => exact throw
  | succ fuel ih =>
    unfold HostM.finalizePass
    split
    · exact pure
    · refine bind (reads .chainFields) fun fields => bind (reads .flags) fun flags => ?_
      split
      · exact ih cursor fields.next found ran
      · refine bind (lift .unlinkWeakRef) fun _ => ?_
        split
        · exact ih previous fields.next true ran
        · exact bind (runFinalizer hhost cursor fields.finalizer fields.key) fun _ =>
            ih previous fields.next true (ran + 1)

theorem finalizePasses (hhost : host.Safe) (fuel ran : Nat) :
    Safe (finalizePasses host ran fuel) := by
  induction fuel generalizing ran with
  | zero => exact throw
  | succ fuel ih =>
    refine bind getHeap fun heap => bind stepBound fun bound =>
      bind (finalizePass hhost bound .nil heap.weak.head false ran) fun result => ?_
    obtain ⟨found, ran⟩ := result
    dsimp only
    split
    · exact ih ran
    · exact pure

theorem runPendingFinalizers (hhost : host.Safe) : Safe (runPendingFinalizers host) := by
  refine bind getHeap fun heap => ?_
  split
  · exact pure
  · exact bind (lift .modifyFinalizers) fun _ => bind (finalizePasses hhost host.fuel 0) fun ran =>
      bind (lift .modifyFinalizers) fun _ => pure

theorem runExitFinalizers (hhost : host.Safe) : Safe (runExitFinalizers host) := by
  refine bind getHeap fun heap => ?_
  split
  · exact pure
  · exact bind (reads .weakRecords) fun records => bind (lift (.flagOnExit records)) fun _ =>
      bind (runPendingFinalizers hhost) fun ran => bind (lift .modifyFinalizers) fun _ =>
      bind (lift .note) fun _ => pure

theorem requestCollection (hhost : host.Safe) (level : Level) :
    Safe (requestCollection host level) :=
  bind (lift .collect) fun _ => bind (runPendingFinalizers hhost) fun _ => pure

end HostM.Safe

def Heap.KeptStrings (heap : Heap) (pins roots : List Handle) : Prop :=
  ∀ p ∈ pins, p ∈ roots ∧ ∃ c, heap.arena.get? p = some c ∧ c.flags.cached = true

theorem Heap.Holds.spared {heap : Heap} {pins : List Handle} {h : Handle}
    (hholds : heap.Holds pins) : heap.Spared pins h := by
  intro p hp d hd
  obtain ⟨-, c, hc, hcached⟩ := hholds p hp
  rw [hd, Option.some.injEq] at hc
  exact .inr (.inr (hc ▸ hcached))

def Heap.Allocated (heap : Heap) (kind : Kind) (pins : List Handle) (h : Handle) : Prop :=
  heap.Fresh kind h ∧ heap.Spared pins h

namespace HostM

variable {ω : Type} {host : Host ω} {kind : Kind} {length : Nat} {pins roots : List Handle}

theorem finalizeAndRetry_spec (hhost : host.Safe) (hkind : kind ≠ .free) {reserved : Bool} :
    Triple Heap.Sound (finalizeAndRetry host kind length reserved)
      fun r heap => heap.Sound ∧ ∀ h, r = .ok h → heap.Allocated kind pins h := by
  refine .bind (Safe.reads .pendingFinalizerCount) fun n => ?_
  split
  · exact .pure fun heap hs => ⟨hs, nofun⟩
  · refine .bind (Safe.runPendingFinalizers hhost) fun ran => ?_
    exact .bind (.lift HeapM.collect_aged) fun _ => .lift (HeapM.takeOrGrow_aged hkind)

theorem Triple.retry {P M : Heap → Prop} {N : Handle → Heap → Prop}
    {x : HostM ω (Except Bool Handle)} {next : Bool → HostM ω (Except HeapError Handle)}
    (hx : Triple P x fun r heap => M heap ∧ ∀ h, r = .ok h → N h heap)
    (hsound : ∀ heap, M heap → heap.Sound)
    (hfound : ∀ h heap, M heap → N h heap → heap.Allocated kind pins h)
    (hnext : ∀ reserved, Triple M (next reserved)
      fun r heap => heap.Sound ∧ ∀ h, r = .ok h → heap.Allocated kind pins h) :
    Triple P (do
      match ← x with
      | .ok h => return .ok h
      | .error reserved => next reserved)
      fun r heap => heap.Sound ∧ ∀ h, r = .ok h → heap.Allocated kind pins h := by
  refine .bind hx fun r => ?_
  cases r with
  | ok h =>
    refine .pure fun heap ⟨hM, hN⟩ => ⟨hsound heap hM, ?_⟩
    intro g hg
    rw [Except.ok.injEq] at hg
    exact hg ▸ hfound h heap hM (hN h rfl)
  | error reserved => exact (hnext reserved).conseq (fun _ h => h.1) fun _ _ => id

theorem allocateSlow_spec (hhost : host.Safe) (hkind : kind ≠ .free) :
    Triple (fun heap => heap.Sound ∧ heap.Holds pins) (allocateSlow host kind length)
      fun r heap => heap.Sound ∧ ∀ h, r = .ok h → heap.Allocated kind pins h := by
  refine .bind (Q := fun _ heap => heap.Sound ∧ heap.Holds pins)
    (.lift (.of_reads .collectionDue fun _ _ => id)) fun due => ?_
  dsimp only
  rcases due with _ | reason
  on_goal 2 =>
    refine .bind (.getHeap (Q := fun _ heap => heap.Sound ∧ heap.Holds pins) fun _ => id)
      fun heap => .bind (.lift HeapM.collect_holds) fun _ => ?_
  all_goals
    refine .retry (.lift (HeapM.takeOrGrow_holds hkind)) (fun _ h => h.1)
      (fun h heap hM hfresh => ⟨hfresh, hM.2.spared⟩) fun reserved => ?_
    refine .bind (.getHeap (Q := fun _ heap => heap.Sound ∧ heap.Holds pins) fun _ => id)
      fun heap => ?_
    refine .retry (.lift (HeapM.escalate_holds hkind _ reserved)) (fun _ h => h.1)
      (fun h heap hM hfresh => ⟨hfresh, hM.2.spared⟩) fun reserved => ?_
    refine .conseq (P := Heap.Sound) ?_ (fun _ h => h.1) fun _ _ => id
    have hretry : Triple Heap.Sound (finalizeAndRetry host kind length reserved)
        fun r heap => heap.Sound ∧ ∀ h, r = .ok h → heap.Allocated kind pins h :=
      finalizeAndRetry_spec hhost hkind
    refine .retry hretry (fun _ => id) (fun h heap _ => id) fun reserved => ?_
    exact .bind (Safe.lift .note) fun _ => .pure fun heap hs => ⟨hs, nofun⟩

theorem allocateFast_spec :
    HeapM.Triple (fun heap => heap.Sound ∧ heap.KeptStrings pins roots) (HeapM.allocateFast kind length)
      fun h heap => (heap.Sound ∧ heap.KeptStrings pins roots) ∧
        (h = .noObject ∨ heap.Allocated kind pins h) := by
  rintro heap h heap' ⟨hs, hkeptStrings⟩ hrun
  obtain ⟨hs', -, hkept, hcases⟩ := HeapM.run_allocateFast hs hrun
  have hkeptStrings' : heap'.KeptStrings pins roots := by
    intro p hp
    obtain ⟨hmem, c, hc, hcached⟩ := hkeptStrings p hp
    exact ⟨hmem, c, hkept hc, hcached⟩
  refine ⟨⟨hs', hkeptStrings'⟩, hcases.imp_right fun hfresh => ⟨hfresh.1, ?_⟩⟩
  intro p hp d hd
  obtain ⟨-, c, hc, hcached⟩ := hkeptStrings' p hp
  rw [hd, Option.some.injEq] at hc
  exact .inr (.inr (hc ▸ hcached))

theorem openTransient_spec :
    HeapM.Triple (fun heap => heap.Sound ∧ heap.KeptStrings pins roots) (HeapM.openTransient roots)
      fun _ heap => heap.Sound ∧ heap.Holds pins := by
  rintro heap depth heap' ⟨hs, hkeptStrings⟩ hrun
  simp only [HeapM.openTransient, HeapM.modifyRoots, run_bind, run_get,
    run_modify, run_pure] at hrun
  obtain ⟨_, _, ⟨rfl, rfl⟩, _, _, rfl, -, rfl⟩ := hrun
  refine ⟨hs.aside rfl rfl rfl rfl rfl, ?_⟩
  intro p hp
  obtain ⟨hmem, hcell⟩ := hkeptStrings p hp
  exact ⟨Array.mem_append.mpr (.inr (List.mem_toArray.mpr hmem)), hcell⟩

theorem allocate_spec (hhost : host.Safe) :
    Attempt.Triple (fun heap => heap.Sound ∧ heap.KeptStrings pins roots)
      (allocate host kind length roots)
      (fun h heap => heap.Sound ∧ heap.Allocated kind pins h) Heap.Sound := by
  unfold allocate
  dsimp only
  split
  · exact .bind (Q := fun _ _ => False) (.throw fun _ h => h.1) fun _ => .absurd
  · rename_i hallocatable
    replace hallocatable : kind.isAllocatable = true := by simpa using hallocatable
    split
    · exact .bind (Q := fun _ _ => False) (.throw fun _ h => h.1) fun _ => .absurd
    · refine .bind (.lift allocateFast_spec) fun h => ?_
      split
      · rename_i hobject
        refine .pure fun heap hs => ⟨hs.1.1, hs.2.resolve_left ?_⟩
        rintro rfl
        exact nomatch hobject
      · have hopen : HeapM.Triple (fun heap => (heap.Sound ∧ heap.KeptStrings pins roots) ∧
            (h = .noObject ∨ heap.Allocated kind pins h)) (HeapM.openTransient roots)
            fun _ heap => heap.Sound ∧ heap.Holds pins :=
          openTransient_spec.conseq (fun _ h => h.1) fun _ _ => id
        refine .mk (.bind (.lift hopen) fun depth => ?_)
        refine .bind (allocateSlow_spec hhost (HeapM.kind_ne_free hallocatable)) fun r => ?_
        refine .bind (Q := fun _ heap =>
          heap.Sound ∧ ∀ h, r = .ok h → heap.Allocated kind pins h) (.lift ?_) fun _ => ?_
        · exact .modify fun heap hs => ⟨hs.1.aside rfl rfl rfl rfl rfl, hs.2⟩
        · refine .pure fun heap hs => ?_
          cases r with
          | ok h => exact ⟨hs.1, hs.2 h rfl⟩
          | error e => exact hs.1

end HostM

end ManagedHeap
