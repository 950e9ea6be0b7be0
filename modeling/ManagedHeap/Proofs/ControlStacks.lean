import ManagedHeap.Proofs.FinalizerWeakRuns

/-!
# What finalizers leave of the control stacks

Leaving a recovery scope cuts every control stack back to the depth at which the scope was
entered. It puts nothing back: of a stack that was popped below that depth only what is left
stays, and only for the protection stack this is a fault. So a run of finalizers keeps the depth
of the protection stack, and of the other stacks what the finalizers that were called left of
them.
-/

namespace ManagedHeap

/-- The stacks whose depths a recovery scope keeps. -/
inductive ControlStack
  | protect | contexts | byteCode | transient
deriving DecidableEq, Repr

def RecoveryScope.depth (scope : RecoveryScope) : ControlStack → Nat
  | .protect => scope.protect
  | .contexts => scope.contexts
  | .byteCode => scope.byteCode
  | .transient => scope.transient

namespace Heap

/-- The depths of all control stacks. -/
def levels (heap : Heap) : RecoveryScope where
  protect := heap.protect.depth
  contexts := heap.roots.contexts.size
  byteCode := heap.roots.byteCode.size
  transient := heap.roots.transient.size

/-- How deep a control stack is. -/
def depth (heap : Heap) : ControlStack → Nat := heap.levels.depth

/-- The heap with every control stack cut back. -/
def cutBack (heap : Heap) (scope : RecoveryScope) : Heap :=
  { heap with
    protect := heap.protect.truncate scope.protect
    roots := { heap.roots with
      contexts := heap.roots.contexts.shrink scope.contexts
      byteCode := heap.roots.byteCode.shrink scope.byteCode
      transient := heap.roots.transient.shrink scope.transient }
    journal := heap.journal.record (.left scope.transient) }

theorem depth_cutBack (heap : Heap) (scope : RecoveryScope) (stack : ControlStack) :
    (heap.cutBack scope).depth stack = min (scope.depth stack) (heap.depth stack) := by
  cases stack with
  | protect => exact heap.protect.depth_truncate scope.protect
  | contexts => exact Array.size_shrink
  | byteCode => exact Array.size_shrink
  | transient => exact Array.size_shrink

theorem depth_keeping (heap : Heap) (transient : Array Handle) (stack : ControlStack) :
    (heap.keeping transient).depth stack =
      if stack = .transient then transient.size else heap.depth stack := by
  cases stack <;> rfl

end Heap

namespace HeapM

variable {α β : Type} {heap heap' : Heap}

theorem levels_of_enterRecovery {scope : RecoveryScope}
    (hrun : enterRecovery.run heap = .ok (scope, heap')) : scope = heap.levels ∧ heap' = heap := by
  simp only [enterRecovery, run_bind, run_get, run_pure] at hrun
  obtain ⟨_, _, ⟨rfl, rfl⟩, rfl, rfl⟩ := hrun
  exact ⟨rfl, rfl⟩

theorem leaveRecovery_eq (scope : RecoveryScope) (heap : Heap) :
    (leaveRecovery scope).run heap =
      if heap.protect.depth < scope.protect then .error .recoveryBelowBase
      else .ok (decide (heap.levels ≠ scope), heap.cutBack scope) := by
  change (if heap.protect.depth < scope.protect then _ else _ : HeapM Bool).run heap = _
  by_cases hlow : heap.protect.depth < scope.protect
  · rw [if_pos hlow, if_pos hlow]
    rfl
  · rw [if_neg hlow, if_neg hlow]
    rfl

def KeepsDepths (act : HeapM α) : Prop :=
  ∀ heap a heap', act.run heap = .ok (a, heap') → heap'.depth = heap.depth

namespace KeepsDepths

variable {x act : HeapM α} {f : α → HeapM β}

theorem bind (hx : KeepsDepths x) (hf : ∀ a, KeepsDepths (f a)) : KeepsDepths (x >>= f) := by
  intro heap b heap' hrun
  obtain ⟨a, mid, hfirst, hrest⟩ := run_bind.mp hrun
  exact (hf a mid b heap' hrest).trans (hx heap a mid hfirst)

theorem of_reads (hx : Reads x) : KeepsDepths x := by
  intro heap a heap' hrun
  rw [hx heap a heap' hrun]

theorem modify {g : Heap → Heap} (hg : ∀ heap, (g heap).depth = heap.depth) :
    KeepsDepths (modify g) := by
  intro heap u heap' hrun
  rw [← run_modify.mp hrun, hg]

theorem note {e : Event} : KeepsDepths (note e) := modify fun _ => rfl

theorem modifyFinalizers {g : FinalizerState → FinalizerState} : KeepsDepths (modifyFinalizers g) :=
  modify fun _ => rfl

theorem noteCall {record function key : Handle} : KeepsDepths (noteCall record function key) :=
  modify fun _ => rfl

theorem countRun : KeepsDepths countRun := modify fun _ => rfl

theorem updateCell {h : Handle} {g : Cell → Cell} : KeepsDepths (updateCell h g) := by
  intro heap u heap' hrun
  rw [(run_updateCell.mp hrun).2]
  rfl

theorem unlinkWeakRef {record hint : Handle} : KeepsDepths (unlinkWeakRef record hint) := by
  refine bind (of_reads .chainFields) fun fields => bind (of_reads .predecessor) fun previous =>
    bind (of_reads .flags) fun fs => ?_
  have hrest : KeepsDepths (clearRecord record fs.readyToFinalize) :=
    bind updateCell fun _ => modify fun _ => rfl
  dsimp only
  split
  · exact bind (modify fun _ => rfl) fun _ => hrest
  · exact bind updateCell fun _ => hrest

end KeepsDepths

end HeapM

variable {ω : Type}

/-- A finalizer that is called with the heap `start` comes back with the heap `stop`. -/
def Host.ComesBack (host : Host ω) (start stop : Heap) : Prop :=
  ∃ function key state outcome state', ((HostM.invoke host function key).run state).run start =
    .ok ((outcome, state'), stop)

/-- Calls of finalizers, one after the other, take the depths of the control stacks down to
what each call leaves of them. No call leaves the protection stack lower. -/
inductive Host.Unwinds (host : Host ω) :
    (ControlStack → Nat) → List (Heap × Heap) → (ControlStack → Nat) → Prop
  | rest (d : ControlStack → Nat) : host.Unwinds d [] d
  | call {d d' : ControlStack → Nat} {start stop : Heap} {calls : List (Heap × Heap)} :
      host.ComesBack start stop → (∀ stack, d stack ≤ start.depth stack) →
      d .protect ≤ stop.depth .protect →
      host.Unwinds (fun stack => min (d stack) (stop.depth stack)) calls d' →
      host.Unwinds d ((start, stop) :: calls) d'

namespace Host.Unwinds

variable {host : Host ω} {d d' d'' : ControlStack → Nat} {calls calls' : List (Heap × Heap)}

theorem trans (h : host.Unwinds d calls d') (h' : host.Unwinds d' calls' d'') :
    host.Unwinds d (calls ++ calls') d'' := by
  induction h with
  | rest d => exact h'
  | call hback hstart hprotect _ ih => exact .call hback hstart hprotect (ih h')

theorem comesBack (h : host.Unwinds d calls d') : ∀ c ∈ calls, host.ComesBack c.1 c.2 := by
  induction h with
  | rest d => exact fun _ hc => absurd hc List.not_mem_nil
  | call hback _ _ _ ih => exact List.forall_mem_cons.mpr ⟨hback, ih⟩

theorem le_iff (h : host.Unwinds d calls d') (stack : ControlStack) (n : Nat) :
    n ≤ d' stack ↔ n ≤ d stack ∧ ∀ c ∈ calls, n ≤ c.2.depth stack := by
  induction h with
  | rest d => simp
  | call _ _ _ _ ih => rw [ih, Nat.le_min, List.forall_mem_cons, and_assoc]

theorem protect_eq (h : host.Unwinds d calls d') : d' .protect = d .protect := by
  induction h with
  | rest d => rfl
  | call _ _ hprotect _ ih => exact ih.trans (Nat.min_eq_left hprotect)

theorem eq_of_restored (h : host.Unwinds d calls d') (stack : ControlStack)
    (hrestored : ∀ c ∈ calls, c.1.depth stack ≤ c.2.depth stack) : d' stack = d stack := by
  induction h with
  | rest d => rfl
  | call _ hstart _ _ ih =>
    obtain ⟨hfirst, hothers⟩ := List.forall_mem_cons.mp hrestored
    exact (ih hothers).trans (Nat.min_eq_left (Nat.le_trans (hstart stack) hfirst))

end Host.Unwinds

namespace HostM

variable {host : Host ω} {function key : Handle} {state state' : ω} {heap heap' : Heap}

theorem unwinds_runFinalizer {u : PUnit}
    (hrun : ((runFinalizer host record function key).run state).run heap = .ok ((u, state'), heap')) :
    ∃ start stop, host.Unwinds heap.depth [(start, stop)] heap'.depth := by
  rw [runFinalizer] at hrun
  obtain ⟨outcome, first, closed, hscope, hcount⟩ := run_bindM.mp hrun
  obtain ⟨last, hinside, rfl⟩ := run_withTransient hscope
  obtain ⟨_, _, noted, hnoted, hscoped⟩ := run_bindM.mp hinside
  obtain ⟨rfl, hnote⟩ := run_liftM.mp hnoted
  have hstart : noted.depth = _ := HeapM.KeepsDepths.noteCall _ _ _ hnote
  obtain ⟨scope, second, opened, henter, hbody⟩ := run_bindM.mp hscoped
  obtain ⟨rfl, hentered⟩ := run_liftM.mp henter
  obtain ⟨rfl, rfl⟩ := HeapM.levels_of_enterRecovery hentered
  obtain ⟨result, third, stop, hinvoke, hunwind⟩ := run_bindM.mp hbody
  obtain ⟨changed, fourth, cut, hleave, hend⟩ := run_bindM.mp hunwind
  obtain ⟨-, hleft⟩ := run_liftM.mp hleave
  rw [HeapM.leaveRecovery_eq] at hleft
  split at hleft
  · cases hleft
  rename_i hhigh
  obtain ⟨-, rfl⟩ := Prod.mk.inj (Except.ok.inj hleft)
  have hlast : last.depth = (stop.cutBack opened.levels).depth := by
    split at hend
    · obtain ⟨_, fifth, noted, hnote, hreturn⟩ := run_bindM.mp hend
      obtain ⟨-, rfl⟩ := run_pure.mp hreturn
      exact HeapM.KeepsDepths.note _ _ _ (run_liftM.mp hnote).2
    · rw [(run_pure.mp hend).2]
  have hafter : heap'.depth = (last.keeping (last.roots.transient.shrink
      heap.roots.transient.size)).depth := by
    obtain ⟨_, fifth, counted, hmodify, hfailed⟩ := run_bindM.mp hcount
    have hcounted := HeapM.KeepsDepths.countRun _ _ _ (run_liftM.mp hmodify).2
    cases outcome with
    | ok _ => exact (run_pure.mp hfailed).2 ▸ hcounted
    | error e =>
      obtain ⟨_, sixth, noticed, hfail, hnote⟩ := run_bindM.mp hfailed
      exact ((HeapM.KeepsDepths.note _ _ _ (run_liftM.mp hnote).2).trans
        (HeapM.KeepsDepths.modifyFinalizers _ _ _ (run_liftM.mp hfail).2)).trans hcounted
  have hopened : ∀ stack, opened.depth stack =
      heap.depth stack + if stack = .transient then 2 else 0 := fun stack => by
    rw [hstart, Heap.depth_keeping]
    cases stack <;> simp [Heap.depth, Heap.levels, RecoveryScope.depth]
  have hclosed : ∀ stack, heap'.depth stack = min (heap.depth stack) (stop.depth stack) := by
    intro stack
    have hcut := (congrFun hlast stack).trans (stop.depth_cutBack opened.levels stack)
    change last.depth stack = min (opened.depth stack) (stop.depth stack) at hcut
    rw [hafter, Heap.depth_keeping]
    have htransient : last.roots.transient.size = last.depth .transient := rfl
    have hbefore : heap.roots.transient.size = heap.depth .transient := rfl
    rw [hopened] at hcut
    split
    · rename_i hstack
      subst hstack
      rw [Array.size_shrink, htransient, hbefore, hcut]
      simp only [if_true]
      omega
    · rename_i hstack
      rw [hcut, if_neg hstack]
      omega
  have hprotect : opened.levels.protect = heap.depth .protect := hopened .protect
  refine ⟨opened, stop, .call ⟨function, key, _, result, _, hinvoke⟩ (fun stack => ?_) ?_
    (funext hclosed ▸ .rest _)⟩
  · rw [hopened]
    exact Nat.le_add_right _ _
  · exact hprotect ▸ Nat.le_of_not_lt hhigh

theorem unwinds_finalizePass {fuel : Nat} {previous cursor : Handle} {found found' : Bool}
    {ran ran' : Nat}
    (hrun : ((finalizePass host previous cursor found ran fuel).run state).run heap =
      .ok (((found', ran'), state'), heap')) :
    ∃ calls, ran' = ran + calls.length ∧ host.Unwinds heap.depth calls heap'.depth := by
  induction fuel generalizing previous cursor found ran state heap with
  | zero => cases hrun
  | succ fuel ih =>
    unfold finalizePass at hrun
    split at hrun
    · obtain ⟨hsame, rfl⟩ := run_pure.mp hrun
      obtain ⟨hanswer, -⟩ := Prod.mk.inj hsame
      exact ⟨[], (Prod.mk.inj hanswer).2.symm, .rest _⟩
    · obtain ⟨fields, first, mid, hread, hflags⟩ := run_bindM.mp hrun
      obtain rfl := HeapM.Reads.chainFields _ _ _ (run_liftM.mp hread).2
      obtain ⟨fs, second, seen, hlook, hrest⟩ := run_bindM.mp hflags
      obtain rfl := HeapM.Reads.flags _ _ _ (run_liftM.mp hlook).2
      split at hrest
      · exact ih hrest
      · obtain ⟨_, third, off, hunlink, hagain⟩ := run_bindM.mp hrest
        have hoff := HeapM.KeepsDepths.unlinkWeakRef _ _ _ (run_liftM.mp hunlink).2
        split at hagain
        · exact hoff ▸ ih hagain
        · obtain ⟨_, fourth, back, hcall, hlast⟩ := run_bindM.mp hagain
          obtain ⟨start, stop, hunwinds⟩ := unwinds_runFinalizer hcall
          obtain ⟨calls, rfl, hothers⟩ := ih hlast
          refine ⟨(start, stop) :: calls, ?_, hoff ▸ hunwinds.trans hothers⟩
          rw [List.length_cons]
          omega

theorem unwinds_finalizePasses {fuel ran ran' : Nat}
    (hrun : ((finalizePasses host ran fuel).run state).run heap = .ok ((ran', state'), heap')) :
    ∃ calls, ran' = ran + calls.length ∧ host.Unwinds heap.depth calls heap'.depth := by
  induction fuel generalizing ran state heap with
  | zero => cases hrun
  | succ fuel ih =>
    unfold finalizePasses at hrun
    obtain ⟨now, first, start, hget, hbound⟩ := run_bindM.mp hrun
    obtain ⟨rfl, rfl⟩ := run_get.mp (run_liftM.mp hget).2
    obtain ⟨bound, second, mid, hstep, hpass⟩ := run_bindM.mp hbound
    obtain ⟨limit, third, walked, hwalk, hstepped⟩ := run_bindM.mp hstep
    obtain rfl := HeapM.Reads.walkBound _ _ _ (run_liftM.mp hwalk).2
    obtain ⟨-, rfl⟩ := run_pure.mp hstepped
    obtain ⟨⟨found, total⟩, fourth, passed, hfirst, hrest⟩ := run_bindM.mp hpass
    obtain ⟨calls, rfl, hcalls⟩ := unwinds_finalizePass hfirst
    cases found with
    | true =>
      obtain ⟨others, rfl, hothers⟩ := ih hrest
      exact ⟨calls ++ others, by rw [List.length_append, Nat.add_assoc], hcalls.trans hothers⟩
    | false =>
      obtain ⟨hsame, rfl⟩ := run_pure.mp hrest
      exact ⟨calls, (Prod.mk.inj hsame).1.symm, hcalls⟩

theorem unwinds_runPendingFinalizers {ran : Nat}
    (hrun : ((runPendingFinalizers host).run state).run heap = .ok ((ran, state'), heap')) :
    ∃ calls, ran = calls.length ∧ host.Unwinds heap.depth calls heap'.depth := by
  rw [runPendingFinalizers] at hrun
  obtain ⟨now, first, mid, hget, hrest⟩ := run_bindM.mp hrun
  obtain ⟨rfl, rfl⟩ := run_get.mp (run_liftM.mp hget).2
  split at hrest
  · obtain ⟨hsame, rfl⟩ := run_pure.mp hrest
    exact ⟨[], (Prod.mk.inj hsame).1.symm, .rest _⟩
  · obtain ⟨_, second, opened, hopen, hbody⟩ := run_bindM.mp hrest
    obtain rfl := run_modify.mp (run_liftM.mp hopen).2
    obtain ⟨count, third, stop, hpasses, hend⟩ := run_bindM.mp hbody
    obtain ⟨_, fourth, closed, hclose, hanswer⟩ := run_bindM.mp hend
    obtain rfl := run_modify.mp (run_liftM.mp hclose).2
    obtain ⟨hsame, rfl⟩ := run_pure.mp hanswer
    obtain ⟨calls, hcount, hunwinds⟩ := unwinds_finalizePasses hpasses
    exact ⟨calls, by rw [← (Prod.mk.inj hsame).1, hcount, Nat.zero_add], hunwinds⟩

end HostM

/-- Leaving a recovery scope cuts every control stack back to its depth at entry and deepens
none; only a protection stack that is lower than at entry is a fault. So a run of the pending
finalizers, whatever they do and however they end, keeps the depth of the protection stack. Each
of the other stacks ends as deep as it was at the start and after every call of a finalizer, and
keeps its depth if, and if each call leaves it at least as deep as it found it. -/
theorem finalizers_cut_stacks_back (host : Host ω) :
    (∀ scope heap, (HeapM.leaveRecovery scope).run heap =
        (if heap.protect.depth < scope.protect then .error .recoveryBelowBase
          else .ok (decide (heap.levels ≠ scope), heap.cutBack scope)) ∧
      ∀ stack, (heap.cutBack scope).depth stack = min (scope.depth stack) (heap.depth stack)) ∧
    ∀ state state' heap heap' ran,
      ((HostM.runPendingFinalizers host).run state).run heap = .ok ((ran, state'), heap') →
      ∃ calls : List (Heap × Heap), ran = calls.length ∧
        (∀ c ∈ calls, host.ComesBack c.1 c.2) ∧
        heap'.depth .protect = heap.depth .protect ∧
        ∀ stack, heap'.depth stack ≤ heap.depth stack ∧
          (heap'.depth stack = heap.depth stack ↔
            ∀ c ∈ calls, heap.depth stack ≤ c.2.depth stack) ∧
          ((∀ c ∈ calls, c.1.depth stack ≤ c.2.depth stack) →
            heap'.depth stack = heap.depth stack) := by
  refine ⟨fun scope heap => ⟨HeapM.leaveRecovery_eq scope heap, heap.depth_cutBack scope⟩,
    fun state state' heap heap' ran hrun => ?_⟩
  obtain ⟨calls, hcount, hunwinds⟩ := HostM.unwinds_runPendingFinalizers hrun
  refine ⟨calls, hcount, hunwinds.comesBack, hunwinds.protect_eq, fun stack => ?_⟩
  have hle : heap'.depth stack ≤ heap.depth stack := ((hunwinds.le_iff stack _).mp (Nat.le_refl _)).1
  refine ⟨hle, ?_, hunwinds.eq_of_restored stack⟩
  rw [Nat.eq_iff_le_and_ge, hunwinds.le_iff stack]
  exact ⟨fun h => h.2.2, fun h => ⟨hle, Nat.le_refl _, h⟩⟩

namespace Session

def contextEnder : List Step :=
  [.command (.beginContext []) none,
    .setScript 0 [.command .endContext none] .ok,
    .command (.request (.cons (.handle .nil) (.handle .nil))) (some "k"),
    .command (.request (.nativeFinalizer (.register "k") 0 false)) none]

/-- The caller is left without the context. -/
theorem contextEnder_cuts_context : ∃ state heap ran state' heap',
    ((HostM.runPendingFinalizers Session.host).run state).run heap = .ok ((ran, state'), heap') ∧
    heap.depth .contexts = 1 ∧ heap'.depth .contexts = 0 ∧
    heap'.depth .protect = heap.depth .protect ∧
    ∃ c : Heap × Heap, Session.host.ComesBack c.1 c.2 ∧
      ¬ heap.depth .contexts ≤ c.2.depth .contexts := by
  obtain ⟨⟨⟨state, heap⟩, ⟨ran, state'⟩, heap'⟩, hrun, htest⟩ := except_of_test
    (x := do
      let start ← Heap.build { segmentCells := 8 } Heap.mixHash
      let steps ← ((runSteps Session.host contextEnder).run {}).run start
      let collected ← (HeapM.collect .full .requested).run steps.2
      return ((steps.1.2, collected.2),
        ← ((HostM.runPendingFinalizers Session.host).run steps.1.2).run collected.2))
    (p := fun p : (State × Heap) × (Nat × State) × Heap =>
      p.1.2.depth .contexts == 1 && p.2.2.depth .contexts == 0) (by decide +kernel)
  simp only [except_bind, pure, Except.pure, Except.ok.injEq, Prod.mk.injEq] at hrun
  obtain ⟨_, -, _, -, ⟨_, before⟩, -, ⟨⟨_, _⟩, _⟩, hpending, ⟨rfl, rfl⟩, ⟨rfl, rfl⟩, rfl⟩ := hrun
  rw [Bool.and_eq_true, beq_iff_eq, beq_iff_eq] at htest
  obtain ⟨hbefore, hafter⟩ := htest
  obtain ⟨calls, -, hback, hprotect, hstacks⟩ :=
    (finalizers_cut_stacks_back Session.host).2 _ _ _ _ _ hpending
  obtain ⟨-, hiff, -⟩ := hstacks .contexts
  have hlower : ¬ ∀ c ∈ calls, before.depth .contexts ≤ c.2.depth .contexts := fun hall =>
    absurd ((hafter.symm.trans (hiff.mpr hall)).trans hbefore) Nat.zero_ne_one
  obtain ⟨c, hc⟩ := Classical.not_forall.mp hlower
  obtain ⟨hmem, hlow⟩ := Classical.not_imp.mp hc
  exact ⟨_, _, _, _, _, hpending, hbefore, hafter, hprotect, c, hback c hmem, hlow⟩

end Session

end ManagedHeap
