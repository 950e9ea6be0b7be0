import ManagedHeap.Proofs.CopiedData
import ManagedHeap.Proofs.RootFrames
import ManagedHeap.Proofs.ControlStacks

/-!
# The stacks of roots are balanced

What an operation pushes it takes back, on every path out of it, and a finalizer that runs inside
is cut back to the depth at which it was called. So the protection stack is as deep as it was and
the same handles are kept, and an entry of the protection stack changes only if a finalizer
changed it.
-/

namespace ManagedHeap

variable {ω α β : Type}

theorem ProtectStack.getElem?_truncate {s : ProtectStack} {d i : Nat} (hd : d ≤ s.depth)
    (hi : i < d) : (s.truncate d).slots[i]? = s.slots[i]? := by
  change (s.slots.shrink d)[i]? = s.slots[i]?
  have hsize : d ≤ s.slots.size := hd
  rw [Array.shrink_eq_take, Array.take_eq_extract, Array.getElem?_extract, if_pos (by omega),
    Nat.zero_add]

theorem ProtectStack.push_above {s s' : ProtectStack} {h : Handle} {result : Except HeapError Nat}
    (hpush : s.push h = .ok (result, s')) :
    s.depth ≤ s'.depth ∧ (∀ i < s.depth, s'.slots[i]? = s.slots[i]?) ∧
      ∀ index, result = .ok index → index = s.depth := by
  unfold push at hpush
  split at hpush
  · obtain ⟨rfl, rfl⟩ := Prod.mk.inj (Except.ok.inj hpush)
    refine ⟨?_, fun i hi => ?_, fun index hindex => ?_⟩
    · exact (Nat.le_succ _).trans (Nat.le_of_eq (Array.size_push _).symm)
    · exact Array.getElem?_push.trans (if_neg (Nat.ne_of_lt hi))
    · exact (Except.ok.inj hindex).symm
  · split at hpush
    · obtain ⟨rfl, rfl⟩ := Prod.mk.inj (Except.ok.inj hpush)
      exact ⟨Nat.le_refl _, fun _ _ => rfl, nofun⟩
    · cases hpush

/-- An entry of the protection stack. -/
def Heap.entry (heap : Heap) (i : Nat) : Option Handle := heap.protect.slots[i]?

/-- Among the calls of finalizers that happen from a heap on, there is none while a finalizer is
running, and each happens while one is, if those before it left it at that. -/
structure Heap.Nests (start : Heap) (calls : List (Heap × Heap)) : Prop where
  none : start.finalizers.running = true → calls = []
  within : (∀ c ∈ calls, c.2.finalizers.running = true) →
    ∀ c ∈ calls, c.1.finalizers.running = true

/-- With these calls of finalizers in between, the first `n` entries of the protection stack are as
they were, but for what the calls changed, and no more handles are kept. -/
structure Host.KeepsEntriesBetween (host : Host ω) (n : Nat) (calls : List (Heap × Heap)) (start heap : Heap) :
    Prop where
  back : ∀ c ∈ calls, host.ComesBack c.1 c.2
  entries : ∀ i < n, (∀ c ∈ calls, c.2.entry i = c.1.entry i) → heap.entry i = start.entry i
  kept : heap.roots.transient.size ≤ start.roots.transient.size
  undisturbed : calls = [] → heap.roots.transient = start.roots.transient ∧
    heap.finalizers.running = start.finalizers.running

def Host.KeepsEntries (host : Host ω) (n : Nat) (start heap : Heap) : Prop :=
  n ≤ heap.protect.depth ∧ ∃ calls, host.KeepsEntriesBetween n calls start heap ∧ start.Nests calls

def Host.Balances (host : Host ω) (start heap : Heap) : Prop :=
  heap.protect.depth = start.protect.depth ∧ host.KeepsEntries start.protect.depth start heap

variable {host : Host ω} {n m : Nat} {start mid heap heap' : Heap}
  {calls calls' : List (Heap × Heap)}

theorem Heap.Nests.append (h : start.Nests calls) (h' : mid.Nests calls')
    (hrunning : calls = [] → mid.finalizers.running = start.finalizers.running) :
    start.Nests (calls ++ calls') where
  none hstart := by
    have hnone := h.none hstart
    rw [hnone, h'.none ((hrunning hnone).trans hstart), List.append_nil]
  within hall := by
    obtain ⟨hfirst, hlast⟩ := List.forall_mem_append.mp hall
    exact List.forall_mem_append.mpr ⟨h.within hfirst, h'.within hlast⟩

namespace Host.KeepsEntriesBetween

theorem of_footing (hsame : heap.footing = start.footing) : host.KeepsEntriesBetween n [] start heap where
  back _ hc := absurd hc List.not_mem_nil
  entries i _ _ := congrArg (fun f : Footing => f.protect.slots[i]?) hsame
  kept := Nat.le_of_eq (congrArg (fun f : Footing => f.roots.transient.size) hsame)
  undisturbed _ := ⟨congrArg (fun f : Footing => f.roots.transient) hsame,
    congrArg Footing.running hsame⟩

theorem trans (h : host.KeepsEntriesBetween n calls start mid) (h' : host.KeepsEntriesBetween n calls' mid heap) :
    host.KeepsEntriesBetween n (calls ++ calls') start heap where
  back := List.forall_mem_append.mpr ⟨h.back, h'.back⟩
  entries i hi hall := by
    obtain ⟨hfirst, hlast⟩ := List.forall_mem_append.mp hall
    exact (h'.entries i hi hlast).trans (h.entries i hi hfirst)
  kept := Nat.le_trans h'.kept h.kept
  undisturbed hnone := by
    obtain ⟨hfirst, hlast⟩ := List.append_eq_nil_iff.mp hnone
    exact ⟨(h'.undisturbed hlast).1.trans (h.undisturbed hfirst).1,
      (h'.undisturbed hlast).2.trans (h.undisturbed hfirst).2⟩

theorem mono (h : host.KeepsEntriesBetween n calls start heap) (hm : m ≤ n) :
    host.KeepsEntriesBetween m calls start heap :=
  { h with entries := fun i hi => h.entries i (Nat.lt_of_lt_of_le hi hm) }

end Host.KeepsEntriesBetween

namespace Host.KeepsEntries

theorem refl (hn : n ≤ heap.protect.depth) : host.KeepsEntries n heap heap :=
  ⟨hn, [], .of_footing rfl, fun _ => rfl, fun _ _ hc => absurd hc List.not_mem_nil⟩

theorem trans (h : host.KeepsEntries n start mid) (h' : host.KeepsEntries n mid heap) :
    host.KeepsEntries n start heap := by
  obtain ⟨-, calls, hkeepsEntriesBetween, hnests⟩ := h
  obtain ⟨hn, calls', hkeepsEntriesBetween', hnests'⟩ := h'
  exact ⟨hn, calls ++ calls', hkeepsEntriesBetween.trans hkeepsEntriesBetween',
    hnests.append hnests' fun hnone => (hkeepsEntriesBetween.undisturbed hnone).2⟩

theorem of_balances (h : host.KeepsEntries n start mid) (h' : host.Balances mid heap) :
    host.KeepsEntries n start heap := by
  obtain ⟨hdepth, -, calls, hkeepsEntriesBetween, hnests⟩ := h'
  exact h.trans ⟨hdepth ▸ h.1, calls, hkeepsEntriesBetween.mono h.1, hnests⟩

theorem above {protect : ProtectStack} (h : host.KeepsEntries n start heap) (hn : n ≤ protect.depth)
    (hsame : ∀ i < n, protect.slots[i]? = heap.entry i) :
    host.KeepsEntries n start { heap with protect } := by
  refine h.trans ⟨hn, [], ⟨fun _ hc => absurd hc List.not_mem_nil, fun i hi _ => hsame i hi,
    Nat.le_refl _, fun _ => ⟨rfl, rfl⟩⟩, fun _ => rfl, fun _ _ hc => absurd hc List.not_mem_nil⟩

end Host.KeepsEntries

namespace Host.Balances

theorem of_footing (hsame : heap.footing = start.footing) : host.Balances start heap := by
  have hprotect : heap.protect.depth = start.protect.depth :=
    congrArg (fun f : Footing => f.protect.depth) hsame
  exact ⟨hprotect, Nat.le_of_eq hprotect.symm, [], .of_footing hsame, fun _ => rfl,
    fun _ _ hc => absurd hc List.not_mem_nil⟩

theorem refl (heap : Heap) : host.Balances heap heap := of_footing rfl

theorem trans (h : host.Balances start mid) (h' : host.Balances mid heap) :
    host.Balances start heap := ⟨h'.1.trans h.1, h.2.of_balances h'⟩

theorem closeScope (h : host.KeepsEntries start.protect.depth start heap) :
    host.Balances start
      { heap with protect := heap.protect.truncate start.protect.depth } := by
  have hdepth : (heap.protect.truncate start.protect.depth).depth = start.protect.depth := by
    rw [ProtectStack.depth_truncate, Nat.min_eq_left h.1]
  exact ⟨hdepth, h.above (Nat.le_of_eq hdepth.symm) fun i => ProtectStack.getElem?_truncate h.1⟩

theorem keeping {hs : Array Handle}
    (h : host.Balances (start.keeping (start.roots.transient ++ hs)) heap) :
    host.Balances start (heap.keeping (heap.roots.transient.shrink start.roots.transient.size)) := by
  obtain ⟨hdepth, hn, calls, hkeepsEntriesBetween, hnests⟩ := h
  refine ⟨hdepth, hn, calls, ⟨hkeepsEntriesBetween.back, hkeepsEntriesBetween.entries, ?_, fun hnone => ?_⟩,
    hnests.none, hnests.within⟩
  · exact Array.size_shrink.le.trans (Nat.min_le_left _ _)
  · obtain ⟨hkept, hrunning⟩ := hkeepsEntriesBetween.undisturbed hnone
    refine ⟨?_, hrunning⟩
    change heap.roots.transient.shrink start.roots.transient.size = start.roots.transient
    rw [hkept]
    change (start.roots.transient ++ hs).shrink _ = _
    apply Array.ext'
    simp

end Host.Balances

/-! ## Finalizers -/

/-- The calls of one pass over the chain: finalizers are running if each call leaves it at that. -/
structure Host.Rounds (host : Host ω) (calls : List (Heap × Heap)) (start heap : Heap) : Prop where
  depth : heap.protect.depth = start.protect.depth
  keepsEntriesBetween : host.KeepsEntriesBetween start.protect.depth calls start heap
  running : start.finalizers.running = true → (∀ c ∈ calls, c.2.finalizers.running = true) →
    (∀ c ∈ calls, c.1.finalizers.running = true) ∧ heap.finalizers.running = true

namespace Host.Rounds

theorem of_footing (hsame : heap.footing = start.footing) : host.Rounds [] start heap where
  depth := congrArg (fun f : Footing => f.protect.depth) hsame
  keepsEntriesBetween := .of_footing hsame
  running hstart _ := ⟨fun _ hc => absurd hc List.not_mem_nil,
    (congrArg Footing.running hsame).trans hstart⟩

theorem trans (h : host.Rounds calls start mid) (h' : host.Rounds calls' mid heap) :
    host.Rounds (calls ++ calls') start heap where
  depth := h'.depth.trans h.depth
  keepsEntriesBetween := h.keepsEntriesBetween.trans (h'.keepsEntriesBetween.mono (Nat.le_of_eq h.depth.symm))
  running hstart hall := by
    obtain ⟨hfirst, hlast⟩ := List.forall_mem_append.mp hall
    obtain ⟨hcalls, hmid⟩ := h.running hstart hfirst
    obtain ⟨hcalls', hend⟩ := h'.running hmid hlast
    exact ⟨List.forall_mem_append.mpr ⟨hcalls, hcalls'⟩, hend⟩

end Host.Rounds

namespace HostM

variable {function key : Handle} {state state' : ω}

theorem rounds_runFinalizer {u : PUnit}
    (hrun : ((runFinalizer host record function key).run state).run heap = .ok ((u, state'), heap')) :
    ∃ calls, host.Rounds calls heap heap' := by
  rw [runFinalizer] at hrun
  obtain ⟨outcome, first, closed, hscope, hcount⟩ := run_bindM.mp hrun
  obtain ⟨last, hinside, rfl⟩ := run_withTransient hscope
  obtain ⟨_, _, start, hnoted, hscoped⟩ := run_bindM.mp hinside
  obtain ⟨rfl, hcall⟩ := run_liftM.mp hnoted
  obtain ⟨scope, second, opened, henter, hbody⟩ := run_bindM.mp hscoped
  obtain ⟨rfl, hentered⟩ := run_liftM.mp henter
  obtain ⟨rfl, hopened⟩ := HeapM.levels_of_enterRecovery hentered
  subst opened
  obtain ⟨result, third, stop, hinvoke, hunwind⟩ := run_bindM.mp hbody
  obtain ⟨changed, fourth, cut, hleave, hend⟩ := run_bindM.mp hunwind
  obtain ⟨-, hleft⟩ := run_liftM.mp hleave
  have hstart : start.footing =
      (heap.keeping (heap.roots.transient ++ [key, function].toArray)).footing :=
    HeapM.Leaves.leavesRoots .noteCall _ _ _ hcall
  rw [HeapM.leaveRecovery_eq] at hleft
  split at hleft
  · cases hleft
  rename_i hhigh
  obtain ⟨-, rfl⟩ := Prod.mk.inj (Except.ok.inj hleft)
  have hlast : last.footing = (stop.cutBack start.levels).footing := by
    split at hend
    · obtain ⟨_, fifth, noted, hnote, hreturn⟩ := run_bindM.mp hend
      obtain ⟨-, rfl⟩ := run_pure.mp hreturn
      exact HeapM.Leaves.leavesRoots .note _ _ _ (run_liftM.mp hnote).2
    · rw [(run_pure.mp hend).2]
  have hcounts : ∀ g : FinalizerState → FinalizerState, (∀ f, (g f).running = f.running) →
      HeapM.LeavesRoots (HeapM.modifyFinalizers g) := fun g hg => .modify fun heap =>
    congrArg (fun running => { heap.footing with running }) (hg heap.finalizers)
  have hafter : heap'.footing =
      (last.keeping (last.roots.transient.shrink heap.roots.transient.size)).footing := by
    obtain ⟨_, fifth, counted, hmodify, hfailed⟩ := run_bindM.mp hcount
    have hcounted := HeapM.Leaves.leavesRoots .countRun _ _ _ (run_liftM.mp hmodify).2
    cases outcome with
    | ok _ => exact (run_pure.mp hfailed).2 ▸ hcounted
    | error e =>
      obtain ⟨_, sixth, noticed, hfail, hnote⟩ := run_bindM.mp hfailed
      exact ((HeapM.Leaves.leavesRoots .note _ _ _ (run_liftM.mp hnote).2).trans
        (hcounts (fun f => { f with failed := f.failed + 1 }) (fun _ => rfl) _ _ _
          (run_liftM.mp hfail).2)).trans hcounted
  have hbase : start.protect.depth = heap.protect.depth :=
    congrArg (fun f : Footing => f.protect.depth) hstart
  have hprotect : heap'.protect = stop.protect.truncate heap.protect.depth :=
    hbase ▸ (congrArg Footing.protect hafter).trans (congrArg Footing.protect hlast)
  have hdepth : heap.protect.depth ≤ stop.protect.depth := hbase ▸ Nat.le_of_not_lt hhigh
  refine ⟨[(start, stop)], ⟨?_, ⟨?_, fun i hi hall => ?_, ?_, fun hnone => ?_⟩,
    fun hrunning hall => ?_⟩⟩
  · rw [hprotect, ProtectStack.depth_truncate, Nat.min_eq_left hdepth]
  · exact List.forall_mem_singleton.mpr ⟨function, key, _, result, _, hinvoke⟩
  · rw [Heap.entry, hprotect, ProtectStack.getElem?_truncate hdepth hi]
    exact (hall _ List.mem_cons_self).trans
      (congrArg (fun f : Footing => f.protect.slots[i]?) hstart)
  · rw [show heap'.roots = _ from congrArg Footing.roots hafter]
    exact Array.size_shrink.le.trans (Nat.min_le_left _ _)
  · cases hnone
  · have hstop : heap'.finalizers.running = stop.finalizers.running :=
      (congrArg Footing.running hafter).trans (congrArg Footing.running hlast)
    have hran : start.finalizers.running = true :=
      (congrArg Footing.running hstart).trans hrunning
    exact ⟨List.forall_mem_singleton.mpr hran, hstop.trans (hall _ List.mem_cons_self)⟩

theorem rounds_finalizePass {fuel : Nat} {previous cursor : Handle} {found : Bool} {ran : Nat}
    {answer : Bool × Nat}
    (hrun : ((finalizePass host previous cursor found ran fuel).run state).run heap =
      .ok ((answer, state'), heap')) : ∃ calls, host.Rounds calls heap heap' := by
  induction fuel generalizing previous cursor found ran state heap with
  | zero => cases hrun
  | succ fuel ih =>
    unfold finalizePass at hrun
    split at hrun
    · rw [← (run_pure.mp hrun).2]
      exact ⟨[], .of_footing rfl⟩
    · obtain ⟨fields, first, mid, hread, hflags⟩ := run_bindM.mp hrun
      obtain rfl : mid = heap := HeapM.Reads.chainFields _ _ _ (run_liftM.mp hread).2
      obtain ⟨fs, second, seen, hlook, hrest⟩ := run_bindM.mp hflags
      obtain rfl : seen = mid := HeapM.Reads.flags _ _ _ (run_liftM.mp hlook).2
      split at hrest
      · exact ih hrest
      · obtain ⟨_, third, off, hunlink, hagain⟩ := run_bindM.mp hrest
        have hoff : host.Rounds [] seen off :=
          .of_footing (HeapM.Leaves.leavesRoots .unlinkWeakRef _ _ _ (run_liftM.mp hunlink).2)
        split at hagain
        · obtain ⟨calls, hcalls⟩ := ih hagain
          exact ⟨_, hoff.trans hcalls⟩
        · obtain ⟨_, fourth, back, hcall, hlast⟩ := run_bindM.mp hagain
          obtain ⟨called, hcalled⟩ := rounds_runFinalizer hcall
          obtain ⟨calls, hcalls⟩ := ih hlast
          exact ⟨_, (hoff.trans hcalled).trans hcalls⟩

theorem rounds_finalizePasses {fuel ran ran' : Nat}
    (hrun : ((finalizePasses host ran fuel).run state).run heap = .ok ((ran', state'), heap')) :
    ∃ calls, host.Rounds calls heap heap' := by
  induction fuel generalizing ran state heap with
  | zero => cases hrun
  | succ fuel ih =>
    unfold finalizePasses at hrun
    obtain ⟨now, first, start, hget, hbound⟩ := run_bindM.mp hrun
    obtain ⟨rfl, rfl⟩ := run_get.mp (run_liftM.mp hget).2
    obtain ⟨bound, second, mid, hstep, hpass⟩ := run_bindM.mp hbound
    obtain ⟨limit, third, walked, hwalk, hstepped⟩ := run_bindM.mp hstep
    obtain rfl := HeapM.Reads.walkBound _ _ _ (run_liftM.mp hwalk).2
    obtain ⟨-, rfl⟩ := run_pure.mp hstepped
    obtain ⟨⟨found, total⟩, fourth, passed, hfirst, hrest⟩ := run_bindM.mp hpass
    obtain ⟨calls, hcalls⟩ := rounds_finalizePass hfirst
    cases found with
    | true =>
      obtain ⟨others, hothers⟩ := ih hrest
      exact ⟨_, hcalls.trans hothers⟩
    | false =>
      rw [← (run_pure.mp hrest).2]
      exact ⟨calls, hcalls⟩

theorem balances_runPendingFinalizers {ran : Nat}
    (hrun : ((runPendingFinalizers host).run state).run heap = .ok ((ran, state'), heap')) :
    host.Balances heap heap' := by
  rw [runPendingFinalizers] at hrun
  obtain ⟨now, first, mid, hget, hrest⟩ := run_bindM.mp hrun
  obtain ⟨rfl, rfl⟩ := run_get.mp (run_liftM.mp hget).2
  split at hrest
  · rw [← (run_pure.mp hrest).2]
    exact .refl heap
  · rename_i hidle
    obtain ⟨_, second, opened, hopen, hbody⟩ := run_bindM.mp hrest
    obtain rfl := run_modify.mp (run_liftM.mp hopen).2
    obtain ⟨count, third, stop, hpasses, hend⟩ := run_bindM.mp hbody
    obtain ⟨_, fourth, closed, hclose, hanswer⟩ := run_bindM.mp hend
    obtain rfl := run_modify.mp (run_liftM.mp hclose).2
    obtain ⟨-, rfl⟩ := run_pure.mp hanswer
    obtain ⟨calls, hdepth, hkeepsEntriesBetween, hrunning⟩ := rounds_finalizePasses hpasses
    refine ⟨hdepth, Nat.le_of_eq hdepth.symm, calls, ⟨hkeepsEntriesBetween.back, hkeepsEntriesBetween.entries,
      hkeepsEntriesBetween.kept, fun hnone => ⟨(hkeepsEntriesBetween.undisturbed hnone).1, ?_⟩⟩,
      fun h => absurd h hidle, fun hall => (hrunning rfl hall).1⟩
    exact (Bool.eq_false_iff.mpr hidle).symm

def Balanced (host : Host ω) (act : HostM ω α) : Prop :=
  ∀ start, Triple (host.Balances start) act fun _ => host.Balances start

namespace Balanced

variable {x : HostM ω α} {f : α → HostM ω β}

theorem of_runs {act : HostM ω α} (h : ∀ state heap a state' heap',
    (act.run state).run heap = .ok ((a, state'), heap') → host.Balances heap heap') :
    Balanced host act :=
  fun _ state heap a heap' hstart hrun => hstart.trans (h state heap a.1 a.2 heap' hrun)

theorem balances {act : HostM ω α} (h : Balanced host act) {result : α × ω}
    (hrun : (act.run state).run heap = .ok (result, heap')) : host.Balances heap heap' :=
  h heap state heap result heap' (.refl heap) hrun

theorem bind (hx : Balanced host x) (hf : ∀ a, Balanced host (f a)) : Balanced host (x >>= f) :=
  fun start => Triple.bind (hx start) fun a => hf a start

theorem pure {a : α} : Balanced host (pure a : HostM ω α) := fun _ => Triple.pure fun _ => id

theorem leavesRoots {act : HeapM α} (h : act.LeavesRoots) : Balanced host (liftM act : HostM ω α) :=
  fun _ => Triple.lift fun heap a heap' hstart hrun => hstart.trans (.of_footing (h heap a heap' hrun))

theorem leavesRootsAndTasks {act : HeapM α} (h : act.LeavesRootsAndTasks) : Balanced host (liftM act : HostM ω α) :=
  leavesRoots h.leavesRoots

theorem reads {act : HeapM α} (h : act.Reads) : Balanced host (liftM act : HostM ω α) :=
  leavesRootsAndTasks (.of_reads h)

theorem getHeap : Balanced host (getThe Heap : HostM ω Heap) := leavesRootsAndTasks .get

theorem withTransient {hs : List Handle} {act : HostM ω α} (h : Balanced host act) :
    Balanced host (withTransient hs act) := by
  refine of_runs fun state heap a state' heap' hrun => ?_
  obtain ⟨stop, hbody, rfl⟩ := run_withTransient hrun
  exact (h.balances hbody).keeping

theorem stepBound : Balanced host (stepBound host) :=
  bind (reads .walkBound) fun _ => pure

theorem runPendingFinalizers : Balanced host (runPendingFinalizers host) :=
  of_runs fun _ _ _ _ _ => balances_runPendingFinalizers

theorem finalizeAndRetry {kind : Kind} {length : Nat} {reserved : Bool} :
    Balanced host (finalizeAndRetry host kind length reserved) := by
  refine bind (reads .pendingFinalizerCount) fun count => ?_
  split
  · exact pure
  · exact bind runPendingFinalizers fun _ => bind (leavesRoots .collect) fun _ => leavesRootsAndTasks .takeOrGrow

theorem allocateSlow {kind : Kind} {length : Nat} :
    Balanced host (allocateSlow host kind length) := by
  refine bind (reads .collectionDue) fun due => ?_
  cases due
  case' some reason => refine bind getHeap fun heap => bind (leavesRoots .collect) fun _ => ?_
  all_goals
    refine bind (leavesRootsAndTasks .takeOrGrow) fun taken => ?_
    cases taken with
    | ok h => exact pure
    | error reserved =>
      refine bind getHeap fun heap => bind (leavesRoots (.escalate _)) fun taken => ?_
      cases taken with
      | ok h => exact pure
      | error reserved =>
        refine bind finalizeAndRetry fun taken => ?_
        cases taken with
        | ok h => exact pure
        | error reserved => exact bind (leavesRootsAndTasks .note) fun _ => pure

end Balanced

end HostM

namespace Attempt

variable {x act : Attempt ω α} {f : α → Attempt ω β} {h : Handle}

def Balanced (host : Host ω) (act : Attempt ω α) : Prop :=
  ∀ start, Triple (host.Balances start) act (fun _ => host.Balances start) (host.Balances start)

def KeepsEntries (host : Host ω) (n : Nat) (act : Attempt ω α) : Prop :=
  ∀ start, Triple (host.KeepsEntries n start) act (fun _ => host.KeepsEntries n start) (host.KeepsEntries n start)

namespace Balanced

theorem bind (hx : Balanced host x) (hf : ∀ a, Balanced host (f a)) : Balanced host (x >>= f) :=
  fun start => Triple.bind (hx start) fun a => hf a start

theorem pure {a : α} : Balanced host (pure a : Attempt ω α) := fun _ => Triple.pure fun _ => id

theorem throw_bind {e : HeapError} :
    Balanced host ((MonadExceptOf.throw e : Attempt ω α) >>= f) := fun _ =>
  Triple.bind (Q := fun _ _ => False) (Triple.throw fun _ => id) fun _ => Triple.absurd

theorem mk {act : HostM ω (Except HeapError α)} (h : HostM.Balanced host act) :
    Balanced host (ExceptT.mk act : Attempt ω α) := by
  refine fun start => Triple.mk (HostM.Triple.conseq (h start) (fun _ => id) ?_)
  rintro (e | a) heap hend
  · exact hend
  · exact hend

theorem run (hx : Balanced host x) : HostM.Balanced host x.run := by
  refine fun start => HostM.Triple.conseq (hx start) (fun _ => id) ?_
  rintro (e | a) heap hend
  · exact hend
  · exact hend

theorem liftHost {act : HostM ω α} (h : HostM.Balanced host act) :
    Balanced host (liftM act : Attempt ω α) := fun start => Triple.liftHost (h start)

theorem leavesRoots {act : HeapM α} (h : act.LeavesRoots) : Balanced host (liftM act : Attempt ω α) :=
  liftHost (.leavesRoots h)

theorem leavesRootsAndTasks {act : HeapM α} (h : act.LeavesRootsAndTasks) : Balanced host (liftM act : Attempt ω α) :=
  leavesRoots h.leavesRoots

theorem reads {act : HeapM α} (h : act.Reads) : Balanced host (liftM act : Attempt ω α) :=
  leavesRootsAndTasks (.of_reads h)

end Balanced

namespace KeepsEntries

theorem bind (hx : KeepsEntries host n x) (hf : ∀ a, KeepsEntries host n (f a)) : KeepsEntries host n (x >>= f) :=
  fun start => Triple.bind (hx start) fun a => hf a start

theorem pure {a : α} : KeepsEntries host n (pure a : Attempt ω α) := fun _ => Triple.pure fun _ => id

theorem throwFault {e : Fault} : KeepsEntries host n (throwThe Fault e : Attempt ω α) :=
  fun _ => Triple.throwFault

theorem of_balanced (hx : Balanced host x) : KeepsEntries host n x := by
  intro start state heap result heap' hstart hrun
  have hbalances := hx.run.balances hrun
  obtain ⟨e | a, state'⟩ := result
  · exact hstart.of_balances hbalances
  · exact hstart.of_balances hbalances

theorem leavesRootsAndTasks {act : HeapM α} (h : act.LeavesRootsAndTasks) : KeepsEntries host n (liftM act : Attempt ω α) :=
  of_balanced (.leavesRootsAndTasks h)

theorem reads {act : HeapM α} (h : act.Reads) : KeepsEntries host n (liftM act : Attempt ω α) :=
  leavesRootsAndTasks (.of_reads h)

theorem attempt {act : HeapM (Except HeapError α)} (h : act.LeavesRootsAndTasks) :
    KeepsEntries host n (HostM.attempt act : Attempt ω α) := of_balanced (.mk (.leavesRootsAndTasks h))

theorem push_bind {f : Nat → Attempt ω β} (hf : ∀ index, n ≤ index → KeepsEntries host n (f index)) :
    KeepsEntries host n (HostM.attempt (HeapM.pushRoot h) >>= f) := by
  intro start
  refine Triple.bind (Q := fun index heap => host.KeepsEntries n start heap ∧ n ≤ index) ?_
    fun index => Triple.of_and fun hindex => hf index hindex start
  refine Triple.mk (HostM.Triple.lift fun heap result heap' hstart hrun => ?_)
  simp only [HeapM.pushRoot, run_bind] at hrun
  obtain ⟨pushed, mid, hpush, hnote⟩ := hrun
  obtain ⟨protect, hprotect, rfl⟩ := HeapM.run_onProtect hpush
  obtain ⟨hdeeper, hsame, hplace⟩ := ProtectStack.push_above hprotect
  have hmid : host.KeepsEntries n start { heap with protect } :=
    hstart.above (Nat.le_trans hstart.1 hdeeper) fun i hi =>
      hsame i (Nat.lt_of_lt_of_le hi hstart.1)
  split at hnote
  · obtain ⟨_, last, hnoted, hreturn⟩ := run_bind.mp hnote
    obtain ⟨rfl, rfl⟩ := run_pure.mp hreturn
    exact hmid.of_balances (.of_footing (HeapM.Leaves.leavesRoots .note _ _ _ hnoted))
  · obtain ⟨rfl, rfl⟩ := run_pure.mp hnote
    cases pushed with
    | error e => exact hmid
    | ok index => exact ⟨hmid, hplace index rfl ▸ hstart.1⟩

theorem push_then {f : Nat → Attempt ω β} (hf : ∀ index, KeepsEntries host n (f index)) :
    KeepsEntries host n (HostM.attempt (HeapM.pushRoot h) >>= f) := push_bind fun index _ => hf index

theorem reprotect {index : Nat} (hindex : n ≤ index) :
    KeepsEntries host n (liftM (HeapM.reprotect h index) : Attempt ω Unit) := by
  refine fun start => Triple.lift fun heap u heap' hstart hrun => ?_
  obtain rfl := HeapM.run_reprotect hrun
  refine hstart.above ?_ fun i hi => Array.getElem?_setIfInBounds_ne (by omega)
  exact hstart.1.trans (Nat.le_of_eq Array.size_setIfInBounds.symm)

end KeepsEntries

theorem Balanced.protecting (hx : ∀ n, KeepsEntries host n x) : Balanced host (HostM.protecting x) := by
  refine .mk (.of_runs fun state heap result state' heap' hrun => ?_)
  obtain ⟨base, first, opened, hdepth, hbody⟩ := HostM.run_bindM.mp hrun
  obtain ⟨rfl, hread⟩ := HostM.run_liftM.mp hdepth
  obtain ⟨answer, second, mid, hinside, hend⟩ := HostM.run_bindM.mp hbody
  obtain ⟨_, third, closed, hclose, hanswer⟩ := HostM.run_bindM.mp hend
  obtain rfl := HeapM.run_closeScope (HostM.run_liftM.mp hclose).2
  obtain ⟨-, rfl⟩ := run_pure.mp hanswer
  simp only [HeapM.protectDepth, run_bind, run_get, run_pure] at hread
  obtain ⟨_, _, ⟨rfl, rfl⟩, rfl, rfl⟩ := hread
  have hkeepsEntries := hx _ heap _ heap (answer, second) mid (.refl (Nat.le_refl _)) hinside
  refine .closeScope ?_
  cases answer with
  | error e => exact hkeepsEntries
  | ok a => exact hkeepsEntries

end Attempt

end ManagedHeap
