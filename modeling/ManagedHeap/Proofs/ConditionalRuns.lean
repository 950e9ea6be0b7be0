import ManagedHeap.Proofs.FaultAnalysis
import ManagedHeap.Proofs.HostWeakRuns

/-!
# Computations on terms

The terms of a computation say at which faults it may stop, what it keeps of the foreign code and
of the heap, and how the heap where it ends is related to the one where it began. Whatever is
composed of computations on the same terms is on these terms as well.
-/

namespace ManagedHeap

variable {ω α β : Type}

/-- Where a computation may stop, what it keeps, and where it leads. -/
structure Terms (ω : Type) where
  fault : Fault → Prop
  state : ω → Prop
  heap : Heap → Prop
  leads : Heap → Heap → Prop
  refl : ∀ heap, leads heap heap
  trans : ∀ {heap mid heap'}, leads heap mid → leads mid heap' → leads heap heap'

variable (t : Terms ω) {P P' : Heap → Prop}

def HeapM.On (P : Heap → Prop) (act : HeapM α) (Q : α → Heap → Prop) : Prop :=
  ∀ heap, t.heap heap → P heap → FailsIn t.fault (· = heap) act fun a heap' =>
    t.heap heap' ∧ t.leads heap heap' ∧ Q a heap'

def HostM.On (P : Heap → Prop) (act : HostM ω α) (Q : α → Heap → Prop) : Prop :=
  ∀ state, t.state state → HeapM.On t P (act.run state) fun p heap => t.state p.2 ∧ Q p.1 heap

def Attempt.On (P : Heap → Prop) (act : Attempt ω α) (Q : α → Heap → Prop) (E : Heap → Prop) : Prop :=
  HostM.On t P act.run fun r heap => match r with
    | .ok a => Q a heap
    | .error _ => E heap

variable {t}

namespace HeapM.On

variable {x act : HeapM α} {f : α → HeapM β} {Q Q' : α → Heap → Prop} {R : β → Heap → Prop}

theorem bind (hx : On t P x Q) (hf : ∀ a, On t (Q a) (f a) R) : On t P (x >>= f) R := by
  refine fun heap ht hP => FailsIn.bind (hx heap ht hP) fun a mid hmid => ?_
  obtain ⟨hkept, hfirst, hQ⟩ := hmid
  obtain ⟨hfails, hends⟩ := hf a mid hkept hQ mid rfl
  refine ⟨hfails, fun b heap' hrun => ?_⟩
  obtain ⟨hend, hlast, hR⟩ := hends b heap' hrun
  exact ⟨hend, t.trans hfirst hlast, hR⟩

theorem pure {a : α} (h : ∀ heap, P heap → Q a heap) : On t P (pure a) Q := by
  refine fun heap ht hP => .pure ?_
  rintro _ rfl
  exact ⟨ht, t.refl _, h _ hP⟩

theorem get {Q : Heap → Heap → Prop} (h : ∀ heap, t.heap heap → P heap → Q heap heap) :
    On t P get Q := by
  refine fun heap ht hP => .get ?_
  rintro _ rfl
  exact ⟨ht, t.refl _, h _ ht hP⟩

theorem conseq (hx : On t P x Q) (hP : ∀ heap, P' heap → P heap)
    (hQ : ∀ a heap, Q a heap → Q' a heap) : On t P' x Q' :=
  fun heap ht h => (hx heap ht (hP heap h)).conseq (fun _ => id)
    fun a _ hend => ⟨hend.1, hend.2.1, hQ a _ hend.2.2⟩

theorem of_ends (hfails : ∀ heap e, t.heap heap → P heap → act.run heap = .error e → t.fault e)
    (hends : ∀ heap a heap', t.heap heap → P heap → act.run heap = .ok (a, heap') →
      t.heap heap' ∧ t.leads heap heap' ∧ Q a heap') : On t P act Q := by
  rintro heap ht hP _ rfl
  exact ⟨fun e => hfails _ e ht hP, fun a heap' => hends _ a heap' ht hP⟩

theorem ends (h : ∀ heap, t.heap heap → P heap → ∃ a heap', act.run heap = .ok (a, heap') ∧
    t.heap heap' ∧ t.leads heap heap' ∧ Q a heap') : On t P act Q := by
  intro heap ht hP
  refine .of_ends ?_
  rintro _ rfl
  exact h _ ht hP

end HeapM.On

namespace HostM.On

variable {x act : HostM ω α} {f : α → HostM ω β} {Q Q' : α → Heap → Prop} {R : β → Heap → Prop}

theorem bind (hx : On t P x Q) (hf : ∀ a, On t (Q a) (f a) R) : On t P (x >>= f) R := by
  intro state hstate
  rw [StateT.run_bind]
  refine HeapM.On.bind (hx state hstate) fun p heap ht hp => ?_
  exact hf p.1 p.2 hp.1 heap ht hp.2

theorem pure {a : α} (h : ∀ heap, P heap → Q a heap) : On t P (pure a : HostM ω α) Q :=
  fun _ hstate => HeapM.On.pure fun heap hP => ⟨hstate, h heap hP⟩

theorem throw {e : Fault} (he : t.fault e) : On t P (throwThe Fault e : HostM ω α) Q :=
  fun _ _ _ _ _ _ _ => ⟨fun _ he' => Except.error.inj he' ▸ he, fun _ _ hrun => nomatch hrun⟩

theorem conseq (hx : On t P x Q) (hP : ∀ heap, P' heap → P heap)
    (hQ : ∀ a heap, Q a heap → Q' a heap) : On t P' x Q' :=
  fun state hstate => (hx state hstate).conseq hP fun p heap h => ⟨h.1, hQ p.1 heap h.2⟩

theorem lift {act : HeapM α} (h : act.On t P Q) : On t P (liftM act : HostM ω α) Q := by
  intro state hstate
  change HeapM.On t P (act >>= fun a => Pure.pure (a, state)) _
  exact HeapM.On.bind h fun a => HeapM.On.pure fun heap hQ => ⟨hstate, hQ⟩

theorem getHeap {Q : Heap → Heap → Prop} (h : ∀ heap, t.heap heap → P heap → Q heap heap) :
    On t P (getThe Heap : HostM ω Heap) Q :=
  lift (.get h)

theorem getState {Q : ω → Heap → Prop} (h : ∀ heap a, t.state a → P heap → Q a heap) :
    On t P (getThe ω : HostM ω ω) Q :=
  fun state hstate => HeapM.On.pure fun heap hP => ⟨hstate, h heap state hstate hP⟩

theorem modifyState {g : ω → ω} {Q : PUnit → Heap → Prop} (hg : ∀ a, t.state a → t.state (g a))
    (h : ∀ heap, P heap → Q ⟨⟩ heap) : On t P (modifyThe ω g : HostM ω PUnit) Q :=
  fun state hstate => HeapM.On.pure fun heap hP => ⟨hg state hstate, h heap hP⟩

theorem of_and {φ : Prop} (h : φ → On t P x Q) : On t (fun heap => P heap ∧ φ) x Q :=
  fun state hstate heap ht hP => h hP.2 state hstate heap ht hP.1

theorem ends (h : ∀ state heap, t.state state → t.heap heap → P heap → ∃ a state' heap',
    (act.run state).run heap = .ok ((a, state'), heap') ∧ t.state state' ∧ t.heap heap' ∧
      t.leads heap heap' ∧ Q a heap') : On t P act Q := by
  refine fun state hstate => .ends fun heap ht hP => ?_
  obtain ⟨a, state', heap', hrun, hstate', hkept, hleads, hQ⟩ := h state heap hstate ht hP
  exact ⟨(a, state'), heap', hrun, hkept, hleads, hstate', hQ⟩

end HostM.On

namespace Attempt.On

variable {E E' : Heap → Prop} {x : Attempt ω α} {f : α → Attempt ω β} {Q Q' : α → Heap → Prop}
  {R : β → Heap → Prop}

theorem bind (hx : On t P x Q E) (hf : ∀ a, On t (Q a) (f a) R E) : On t P (x >>= f) R E := by
  unfold On
  rw [ExceptT.run_bind]
  refine HostM.On.bind hx fun r => ?_
  cases r with
  | error e => exact HostM.On.pure fun _ => id
  | ok a => exact hf a

theorem pure {a : α} (h : ∀ heap, P heap → Q a heap) : On t P (pure a : Attempt ω α) Q E :=
  HostM.On.pure h

theorem throw {e : HeapError} (h : ∀ heap, P heap → E heap) : On t P (throw e : Attempt ω α) Q E :=
  HostM.On.pure h

theorem throw_bind {e : HeapError} (h : ∀ heap, P heap → E heap) :
    On t P ((throwThe HeapError e : Attempt ω α) >>= f) R E :=
  throw (α := β) h

theorem throwFault {e : Fault} (he : t.fault e) : On t P (throwThe Fault e : Attempt ω α) Q E :=
  fun _ _ _ _ _ _ _ => ⟨fun _ he' => Except.error.inj he' ▸ he, fun _ _ hrun => nomatch hrun⟩

theorem conseq (hx : On t P x Q E) (hP : ∀ heap, P' heap → P heap)
    (hQ : ∀ a heap, Q a heap → Q' a heap) : On t P' x Q' E := by
  refine HostM.On.conseq hx hP ?_
  rintro (e | a) heap h
  · exact h
  · exact hQ a heap h

theorem mk {act : HostM ω (Except HeapError α)} (h : HostM.On t P act fun r heap => match r with
      | .ok a => Q a heap
      | .error _ => E heap) : On t P (ExceptT.mk act) Q E := by
  refine HostM.On.conseq h (fun _ => id) ?_
  rintro (e | a) heap h
  · exact h
  · exact h

theorem run (hx : On t P x Q E) : HostM.On t P x.run fun r heap => match r with
      | .ok a => Q a heap
      | .error _ => E heap := by
  refine HostM.On.conseq hx (fun _ => id) ?_
  rintro (e | a) heap h
  · exact h
  · exact h

theorem liftHost {act : HostM ω α} (h : HostM.On t P act Q) :
    On t P (liftM act : Attempt ω α) Q E := by
  unfold On
  change HostM.On t P (Functor.map Except.ok act) _
  rw [← bind_pure_comp]
  exact HostM.On.bind h fun a => HostM.On.pure fun _ => id

theorem lift {act : HeapM α} (h : act.On t P Q) : On t P (liftM act : Attempt ω α) Q E :=
  liftHost (.lift h)

theorem of_and {φ : Prop} (h : φ → On t P x Q E) : On t (fun heap => P heap ∧ φ) x Q E :=
  fun state hstate heap ht hP => h hP.2 state hstate heap ht hP.1

theorem of_triple (hspec : Triple P x Q E) (h : On t P x (fun _ _ => True) E) : On t P x Q E := by
  intro state hstate heap ht hP
  obtain ⟨hfails, hends⟩ := h state hstate heap ht hP heap rfl
  rintro _ rfl
  refine ⟨hfails, fun p heap' hrun => ?_⟩
  obtain ⟨hkept, hleads, hstate', hend⟩ := hends p heap' hrun
  have hspec' := hspec state _ p heap' hP hrun
  obtain ⟨e | a, state'⟩ := p
  · exact ⟨hkept, hleads, hstate', hspec'⟩
  · exact ⟨hkept, hleads, hstate', hspec'⟩

end Attempt.On

end ManagedHeap
