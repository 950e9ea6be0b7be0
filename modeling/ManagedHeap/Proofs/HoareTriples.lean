import ManagedHeap.Proofs.ComputationRuns

/-!
# Triples

A triple says what holds of the answer and of the heap when a computation ends. It says
nothing of computations that stop at a fault, and nothing of the state of the foreign code.
-/

namespace ManagedHeap

def HeapM.Triple {α : Type} (P : Heap → Prop) (act : HeapM α) (Q : α → Heap → Prop) : Prop :=
  ∀ heap a heap', P heap → act.run heap = .ok (a, heap') → Q a heap'

def HeapM.Reads {α : Type} (act : HeapM α) : Prop :=
  ∀ heap a heap', act.run heap = .ok (a, heap') → heap' = heap

def HostM.Triple {ω α : Type} (P : Heap → Prop) (act : HostM ω α) (Q : α → Heap → Prop) : Prop :=
  ∀ state, HeapM.Triple P (act.run state) fun p => Q p.1

namespace HeapM

variable {α β : Type} {P P' : Heap → Prop} {Q Q' : α → Heap → Prop} {R : β → Heap → Prop}
  {x act : HeapM α} {f : α → HeapM β}

namespace Triple

theorem bind (hx : Triple P x Q) (hf : ∀ a, Triple (Q a) (f a) R) : Triple P (x >>= f) R := by
  intro heap b heap' hP hrun
  obtain ⟨a, mid, hfirst, hrest⟩ := run_bind.mp hrun
  exact hf a _ _ _ (hx _ _ _ hP hfirst) hrest

theorem pure {a : α} (h : ∀ heap, P heap → Q a heap) : Triple P (pure a) Q := by
  intro heap b heap' hP hrun
  obtain ⟨rfl, rfl⟩ := run_pure.mp hrun
  exact h heap hP

theorem conseq (hx : Triple P x Q) (hP : ∀ heap, P' heap → P heap)
    (hQ : ∀ a heap, Q a heap → Q' a heap) : Triple P' x Q' := by
  intro heap a heap' h hrun
  exact hQ a heap' (hx heap a heap' (hP heap h) hrun)

theorem throw {e : Fault} : Triple P (throw e) Q := by
  intro heap a heap' _ hrun
  exact (run_throw.mp hrun).elim

theorem get {Q : Heap → Heap → Prop} (h : ∀ heap, P heap → Q heap heap) : Triple P get Q := by
  intro heap a heap' hP hrun
  obtain ⟨rfl, rfl⟩ := run_get.mp hrun
  exact h heap hP

theorem modify {f : Heap → Heap} {Q : PUnit → Heap → Prop}
    (h : ∀ heap, P heap → Q ⟨⟩ (f heap)) : Triple P (modify f) Q := by
  intro heap a heap' hP hrun
  obtain rfl := run_modify.mp hrun
  exact h heap hP

theorem of_reads (hx : Reads x) (h : ∀ heap a, P heap → Q a heap) : Triple P x Q := by
  intro heap a heap' hP hrun
  obtain rfl := hx heap a heap' hrun
  exact h heap' a hP

end Triple

namespace Reads

theorem bind (hx : Reads x) (hf : ∀ a, Reads (f a)) : Reads (x >>= f) := by
  intro heap b heap' hrun
  obtain ⟨a, mid, hfirst, hrest⟩ := run_bind.mp hrun
  exact (hf a mid b heap' hrest).trans (hx heap a mid hfirst)

theorem pure {a : α} : Reads (pure a) := fun _ _ _ hrun => (run_pure.mp hrun).2.symm

theorem throw {e : Fault} : Reads (throw e : HeapM α) := fun _ _ _ hrun => (run_throw.mp hrun).elim

theorem get : Reads get := fun _ _ _ hrun => (run_get.mp hrun).2.symm

theorem lift {x : Except Fault α} : Reads (liftM x) := fun _ _ _ hrun => (run_lift.mp hrun).2.symm

theorem cell {h : Handle} : Reads (cell h) := fun _ _ _ hrun => (run_cell.mp hrun).2.symm

theorem kind {h : Handle} : Reads (kind h) := bind cell fun _ => pure

theorem flags {h : Handle} : Reads (flags h) := bind cell fun _ => pure

theorem payload {h : Handle} : Reads (payload h) := bind cell fun _ => pure

theorem isLive {h : Handle} : Reads (isLive h) := bind get fun _ => pure

theorem wrongKind {h : Handle} {s : Shape} : Reads (wrongKind h s : HeapM α) :=
  bind kind fun _ => throw

theorem walkBound : Reads walkBound := bind get fun _ => pure

theorem length {h : Handle} : Reads (length h) := bind payload fun _ => pure

end Reads

end HeapM

namespace HostM

variable {ω α β : Type} {P P' : Heap → Prop} {Q Q' : α → Heap → Prop} {R : β → Heap → Prop}
  {x : HostM ω α} {f : α → HostM ω β}

namespace Triple

theorem bind (hx : Triple P x Q) (hf : ∀ a, Triple (Q a) (f a) R) : Triple P (x >>= f) R := by
  intro state
  rw [StateT.run_bind]
  exact HeapM.Triple.bind (hx state) fun p => hf p.1 p.2

theorem pure {a : α} (h : ∀ heap, P heap → Q a heap) : Triple P (pure a : HostM ω α) Q :=
  fun _ => HeapM.Triple.pure h

theorem conseq (hx : Triple P x Q) (hP : ∀ heap, P' heap → P heap)
    (hQ : ∀ a heap, Q a heap → Q' a heap) : Triple P' x Q' :=
  fun state => HeapM.Triple.conseq (hx state) hP fun p => hQ p.1

theorem lift {act : HeapM α} (h : HeapM.Triple P act Q) : Triple P (liftM act : HostM ω α) Q := by
  intro state
  change HeapM.Triple P (act >>= fun a => Pure.pure (a, state)) fun p => Q p.1
  exact HeapM.Triple.bind h fun a => HeapM.Triple.pure fun _ => id

theorem throw {e : Fault} : Triple P (throwThe Fault e : HostM ω α) Q := by
  intro state heap a heap' _ hrun
  exact nomatch hrun

theorem getHeap {Q : Heap → Heap → Prop} (h : ∀ heap, P heap → Q heap heap) :
    Triple P (getThe Heap : HostM ω Heap) Q :=
  lift (HeapM.Triple.get h)

theorem modifyHeap {f : Heap → Heap} {Q : PUnit → Heap → Prop}
    (h : ∀ heap, P heap → Q ⟨⟩ (f heap)) : Triple P (modifyThe Heap f : HostM ω PUnit) Q :=
  lift (HeapM.Triple.modify h)

theorem setHeap {next : Heap} {Q : PUnit → Heap → Prop} (h : ∀ heap, P heap → Q ⟨⟩ next) :
    Triple P (MonadStateOf.set next : HostM ω PUnit) Q := by
  intro state heap a heap' hP hrun
  obtain ⟨rfl, rfl⟩ := run_pure.mp hrun
  exact h heap hP

theorem liftExcept {act : Except Fault α} (h : ∀ heap a, P heap → act = .ok a → Q a heap) :
    Triple P (liftM act : HostM ω α) Q := by
  refine lift fun heap a heap' hP hrun => ?_
  obtain ⟨hok, rfl⟩ := run_lift.mp hrun
  exact h heap a hP hok

theorem getState {Q : ω → Heap → Prop} (h : ∀ heap a, P heap → Q a heap) :
    Triple P (getThe ω : HostM ω ω) Q := by
  intro state heap a heap' hP hrun
  obtain ⟨rfl, rfl⟩ := run_pure.mp hrun
  exact h heap state hP

theorem modifyState {f : ω → ω} {Q : PUnit → Heap → Prop} (h : ∀ heap, P heap → Q ⟨⟩ heap) :
    Triple P (modifyThe ω f : HostM ω PUnit) Q := by
  intro state heap a heap' hP hrun
  obtain ⟨rfl, rfl⟩ := run_pure.mp hrun
  exact h heap hP

end Triple

end HostM

def Attempt.Triple {ω α : Type} (P : Heap → Prop) (act : Attempt ω α) (Q : α → Heap → Prop)
    (E : Heap → Prop) : Prop :=
  HostM.Triple P act.run fun
    | .ok a => Q a
    | .error _ => E

namespace Attempt.Triple

variable {ω α β : Type} {P P' E E' : Heap → Prop} {Q Q' : α → Heap → Prop}
  {R : β → Heap → Prop} {x : Attempt ω α} {f : α → Attempt ω β}

theorem bind (hx : Triple P x Q E) (hf : ∀ a, Triple (Q a) (f a) R E) :
    Triple P (x >>= f) R E := by
  unfold Triple
  rw [ExceptT.run_bind]
  refine HostM.Triple.bind hx ?_
  rintro (e | a)
  · exact HostM.Triple.pure fun _ => id
  · exact hf a

theorem pure {a : α} (h : ∀ heap, P heap → Q a heap) :
    Triple P (pure a : Attempt ω α) Q E := HostM.Triple.pure h

theorem throw {e : HeapError} (h : ∀ heap, P heap → E heap) :
    Triple P (throw e : Attempt ω α) Q E := HostM.Triple.pure h

theorem conseq (hx : Triple P x Q E) (hP : ∀ heap, P' heap → P heap)
    (hQ : ∀ a heap, Q a heap → Q' a heap) (hE : ∀ heap, E heap → E' heap) :
    Triple P' x Q' E' := by
  refine HostM.Triple.conseq hx hP ?_
  rintro (e | a) heap h
  · exact hE heap h
  · exact hQ a heap h

theorem mk {act : HostM ω (Except HeapError α)}
    (h : HostM.Triple P act fun r heap => match r with
      | .ok a => Q a heap
      | .error _ => E heap) : Triple P (ExceptT.mk act) Q E := by
  refine HostM.Triple.conseq h (fun _ => id) ?_
  rintro (e | a) heap h
  · exact h
  · exact h

theorem absurd {Q : α → Heap → Prop} : Triple (fun _ => False) x Q E :=
  fun _ _ _ _ hno _ => hno.elim

theorem of_and {φ : Prop} (h : φ → Triple P x Q E) : Triple (fun heap => P heap ∧ φ) x Q E :=
  fun state heap a heap' hP hrun => h hP.2 state heap a heap' hP.1 hrun

theorem liftHost {act : HostM ω α} (h : HostM.Triple P act Q) :
    Triple P (liftM act : Attempt ω α) Q E := by
  unfold Triple
  change HostM.Triple P (Functor.map Except.ok act) _
  rw [← bind_pure_comp]
  exact HostM.Triple.bind h fun a => HostM.Triple.pure fun _ => id

theorem lift {act : HeapM α} (h : HeapM.Triple P act Q) :
    Triple P (liftM act : Attempt ω α) Q E := liftHost (HostM.Triple.lift h)

theorem throwFault {e : Fault} : Triple P (throwThe Fault e : Attempt ω α) Q E := by
  intro state heap a heap' _ hrun
  exact nomatch hrun

theorem getHeap {Q : Heap → Heap → Prop} (h : ∀ heap, P heap → Q heap heap) :
    Triple P (getThe Heap : Attempt ω Heap) Q E :=
  lift (HeapM.Triple.get h)

theorem modifyHeap {f : Heap → Heap} {Q : PUnit → Heap → Prop}
    (h : ∀ heap, P heap → Q ⟨⟩ (f heap)) : Triple P (modifyThe Heap f : Attempt ω PUnit) Q E :=
  lift (HeapM.Triple.modify h)

end Attempt.Triple

end ManagedHeap
