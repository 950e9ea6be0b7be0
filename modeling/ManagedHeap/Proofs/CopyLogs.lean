import Mathlib.Algebra.Ring.Int.Defs
import ManagedHeap.Proofs.RootFrames
import ManagedHeap.Proofs.TasksAcrossCollections
import ManagedHeap.Proofs.HostWeakRuns

/-!
# Copies under observation

What a copy of an object reads, and when, shows in a run that keeps a log: the same computation,
with an entry for each object that it comes to, for each look at an object, and for each
allocation. The log changes nothing else, so what holds of all logs holds of the copy.
-/

namespace ManagedHeap

/-- What happens in the course of a copy. -/
inductive Sight
  /-- The copy comes to an object that a task may be writing, and waits for it. -/
  | reached (h : Handle) (pending : Bool)
  /-- It looks at an object that it came to. -/
  | read (h : Handle) (pending : Bool)
  /-- It looks at what follows the first pair of a list. -/
  | passed (h : Handle) (pending : Bool)
  /-- It allocates an object. -/
  | made (before after : Heap)

namespace Sight

/-- The copy had to wait. -/
def isWait : Sight → Bool
  | reached _ pending => pending
  | _ => false

/-- How many waits an allocation counted. -/
def inAllocation : Sight → Int
  | made before after => after.counters.taskWaits - before.counters.taskWaits
  | _ => 0

/-- The object that is looked at, and whether a task is writing it. -/
def looked : Sight → Option (Handle × Bool)
  | read h pending | passed h pending => some (h, pending)
  | _ => none

/-- In an allocation, a task began to write the object. -/
def Begins (h : Handle) : Sight → Prop
  | made before after => after.tasks.isPending h = true ∧ before.tasks.isPending h = false
  | _ => False

end Sight

/-- A computation that keeps a log, the latest entry first. -/
abbrev Logged (ω : Type) := StateT (List Sight) (HostM ω)

/-- An attempt that keeps a log. -/
abbrev Watching (ω : Type) := ExceptT HeapError (Logged ω)

namespace Watching

open HeapM HostM

variable {ω α : Type}

def see (sight : Heap → Sight) : Watching ω Unit := do
  let heap ← getThe Heap
  modifyThe (List Sight) (sight heap :: ·)

/-- Computations that are not watched. -/
def aside (act : Attempt ω α) : Watching ω α := ExceptT.mk (StateT.lift act.run)

def reach (h : Handle) : Watching ω Unit := do
  see fun heap => .reached h (heap.tasks.isPending h)
  awaitOutput h

/-- Look at an object that was reached, or at what follows the first pair of a list. -/
def look (met : Bool) (h : Handle) (act : Attempt ω α) : Watching ω α := do
  see fun heap => (if met then Sight.read else Sight.passed) h (heap.tasks.isPending h)
  aside act

def making (act : Attempt ω α) : Watching ω α := ExceptT.mk do
  let before ← getThe Heap
  let result ← StateT.lift act.run
  let after ← getThe Heap
  modifyThe (List Sight) (.made before after :: ·)
  return result

def protecting (act : Watching ω α) : Watching ω α := ExceptT.mk do
  let base ← protectDepth
  let result ← act.run
  closeScope base
  return result

/-! The computations of a copy, watched. -/

def copyPairs (host : Host ω) (copyOne : Handle → Watching ω Handle) (index : Nat) (met : Bool)
    (head tail cursor : Handle) : Nat → Watching ω (Handle × Handle × Handle)
  | 0 => throwThe Fault .unfinished
  | fuel + 1 => do
    if !(← look met cursor (HeapM.kind cursor)).isPairLike then return (head, tail, cursor)
    let element ← copyOne (← look met cursor (car cursor))
    let cellKind ← look met cursor (HeapM.kind cursor)
    let cellTag ← look met cursor (tag cursor)
    let cell ← making (allocate host cellKind 0 [element])
    setCar cell element
    setTag cell cellTag
    let head ← if tail.isNil then do reprotect cell index; pure cell
      else do setCdr tail cell; pure head
    let next ← look met cursor (cdr cursor)
    copyPairs host copyOne index false head cell next fuel

def copyPairlist (host : Host ω) (copyOne : Handle → Watching ω Handle) (h : Handle) :
    Watching ω Handle := protecting do
  let index ← aside (attempt (pushRoot .nil))
  let (head, tail, rest) ← copyPairs host copyOne index true .nil .nil h (← stepBound host)
  if !rest.isNil && !tail.isNil then
    setCdr tail (← copyOne rest)
  return head

def copyElements (copyOne : Handle → Watching ω Handle) (h copy : Handle) :
    List Nat → Watching ω Unit
  | [] => return
  | i :: rest => do
    let element ← copyOne (← look true h (attempt (vectorElt h i)))
    aside (attempt (setVectorElt copy i element))
    copyElements copyOne h copy rest

def copyVector (host : Host ω) (copyOne : Handle → Watching ω Handle) (h : Handle) :
    Watching ω Handle := do
  let kind ← look true h (HeapM.kind h)
  let length ← look true h (HeapM.length h)
  protecting do
    let copy ← making (allocate host kind length [h])
    let _ ← aside (attempt (pushRoot copy))
    copyElements copyOne h copy (List.range length)
    return copy

def copyStrings (host : Host ω) (h : Handle) : Watching ω Handle := do
  match ← look true h (HeapM.payload h) with
  | .handles elements =>
    let copy ← making (allocate host (← look true h (HeapM.kind h)) elements.size [h])
    countReferences elements.toList
    setPayload copy (.handles elements)
    return copy
  | _ => wrongKind h .stringVector

def copyData (host : Host ω) (h : Handle) : Watching ω Handle := do
  let payload ← look true h (HeapM.payload h)
  let copy ← making (allocate host (← look true h (HeapM.kind h)) payload.length [h])
  setPayload copy payload
  return copy

def construct (host : Host ω) (kind : Kind) (payload : Payload) (slots : List Handle) :
    Watching ω Handle := do
  let h ← making (allocate host kind 0 slots)
  setPayload h payload
  countReferences slots
  return h

def copyAttributes (copyOne : Handle → Watching ω Handle) (h copy : Handle) :
    Watching ω Handle := do
  let attached ← look true h (attrib h)
  let flags ← look true h (HeapM.flags h)
  if !attached.isNil then
    protecting do
      let _ ← aside (attempt (pushRoot copy))
      setAttrib copy (← copyOne attached)
  updateCell copy (Cell.mapFlags fun fs =>
    { fs with object := fs.object || flags.object, s4Object := fs.s4Object || flags.s4Object })
  return copy

def copyWithin (host : Host ω) : Nat → Handle → Watching ω Handle
  | 0, _ => throwThe Fault .unfinished
  | fuel + 1, h => do
    let copyOne := copyWithin host fuel
    reach h
    match ← look true h (HeapM.kind h) with
    | .pair | .language => copyAttributes copyOne h (← copyPairlist host copyOne h)
    | .list | .expression => copyAttributes copyOne h (← copyVector host copyOne h)
    | .stringVector => copyAttributes copyOne h (← copyStrings host h)
    | .charString =>
      if (← look true h (HeapM.flags h)).cached then return h
      else copyAttributes copyOne h (← copyData host h)
    | .logicalVector | .integerVector | .realVector | .rawVector =>
      copyAttributes copyOne h (← copyData host h)
    | .closure =>
      let (formals, body, env) ← look true h (closureParts h)
      copyAttributes copyOne h
        (← construct host .closure (.closure formals body env) [formals, body, env])
    | _ => return h

def duplicate (host : Host ω) (h : Handle) : Watching ω Handle := protecting do
  let _ ← aside (attempt (pushRoot h))
  copyWithin host (← stepBound host) h

end Watching


def Heap.awaited (heap : Heap) (h : Handle) : Heap :=
  if heap.tasks.isPending h then
    { heap with
      tasks := heap.tasks.awaitOutput h
      counters := { heap.counters with taskWaits := heap.counters.taskWaits + 1 } }
  else heap

theorem HeapM.ends_awaitOutput (h : Handle) (heap : Heap) :
    (awaitOutput h).run heap = .ok (⟨⟩, heap.awaited h) := by
  unfold Heap.awaited
  simp only [awaitOutput, run_bind, run_get]
  refine ⟨heap, heap, ⟨rfl, rfl⟩, ?_⟩
  split <;> rfl

theorem Tasks.isPending_awaitOutput (t : Tasks) (h k : Handle) :
    (t.awaitOutput h).isPending k = (decide (k ≠ h) && t.isPending k) := by
  obtain ⟨scheduler, registry⟩ := t
  cases scheduler with
  | none => simp [isPending, awaitOutput]
  | _ =>
    simp only [isPending, awaitOutput, PendingObjects.isPending, PendingObjects.settleOutputs,
      PendingObjects.use_modify]
    by_cases hk : k = h <;> simp [hk]

theorem Heap.isPending_awaited (heap : Heap) (h k : Handle) :
    (heap.awaited h).tasks.isPending k = (decide (k ≠ h) && heap.tasks.isPending k) := by
  unfold awaited
  split
  · exact Tasks.isPending_awaitOutput ..
  · rename_i hidle
    by_cases hk : k = h
    · simp [hk, hidle]
    · simp [hk]

/-! ## What logs tell -/

/-- The copy came to the object and waited for it. A task is writing it now only if it began to in
an allocation since. -/
def Awaits (log : List Sight) (h : Handle) (pending : Bool) : Prop :=
  ∃ since waited before, log = since ++ .reached h waited :: before ∧
    (pending = true → ∃ e ∈ since, e.Begins h)

/-- Every object was waited for before it was read. -/
def Heeded : List Sight → Prop
  | [] => True
  | .read h pending :: log => Awaits log h pending ∧ Heeded log
  | _ :: log => Heeded log

/-- While the heap went on, this was logged. -/
structure Proceeds {ω : Type} (host : Host ω) (more : List Sight) (heap heap' : Heap) : Prop where
  waits : (heap'.counters.taskWaits : Int) = heap.counters.taskWaits + more.countP Sight.isWait +
    (more.map Sight.inAllocation).sum
  pending : ∀ h, heap'.tasks.isPending h = true → heap.tasks.isPending h = true ∨
    ∃ e ∈ more, e.Begins h
  made : ∀ before after, .made before after ∈ more → ∃ kind length roots s r s',
    ((HostM.allocate host kind length roots).run.run s).run before = .ok ((r, s'), after)
  carries : ∀ P : Tasks → Prop, (∀ t h, P t → P (t.awaitOutput h)) →
    (∀ before after, .made before after ∈ more → P before.tasks → P after.tasks) → P heap.tasks →
      P heap'.tasks ∧ ∀ before after, .made before after ∈ more → P before.tasks

namespace Awaits

variable {log more : List Sight} {h : Handle} {p q : Bool}

theorem later (ha : Awaits log h p) (hq : q = true → p = true ∨ ∃ e ∈ more, e.Begins h) :
    Awaits (more ++ log) h q := by
  obtain ⟨since, waited, before, rfl, hp⟩ := ha
  refine ⟨more ++ since, waited, before, (List.append_assoc ..).symm, fun h => ?_⟩
  rcases hq h with hp' | ⟨e, he, hb⟩
  · obtain ⟨e, he, hb⟩ := hp hp'
    exact ⟨e, List.mem_append_right more he, hb⟩
  · exact ⟨e, List.mem_append_left since he, hb⟩

end Awaits

namespace Proceeds

variable {ω : Type} {host : Host ω} {log more more' : List Sight} {heap mid heap' : Heap}
  {h : Handle}

theorem of_same (hsame : heap'.schedule = heap.schedule) : Proceeds host [] heap heap' where
  waits := by simp [(Schedule.mk.inj hsame).2]
  pending h hp := .inl ((Schedule.mk.inj hsame).1 ▸ hp)
  made _ _ hmem := absurd hmem List.not_mem_nil
  carries P _ _ hp := ⟨(Schedule.mk.inj hsame).1 ▸ hp, fun _ _ hmem => absurd hmem List.not_mem_nil⟩

theorem trans (hfirst : Proceeds host more heap mid) (hlast : Proceeds host more' mid heap') :
    Proceeds host (more' ++ more) heap heap' where
  waits := by
    rw [hlast.waits, hfirst.waits, List.countP_append, List.map_append, List.sum_append]
    omega
  pending h hp := by
    rcases hlast.pending h hp with hmid | ⟨e, he, hb⟩
    · rcases hfirst.pending h hmid with hp | ⟨e, he, hb⟩
      · exact .inl hp
      · exact .inr ⟨e, List.mem_append_right more' he, hb⟩
    · exact .inr ⟨e, List.mem_append_left more he, hb⟩
  made before after hmem :=
    (List.mem_append.mp hmem).elim (hlast.made before after) (hfirst.made before after)
  carries P hwait hmade hp := by
    obtain ⟨hmid, hbefore⟩ := hfirst.carries P hwait
      (fun before after hmem => hmade before after (List.mem_append_right more' hmem)) hp
    obtain ⟨hend, hlater⟩ := hlast.carries P hwait
      (fun before after hmem => hmade before after (List.mem_append_left more hmem)) hmid
    exact ⟨hend, fun before after hmem =>
      (List.mem_append.mp hmem).elim (hlater before after) (hbefore before after)⟩

theorem of_reached (heap : Heap) (h : Handle) :
    Proceeds host [.reached h (heap.tasks.isPending h)] heap (heap.awaited h) where
  waits := by
    unfold Heap.awaited
    cases hp : heap.tasks.isPending h <;> simp [Sight.isWait, Sight.inAllocation]
  pending k hk := by
    rw [Heap.isPending_awaited, Bool.and_eq_true] at hk
    exact .inl hk.2
  made before after hmem := by cases List.mem_singleton.mp hmem
  carries P hwait _ hp := by
    refine ⟨?_, fun before after hmem => by cases List.mem_singleton.mp hmem⟩
    unfold Heap.awaited
    split
    · exact hwait heap.tasks h hp
    · exact hp

theorem awaits (hp : Proceeds host more heap heap')
    (ha : Awaits log h (heap.tasks.isPending h)) :
    Awaits (more ++ log) h (heap'.tasks.isPending h) := ha.later (hp.pending h)

end Proceeds

def HostM.LeavesTasks {ω α : Type} (act : HostM ω α) : Prop :=
  ∀ s heap a s' heap', (act.run s).run heap = .ok ((a, s'), heap') →
    heap'.schedule = heap.schedule

def Attempt.LeavesTasks {ω α : Type} (act : Attempt ω α) : Prop := HostM.LeavesTasks act.run

namespace HostM.LeavesTasks

variable {ω α β : Type} {x : HostM ω α} {f : α → HostM ω β}

theorem bind (hx : LeavesTasks x) (hf : ∀ a, LeavesTasks (f a)) : LeavesTasks (x >>= f) := by
  intro s heap b s' heap' hrun
  obtain ⟨a, t, mid, hfirst, hrest⟩ := run_bindM.mp hrun
  exact (hf a _ _ _ _ _ hrest).trans (hx _ _ _ _ _ hfirst)

theorem pure {a : α} : LeavesTasks (pure a : HostM ω α) := by
  intro s heap b s' heap' hrun
  rw [(run_pure.mp hrun).2]

theorem lift {act : HeapM α} (h : act.LeavesTasks) : LeavesTasks (liftM act : HostM ω α) :=
  fun _ _ _ _ _ hrun => h _ _ _ (run_liftM.mp hrun).2

theorem reads {act : HeapM α} (h : act.Reads) : LeavesTasks (liftM act : HostM ω α) := lift (.of_reads h)

theorem stepBound {host : Host ω} : LeavesTasks (stepBound host) := bind (reads .walkBound) fun _ => pure

end HostM.LeavesTasks

namespace Attempt.LeavesTasks

variable {ω α : Type}

theorem lift {act : HeapM α} (h : act.LeavesTasks) : LeavesTasks (liftM act : Attempt ω α) := by
  change HostM.LeavesTasks (Except.ok <$> (liftM act : HostM ω α))
  rw [← bind_pure_comp]
  exact .bind (.lift h) fun _ => .pure

theorem reads {act : HeapM α} (h : act.Reads) : LeavesTasks (liftM act : Attempt ω α) := lift (.of_reads h)

theorem attempt {act : HeapM (Except HeapError α)} (h : act.LeavesTasks) :
    LeavesTasks (HostM.attempt act : Attempt ω α) := HostM.LeavesTasks.lift h

end Attempt.LeavesTasks

def Logged.Forgets {ω α : Type} (m : Logged ω α) (y : HostM ω α) : Prop :=
  ∀ log, (Prod.fst <$> m.run log : HostM ω α) = y

namespace Logged.Forgets

variable {ω α β : Type} {m : Logged ω α} {y : HostM ω α} {f : α → Logged ω β} {g : α → HostM ω β}

theorem run {log : List Sight} {s s' : ω} {heap heap' : Heap} {a : α} (hm : Forgets m y)
    (hrun : (y.run s).run heap = .ok ((a, s'), heap')) :
    ∃ p, ((m.run log).run s).run heap = .ok ((p, s'), heap') ∧ p.1 = a := by
  rw [← hm log, ← bind_pure_comp] at hrun
  obtain ⟨p, t, mid, hfirst, hrest⟩ := HostM.run_bindM.mp hrun
  obtain ⟨hsame, rfl⟩ := run_pure.mp hrest
  obtain ⟨rfl, rfl⟩ := Prod.mk.inj hsame
  exact ⟨p, hfirst, rfl⟩

theorem bind (hm : Forgets m y) (hf : ∀ a, Forgets (f a) (g a)) : Forgets (m >>= f) (y >>= g) := by
  intro log
  rw [StateT.run_bind, map_bind, ← hm log, bind_map_left]
  exact congrArg (m.run log >>= ·) (funext fun p => hf p.1 p.2)

theorem pure {a : α} : Forgets (pure a : Logged ω α) (pure a) := fun _ => rfl

theorem lift : Forgets (liftM y : Logged ω α) y := by
  intro log
  change Prod.fst <$> (y >>= fun a => Pure.pure (a, log)) = y
  simp

theorem modify_bind {t : List Sight → List Sight} (hm : Forgets m y) :
    Forgets (modifyThe (List Sight) t >>= fun _ => m) y := fun log => hm (t log)

theorem getHeap_bind {k : Heap → Logged ω α} (hk : ∀ heap, Forgets (k heap) y) :
    Forgets (getThe Heap >>= k) y :=
  fun log => funext fun s => funext fun heap => congrFun (congrFun (hk heap log) s) heap

theorem liftHeap {act : HeapM α} :
    Forgets (liftM act : Watching ω α).run (liftM act : Attempt ω α).run := by
  change Forgets (Except.ok <$> (liftM (liftM act : HostM ω α) : Logged ω α))
    (Except.ok <$> (liftM act : HostM ω α))
  simp only [← bind_pure_comp]
  exact .bind .lift fun _ => .pure

theorem tail (hm : Forgets m (y >>= Pure.pure)) : Forgets m y := by rwa [bind_pure] at hm

end Logged.Forgets

/-- Without its log the computation is the other one. If the objects of a list were waited for when
it starts, the log goes on as it should. -/
structure Logged.Watches {ω α : Type} (host : Host ω) (met : List Handle) (m : Logged ω α)
    (y : HostM ω α) : Prop where
  forgets : Forgets m y
  keepsLookups : ∀ log s heap a log' s' heap', Heeded log →
    (∀ h ∈ met, Awaits log h (heap.tasks.isPending h)) →
    ((m.run log).run s).run heap = .ok (((a, log'), s'), heap') →
      Heeded log' ∧ ∃ more, log' = more ++ log ∧ Proceeds host more heap heap'

namespace Logged.Watches

open HostM

variable {ω α β : Type} {host : Host ω} {met : List Handle} {m : Logged ω α} {y : HostM ω α}
  {f : α → Logged ω β} {g : α → HostM ω β}

theorem bind (hm : Watches host met m y) (hf : ∀ a, Watches host met (f a) (g a)) :
    Watches host met (m >>= f) (y >>= g) where
  forgets := hm.forgets.bind fun a => (hf a).forgets
  keepsLookups log s heap b log' s' heap' hlog hmet hrun := by
    rw [StateT.run_bind] at hrun
    obtain ⟨⟨a, between⟩, t, mid, hfirst, hrest⟩ := run_bindM.mp hrun
    obtain ⟨hbetween, more, rfl, hp⟩ := hm.keepsLookups _ _ _ _ _ _ _ hlog hmet hfirst
    obtain ⟨hlog', more', rfl, hp'⟩ :=
      (hf a).keepsLookups _ _ _ _ _ _ _ hbetween (fun h hh => hp.awaits (hmet h hh)) hrest
    exact ⟨hlog', more' ++ more, (List.append_assoc ..).symm, hp.trans hp'⟩

theorem pure {a : α} : Watches host met (pure a : Logged ω α) (pure a) where
  forgets := .pure
  keepsLookups log s heap b log' s' heap' hlog _ hrun := by
    obtain ⟨hb, rfl⟩ := run_pure.mp hrun
    cases hb
    exact ⟨hlog, [], rfl, .of_same rfl⟩

theorem lift {act : HostM ω α} (hact : HostM.LeavesTasks act) :
    Watches host met (liftM act : Logged ω α) act where
  forgets := .lift
  keepsLookups log s heap a log' s' heap' hlog _ hrun := by
    change ((act >>= fun a => Pure.pure (a, log)).run s).run heap = _ at hrun
    obtain ⟨_, _, _, hfirst, hrest⟩ := run_bindM.mp hrun
    obtain ⟨hb, rfl⟩ := run_pure.mp hrest
    cases hb
    exact ⟨hlog, [], rfl, .of_same (hact _ _ _ _ _ hfirst)⟩

end Logged.Watches

namespace Watching

variable {ω α β : Type} {host : Host ω} {met : List Handle} {w : Watching ω α} {x : Attempt ω α}
  {f : α → Watching ω β} {g : α → Attempt ω β} {h : Handle}

def Watches (host : Host ω) (met : List Handle) (w : Watching ω α) (x : Attempt ω α) : Prop :=
  Logged.Watches host met w.run x.run

namespace Watches

theorem bind (hx : Watches host met w x) (hf : ∀ a, Watches host met (f a) (g a)) :
    Watches host met (w >>= f) (x >>= g) := by
  unfold Watches
  rw [ExceptT.run_bind, ExceptT.run_bind]
  refine Logged.Watches.bind hx fun result => ?_
  cases result with
  | error e => exact .pure
  | ok a => exact hf a

theorem pure {a : α} : Watches host met (pure a : Watching ω α) (pure a) := Logged.Watches.pure

theorem throwFault {e : Fault} :
    Watches host met (throwThe Fault e : Watching ω α) (throwThe Fault e) where
  forgets _ := rfl
  keepsLookups _ _ _ _ _ _ _ _ _ hrun := by cases hrun

theorem aside (hx : Attempt.LeavesTasks x) : Watches host met (aside x) x := Logged.Watches.lift hx

theorem liftHost {act : HostM ω α} (hact : act.LeavesTasks) :
    Watches host met (liftM act : Watching ω α) (liftM act) := by
  unfold Watches
  change Logged.Watches host met (Except.ok <$> (liftM act : Logged ω α)) (Except.ok <$> act)
  simp only [← bind_pure_comp]
  exact .bind (.lift hact) fun _ => .pure

theorem lift {act : HeapM α} (hact : act.LeavesTasks) :
    Watches host met (liftM act : Watching ω α) (liftM act) :=
  liftHost (HostM.LeavesTasks.lift hact)

theorem see_bind {sight : Heap → Sight} {v : Watching ω α} (hv : Watches host met v x)
    (hsee : ∀ log heap, Heeded log → (∀ h ∈ met, Awaits log h (heap.tasks.isPending h)) →
      Heeded (sight heap :: log))
    (hplain : ∀ heap, (sight heap).isWait = false ∧ (sight heap).inAllocation = 0 ∧
      ∀ before after, sight heap ≠ .made before after) :
    Watches host met (see sight >>= fun _ => v) x where
  forgets := .getHeap_bind fun _ => .modify_bind hv.forgets
  keepsLookups log s heap a log' s' heap' hlog hmet hrun := by
    replace hrun : ((v.run.run (sight heap :: log)).run s).run heap = .ok (((a, log'), s'), heap') :=
      hrun
    obtain ⟨hwait, hnone, hmade⟩ := hplain heap
    have hsight : Proceeds host [sight heap] heap heap :=
      ⟨by simp [hwait, hnone], fun h hp => .inl hp, fun before after hmem =>
        absurd (List.mem_singleton.mp hmem).symm (hmade before after), fun P _ _ hp =>
        ⟨hp, fun before after hmem => absurd (List.mem_singleton.mp hmem).symm (hmade before after)⟩⟩
    obtain ⟨hlog', more, rfl, hp⟩ := hv.keepsLookups _ _ _ _ _ _ _ (hsee log heap hlog hmet)
      (fun h hh => hsight.awaits (hmet h hh)) hrun
    exact ⟨hlog', more ++ [sight heap], List.append_cons .., hsight.trans hp⟩

theorem read (hh : h ∈ met) (hx : Attempt.LeavesTasks x) : Watches host met (look true h x) x :=
  see_bind (.aside hx) (fun _ _ hlog hmet => ⟨hmet h hh, hlog⟩)
    fun _ => ⟨rfl, rfl, fun _ _ hsame => by cases hsame⟩

theorem passed (hx : Attempt.LeavesTasks x) : Watches host met (look false h x) x :=
  see_bind (.aside hx) (fun _ _ hlog _ => hlog) fun _ => ⟨rfl, rfl, fun _ _ hsame => by cases hsame⟩

theorem making {kind : Kind} {length : Nat} {roots : List Handle} :
    Watches host met (making (HostM.allocate host kind length roots))
      (HostM.allocate host kind length roots) where
  forgets := .getHeap_bind fun _ => .tail <| .bind .lift fun _ => .getHeap_bind fun _ =>
    .modify_bind .pure
  keepsLookups log s heap a log' s' heap' hlog hmet hrun := by
    change ((((HostM.allocate host kind length roots).run >>= fun r =>
      (Pure.pure (r, log) : HostM ω _)) >>= fun p => (getThe Heap : HostM ω Heap) >>= fun after =>
      (Pure.pure (p.1, .made heap after :: p.2) : HostM ω _)).run s).run heap = _ at hrun
    obtain ⟨⟨r, between⟩, t, mid, hfirst, hrest⟩ := HostM.run_bindM.mp hrun
    obtain ⟨_, _, _, hallocate, hlogged⟩ := HostM.run_bindM.mp hfirst
    obtain ⟨hsame, rfl⟩ := run_pure.mp hlogged
    cases hsame
    obtain ⟨after, _, _, hget, hend⟩ := HostM.run_bindM.mp hrest
    obtain ⟨rfl, hgot⟩ := HostM.run_liftM.mp hget
    obtain ⟨rfl, rfl⟩ := run_get.mp hgot
    obtain ⟨hlast, rfl⟩ := run_pure.mp hend
    cases hlast
    refine ⟨hlog, [.made heap _], rfl, ⟨?_, fun h hp => ?_, fun before after hmem => ?_,
      fun P _ hmade hp => ⟨hmade _ _ (List.mem_singleton_self _) hp, fun before after hmem => ?_⟩⟩⟩
    · simp only [Sight.isWait, Sight.inAllocation, List.countP_cons_of_neg, List.countP_nil,
        List.map_cons, List.map_nil, List.sum_cons, List.sum_nil, Bool.false_eq_true, not_false_eq_true]
      omega
    · cases hbefore : heap.tasks.isPending h with
      | true => exact .inl rfl
      | false => exact .inr ⟨_, List.mem_singleton_self _, hp, hbefore⟩
    · cases List.mem_singleton.mp hmem
      exact ⟨kind, length, roots, s, _, _, hallocate⟩
    · cases List.mem_singleton.mp hmem
      exact hp

theorem protecting (hx : Watches host met w x) :
    Watches host met (protecting w) (HostM.protecting x) :=
  Logged.Watches.bind (.lift (.reads .protectDepth)) fun _ => .bind hx fun _ =>
    .bind (.lift (.lift .closeScope)) fun _ => .pure

theorem ends_lift {act : HeapM α} {log : List Sight} {s : ω} {heap heap' : Heap} {a : α}
    (hact : act.run heap = .ok (a, heap')) :
    (((liftM act : Watching ω α).run.run log).run s).run heap = .ok (((.ok a, log), s), heap') := by
  change (((act >>= fun a => (Pure.pure (a, s) : HeapM _)) >>= fun p => (Pure.pure ((p.1, log), p.2) : HeapM _)) >>= fun p => (Pure.pure ((Except.ok p.1.1, p.1.2), p.2) : HeapM _)).run heap = _
  simp [hact]

theorem reach_bind {v : Watching ω α} {y : Attempt ω α} (hv : Watches host (h :: met) v y) :
    Watches host met (reach h >>= fun _ => v) (liftM (HeapM.awaitOutput h) >>= fun _ => y) where
  forgets := by
    rw [ExceptT.run_bind, ExceptT.run_bind]
    refine .bind (.getHeap_bind fun _ => .modify_bind .liftHeap) fun result => ?_
    cases result with
    | error e => exact .pure
    | ok _ => exact hv.forgets
  keepsLookups log s heap a log' s' heap' hlog hmet hrun := by
    have hreach : (((Watching.reach h).run.run log).run s).run heap = .ok (((.ok ⟨⟩,
        .reached h (heap.tasks.isPending h) :: log), s), heap.awaited h) :=
      ends_lift (HeapM.ends_awaitOutput h heap)
    rw [ExceptT.run_bind, StateT.run_bind] at hrun
    obtain ⟨_, _, _, hfirst, hrest⟩ := HostM.run_bindM.mp hrun
    rw [hreach] at hfirst
    cases hfirst
    have hquiet : (heap.awaited h).tasks.isPending h = false := by
      rw [Heap.isPending_awaited, decide_eq_false (not_not_intro rfl), Bool.false_and]
    have hreached : Proceeds host [.reached h (heap.tasks.isPending h)] heap (heap.awaited h) :=
      .of_reached heap h
    have hmet' : ∀ k ∈ h :: met, Awaits (.reached h (heap.tasks.isPending h) :: log) k
        ((heap.awaited h).tasks.isPending k) := by
      intro k hk
      rcases List.mem_cons.mp hk with rfl | hk
      · exact ⟨[], _, log, rfl, fun hyes => by rw [hquiet] at hyes; cases hyes⟩
      · exact hreached.awaits (hmet k hk)
    have hreads : Heeded (.reached h (heap.tasks.isPending h) :: log) := hlog
    obtain ⟨hlog', more, rfl, hp⟩ := hv.keepsLookups _ _ _ _ _ _ _ hreads hmet' hrest
    exact ⟨hlog', more ++ [.reached h (heap.tasks.isPending h)], List.append_cons ..,
      hreached.trans hp⟩

theorem mono {more : List Handle} (hx : Watches host met w x) (hsub : ∀ h ∈ met, h ∈ more) :
    Watches host more w x where
  forgets := hx.forgets
  keepsLookups log s heap a log' s' heap' hlog hmet hrun :=
    hx.keepsLookups log s heap a log' s' heap' hlog (fun h hh => hmet h (hsub h hh)) hrun

end Watches

/-! ## The copy is watched -/

variable {copyOne : Handle → Watching ω Handle} {copyIt : Handle → Attempt ω Handle}

theorem watches_copyPairs (hcopy : ∀ h, Watches host met (copyOne h) (copyIt h)) {index : Nat}
    (fuel : Nat) (first : Bool) (head tail cursor : Handle) (hcursor : first = true → cursor ∈ met) :
    Watches host met (copyPairs host copyOne index first head tail cursor fuel)
      (HostM.copyPairs host copyIt index head tail cursor fuel) := by
  induction fuel generalizing first head tail cursor with
  | zero => exact .throwFault
  | succ fuel ih =>
    have hlook : ∀ {α : Type} {act : HeapM α}, act.Reads →
        Watches host met (look first cursor (liftM act)) (liftM act : Attempt ω α) := by
      intro α act hact
      cases first with
      | true => exact .read (hcursor rfl) (.reads hact)
      | false => exact .passed (.reads hact)
    refine .bind (hlook .kind) fun k => ?_
    split
    · exact .pure
    · refine .bind (hlook .car) fun car => .bind (hcopy car) fun element =>
        .bind (hlook .kind) fun cellKind => .bind (hlook .tag) fun cellTag =>
        .bind .making fun cell => .bind (.lift (.leavesTasks .setCar)) fun _ =>
        .bind (.lift (.leavesTasks .setTag)) fun _ => ?_
      have hend : ∀ head, Watches host met (do
            let next ← look first cursor (liftM (HeapM.cdr cursor))
            copyPairs host copyOne index false head cell next fuel)
          (do
            let next ← HeapM.cdr cursor
            HostM.copyPairs host copyIt index head cell next fuel) :=
        fun head => .bind (hlook .cdr) fun next => ih false head cell next (by simp)
      split
      · exact .bind (.lift .reprotect) fun _ => .bind .pure hend
      · exact .bind (.lift (.leavesTasks .setCdr)) fun _ => .bind .pure hend

theorem watches_copyPairlist (hcopy : ∀ h, Watches host met (copyOne h) (copyIt h))
    (hmet : h ∈ met) : Watches host met (copyPairlist host copyOne h)
      (HostM.copyPairlist host copyIt h) := by
  refine .protecting (.bind (.aside (.attempt .pushRoot)) fun index => .bind (.liftHost .stepBound)
    fun bound => .bind (watches_copyPairs hcopy bound true .nil .nil h fun _ => hmet) fun result => ?_)
  obtain ⟨head, tail, rest⟩ := result
  dsimp only
  split
  · exact .bind (hcopy rest) fun last => .bind (.lift (.leavesTasks .setCdr)) fun _ => .pure
  · exact .pure

theorem watches_copyElements (hcopy : ∀ h, Watches host met (copyOne h) (copyIt h)) (hmet : h ∈ met)
    {copy : Handle} (places : List Nat) : Watches host met (copyElements copyOne h copy places)
      (HostM.copyElements copyIt h copy places) := by
  induction places with
  | nil => exact .pure
  | cons i rest ih =>
    exact .bind (.read hmet (.attempt (.of_reads .vectorElt))) fun old => .bind (hcopy old)
      fun element => .bind (.aside (.attempt (.leavesTasks .setVectorElt))) fun _ => ih

theorem watches_copyVector (hcopy : ∀ h, Watches host met (copyOne h) (copyIt h)) (hmet : h ∈ met) :
    Watches host met (copyVector host copyOne h) (HostM.copyVector host copyIt h) :=
  .bind (.read hmet (.reads .kind)) fun _ => .bind (.read hmet (.reads .length)) fun length =>
    .protecting (.bind .making fun _ => .bind (.aside (.attempt .pushRoot)) fun _ =>
      .bind (watches_copyElements hcopy hmet (List.range length)) fun _ => .pure)

theorem watches_copyStrings (hmet : h ∈ met) :
    Watches host met (copyStrings host h) (HostM.copyStrings host h) := by
  refine .bind (.read hmet (.reads .payload)) fun p => ?_
  cases p
  case handles elements =>
    exact .bind (.read hmet (.reads .kind)) fun k => .bind .making fun copy =>
      .bind (.lift (.leavesTasks (.countReferences _))) fun _ => .bind (.lift (.leavesTasks .updateCell)) fun _ =>
      .pure
  all_goals exact .lift (.of_reads .wrongKind)

theorem watches_copyData (hmet : h ∈ met) :
    Watches host met (copyData host h) (HostM.copyData host h) :=
  .bind (.read hmet (.reads .payload)) fun _ => .bind (.read hmet (.reads .kind)) fun _ =>
    .bind .making fun _ => .bind (.lift (.leavesTasks .updateCell)) fun _ => .pure

theorem watches_construct {kind : Kind} {payload : Payload} {slots : List Handle} :
    Watches host met (construct host kind payload slots) (HostM.construct host kind payload slots) :=
  .bind .making fun _ => .bind (.lift (.leavesTasks .updateCell)) fun _ =>
    .bind (.lift (.leavesTasks (.countReferences slots))) fun _ => .pure

theorem watches_copyAttributes (hcopy : ∀ h, Watches host met (copyOne h) (copyIt h)) (hmet : h ∈ met)
    {copy : Handle} : Watches host met (copyAttributes copyOne h copy)
      (HostM.copyAttributes copyIt h copy) := by
  refine .bind (.read hmet (.reads .attrib)) fun attached => .bind (.read hmet (.reads .flags))
    fun flags => ?_
  have hend : Watches host met (do
        HeapM.updateCell copy (Cell.mapFlags fun fs =>
          { fs with object := fs.object || flags.object, s4Object := fs.s4Object || flags.s4Object })
        return copy : Watching ω Handle)
      (do
        HeapM.updateCell copy (Cell.mapFlags fun fs =>
          { fs with object := fs.object || flags.object, s4Object := fs.s4Object || flags.s4Object })
        return copy) := .bind (.lift (.leavesTasks .updateCell)) fun _ => .pure
  dsimp only
  split
  · refine .bind (.protecting ?_) fun _ => hend
    exact .bind (.aside (.attempt .pushRoot)) fun _ => .bind (hcopy attached) fun _ =>
      .lift (.leavesTasks .setAttrib)
  · exact hend

theorem watches_copyWithin (fuel : Nat) (h : Handle) :
    Watches host [] (copyWithin host fuel h) (HostM.copyWithin host fuel h) := by
  induction fuel generalizing h with
  | zero => exact .throwFault
  | succ fuel ih =>
    have hmet : h ∈ [h] := List.mem_singleton_self h
    have hcopy : ∀ k, Watches host [h] (copyWithin host fuel k) (HostM.copyWithin host fuel k) :=
      fun k => (ih k).mono fun _ hno => absurd hno List.not_mem_nil
    refine .reach_bind (.bind (.read hmet (.reads .kind)) fun k => ?_)
    have hdata : Watches host [h] (do
          copyAttributes (copyWithin host fuel) h (← copyData host h))
        (do HostM.copyAttributes (HostM.copyWithin host fuel) h (← HostM.copyData host h)) :=
      .bind (watches_copyData hmet) fun copy => watches_copyAttributes hcopy hmet
    cases k
    case pair | language =>
      exact .bind (watches_copyPairlist hcopy hmet) fun copy => watches_copyAttributes hcopy hmet
    case list | expression =>
      exact .bind (watches_copyVector hcopy hmet) fun copy => watches_copyAttributes hcopy hmet
    case stringVector =>
      exact .bind (watches_copyStrings hmet) fun copy => watches_copyAttributes hcopy hmet
    case charString =>
      refine .bind (.read hmet (.reads .flags)) fun flags => ?_
      split
      · exact .pure
      · exact hdata
    case logicalVector | integerVector | realVector | rawVector => exact hdata
    case closure =>
      refine .bind (.read hmet (.reads .closureParts)) fun parts => ?_
      exact .bind watches_construct fun copy => watches_copyAttributes hcopy hmet
    all_goals exact .pure

theorem watches_duplicate : Watches host [] (duplicate host h) (HostM.duplicate host h) :=
  .protecting (.bind (.aside (.attempt .pushRoot)) fun _ => .bind (.liftHost .stepBound) fun bound =>
    watches_copyWithin bound h)

end Watching

end ManagedHeap
