import ManagedHeap.Proofs.RootOrder

/-!
# The registry of tasks counts

A session with the registry is a list of events, the latest first. Two counters for every object
can be read off the list, and the registry answers as they say. What it caches only shows in how
many entries a release drops.
-/

namespace ManagedHeap

theorem TaskUse.isIdle_iff (u : TaskUse) : u.isIdle = true ↔ u = {} := by
  obtain ⟨outputs, inputs⟩ := u
  simp [TaskUse.isIdle]

namespace PendingObjects

/-- What a task does about one object. -/
inductive Step
  | beginOutput | finishOutput | beginInput | finishInput | awaitOutput | awaitInput
deriving DecidableEq, Repr

inductive Event
  | task (step : Step) (h : Handle)
  | release
deriving DecidableEq, Repr

variable {p q : PendingObjects} {h k : Handle} {past later earlier : List Event}

namespace Step

def apply (step : Step) (h : Handle) (p : PendingObjects) : PendingObjects :=
  match step with
  | .beginOutput => p.beginOutput h
  | .finishOutput => p.finishOutput h
  | .beginInput => p.beginInput h
  | .finishInput => p.finishInput h
  | .awaitOutput => p.settleOutputs h
  | .awaitInput => p.settleInputs h

/-- A wait for something that another task has still to finish. -/
def blocks (step : Step) (u : TaskUse) : Bool :=
  match step with
  | .awaitOutput => 0 < u.outputs
  | .awaitInput => 0 < u.inputs
  | _ => false

/-- What becomes of the counters of the object. Waits only look at them. -/
def count (step : Step) (u : TaskUse) : TaskUse :=
  match step with
  | .beginOutput => { u with outputs := u.outputs + 1 }
  | .finishOutput => { u with outputs := u.outputs - 1 }
  | .beginInput => { u with inputs := u.inputs + 1 }
  | .finishInput => { u with inputs := u.inputs - 1 }
  | .awaitOutput | .awaitInput => u

def begins : Step → Bool
  | .beginOutput | .beginInput => true
  | _ => false

def change (step : Step) (u : TaskUse) : TaskUse :=
  match step with
  | .awaitOutput => { u with outputs := 0 }
  | .awaitInput => { u with inputs := 0 }
  | _ => step.count u

theorem change_eq (step : Step) (u : TaskUse) (hu : step.blocks u = false) :
    step.change u = step.count u := by
  obtain ⟨outputs, inputs⟩ := u
  cases step <;> simp_all [change, count, blocks]

theorem count_idle (step : Step) (hstep : step.begins = false) : step.count {} = {} := by
  cases step <;> first | rfl | cases hstep

theorem apply_eq (step : Step) (h : Handle) (p : PendingObjects) :
    step.apply h p = if step.begins then p.upsert h step.change else p.modify h step.change := by
  cases step <;> rfl

theorem get?_apply (step : Step) (p : PendingObjects) (h k : Handle) :
    (step.apply h p).get? k = if k = h then
      if step.begins then some (step.change (p.use h)) else (p.get? h).map step.change
    else p.get? k := by
  rw [apply_eq]
  by_cases hk : k = h
  · subst hk
    cases step.begins <;> simp [get?_upsert, get?_modify]
  · cases step.begins <;> simp [get?_upsert, get?_modify, hk]

theorem keys_apply (step : Step) (h : Handle) (hp : (p.entries.map Prod.fst).Nodup) :
    ((step.apply h p).entries.map Prod.fst).Nodup := by
  rw [apply_eq]
  split
  · exact keys_upsert hp h step.change
  · rw [keys_modify]
    exact hp

theorem released_apply (step : Step) (h : Handle) (p : PendingObjects) :
    (step.apply h p).released = p.released := by
  rw [apply_eq]
  split
  · unfold upsert
    split <;> rfl
  · rfl

end Step

def Event.apply : Event → PendingObjects → PendingObjects
  | .task step h, p => step.apply h p
  | .release, p => p.releaseCached

/-- Waits for something that is not finished block. -/
def Event.blocks : Event → PendingObjects → Bool
  | .task step h, p => step.blocks (p.use h)
  | .release, _ => false

def Event.isRelease : Event → Bool
  | .release => true
  | .task _ _ => false

/-- The registry after a session. -/
def replay (past : List Event) : PendingObjects := past.foldr Event.apply {}

/-- No wait of the session has blocked. -/
def Unblocked : List Event → Prop
  | [] => True
  | event :: past => event.blocks (replay past) = false ∧ Unblocked past

instance decidableUnblocked : (past : List Event) → Decidable (Unblocked past)
  | [] => inferInstanceAs (Decidable True)
  | event :: past =>
    have := decidableUnblocked past
    inferInstanceAs (Decidable (event.blocks (replay past) = false ∧ Unblocked past))

/-- The two counters of an object. -/
def counter (h : Handle) : List Event → TaskUse
  | [] => {}
  | .task step k :: past => if h = k then step.count (counter h past) else counter h past
  | .release :: past => counter h past

/-- A task has begun something with the object since its entry was last dropped. -/
def begun (h : Handle) : List Event → Bool
  | [] => false
  | .task step k :: past => (h = k && step.begins) || begun h past
  | .release :: past => begun h past && !(counter h past).isIdle


theorem counter_task (h k : Handle) (step : Step) (past : List Event) :
    counter h (.task step k :: past) =
      if h = k then step.count (counter h past) else counter h past := rfl

/-- The registry has an entry for every object that was begun since its last drop, with the
counters of the object. The counters of all others are zero. -/
structure Reflects (past : List Event) (p : PendingObjects) : Prop where
  keys : (p.entries.map Prod.fst).Nodup
  entry : ∀ h, p.get? h = if begun h past then some (counter h past) else none
  idle : ∀ h, begun h past = false → counter h past = {}

theorem Reflects.use (hr : Reflects past p) (h : Handle) : p.use h = counter h past := by
  unfold PendingObjects.use
  rw [hr.entry]
  cases hbegun : begun h past with
  | true => rfl
  | false => exact (hr.idle h hbegun).symm

theorem Reflects.task (hr : Reflects past p) (step : Step) (h : Handle)
    (hfree : step.blocks (p.use h) = false) :
    Reflects (.task step h :: past) (step.apply h p) := by
  have hchange : step.change (counter h past) = step.count (counter h past) :=
    step.change_eq _ (hr.use h ▸ hfree)
  refine ⟨step.keys_apply h hr.keys, fun k => ?_, fun k hk => ?_⟩
  · rw [Step.get?_apply]
    by_cases hkh : k = h
    · subst hkh
      rw [hr.use, hr.entry]
      cases hbegins : step.begins <;> cases hbegun : begun k past <;>
        simp [begun, counter, hbegins, hbegun, hchange]
    · simp [hkh, hr.entry, begun, counter]
  · simp only [begun, Bool.or_eq_false_iff, Bool.and_eq_false_iff] at hk
    rw [counter_task, hr.idle k hk.2]
    split
    · refine step.count_idle ?_
      simpa [*] using hk.1
    · rfl

theorem get?_eq_some_iff {u : TaskUse} (hp : (p.entries.map Prod.fst).Nodup) :
    p.get? h = some u ↔ (h, u) ∈ p.entries :=
  ⟨mem_of_get?, get?_of_mem hp⟩

theorem keys_releaseCached (hp : (p.entries.map Prod.fst).Nodup) :
    (p.releaseCached.entries.map Prod.fst).Nodup :=
  hp.sublist (List.filter_sublist.map _)

theorem get?_releaseCached (hp : (p.entries.map Prod.fst).Nodup) (h : Handle) :
    p.releaseCached.get? h = (p.get? h).filter fun u => !u.isIdle := by
  refine Option.ext fun u => ?_
  rw [get?_eq_some_iff (keys_releaseCached hp), Option.filter_eq_some_iff, get?_eq_some_iff hp]
  exact List.mem_filter

theorem Reflects.release (hr : Reflects past p) : Reflects (.release :: past) p.releaseCached := by
  refine ⟨keys_releaseCached hr.keys, fun h => ?_, fun h hbegun => ?_⟩
  · rw [get?_releaseCached hr.keys, hr.entry]
    cases hbegun : begun h past with
    | true => cases hidle : (counter h past).isIdle <;> simp [begun, counter, hbegun, hidle]
    | false => simp [begun, hbegun]
  · obtain hbegun | hidle := Bool.and_eq_false_iff.1 hbegun
    · exact hr.idle h hbegun
    · exact (TaskUse.isIdle_iff (counter h past)).1 (by simpa using hidle)

theorem Unblocked.reflects (hu : Unblocked past) : Reflects past (replay past) := by
  induction past with
  | nil => exact ⟨List.nodup_nil, fun _ => rfl, fun _ _ => rfl⟩
  | cons event past ih =>
    obtain ⟨hfree, hpast⟩ := hu
    cases event with
    | task step h => exact (ih hpast).task step h hfree
    | release => exact (ih hpast).release

theorem Reflects.mem_held (hr : Reflects past p) :
    h ∈ p.held ↔ 0 < (counter h past).outputs ∨ 0 < (counter h past).inputs := by
  have hbusy : h ∈ p.held ↔ ∃ u, p.get? h = some u ∧ u.isIdle = false := by
    simp [held, get?_eq_some_iff hr.keys]
  rw [hbusy, hr.entry]
  cases hbegun : begun h past with
  | true =>
    simp only [↓reduceIte, Option.some.injEq, exists_eq_left', TaskUse.isIdle,
      Bool.and_eq_false_iff, beq_eq_false_iff_ne, Nat.pos_iff_ne_zero]
  | false => simp [hr.idle h hbegun]

theorem Reflects.dropped (hr : Reflects past p) : ∃ hs : List Handle, hs.Nodup ∧
    (∀ h, h ∈ hs ↔ begun h past = true ∧ counter h past = {}) ∧
    p.releaseCached.released = p.released + hs.length := by
  refine ⟨(p.entries.filter (·.2.isIdle)).map Prod.fst,
    hr.keys.sublist (List.filter_sublist.map _), fun h => ?_, ?_⟩
  · have hidle : h ∈ (p.entries.filter (·.2.isIdle)).map Prod.fst ↔
        ∃ u, p.get? h = some u ∧ u.isIdle = true := by
      simp [get?_eq_some_iff hr.keys]
    rw [hidle, hr.entry, ← TaskUse.isIdle_iff]
    cases begun h past <;> simp
  · have hsplit := p.entries.length_eq_countP_add_countP (·.2.isIdle)
    simp only [List.countP_eq_length_filter, Bool.not_eq_true, Bool.decide_eq_false] at hsplit
    simp only [releaseCached, List.length_map]
    omega

/-! ### Releases do not show -/

def Unhurried : List Event → Prop
  | [] => True
  | .task step h :: past => step.blocks (counter h past) = false ∧ Unhurried past
  | .release :: past => Unhurried past

theorem unblocked_iff : Unblocked past ↔ Unhurried past := by
  induction past with
  | nil => exact .rfl
  | cons event past ih =>
    cases event with
    | task step h =>
      refine (and_congr_left fun hu => ?_).trans (and_congr_right fun _ => ih)
      rw [Event.blocks, hu.reflects.use]
    | release =>
      refine Iff.trans ?_ ih
      exact ⟨And.right, fun hu => ⟨rfl, hu⟩⟩

/-- The session without its releases. -/
def unreleased (past : List Event) : List Event := past.filter (!·.isRelease)

theorem counter_unreleased (h : Handle) (past : List Event) :
    counter h (unreleased past) = counter h past := by
  induction past with
  | nil => rfl
  | cons event past ih =>
    cases event with
    | task step k => exact congrArg (fun u => if h = k then step.count u else u) ih
    | release => exact ih

theorem unhurried_unreleased : Unhurried (unreleased past) ↔ Unhurried past := by
  induction past with
  | nil => exact .rfl
  | cons event past ih =>
    cases event with
    | task step h =>
      exact and_congr (iff_of_eq (by rw [← unreleased, counter_unreleased])) ih
    | release => exact ih

/-! ### Steps on different objects commute -/

/-- The same entries, in any order, and as many dropped. -/
structure Same (p q : PendingObjects) : Prop where
  entries : p.entries.Perm q.entries
  released : p.released = q.released

theorem Same.use (hs : Same p q) (hp : (p.entries.map Prod.fst).Nodup) (h : Handle) :
    q.use h = p.use h := by
  unfold PendingObjects.use
  rw [get?_perm hp hs.entries]

theorem same_of_get? (hp : (p.entries.map Prod.fst).Nodup)
    (hq : (q.entries.map Prod.fst).Nodup) (hget : ∀ h, p.get? h = q.get? h)
    (hreleased : p.released = q.released) : Same p q := by
  refine ⟨(List.perm_ext_iff_of_nodup (.of_map _ hp) (.of_map _ hq)).2 fun e => ?_, hreleased⟩
  rw [← get?_eq_some_iff hp, ← get?_eq_some_iff hq, hget]

theorem Same.apply (hs : Same p q) (hp : (p.entries.map Prod.fst).Nodup) (event : Event) :
    Same (event.apply p) (event.apply q) := by
  have hq : (q.entries.map Prod.fst).Nodup := (hs.entries.map Prod.fst).nodup_iff.1 hp
  cases event with
  | task step h =>
    refine same_of_get? (step.keys_apply h hp) (step.keys_apply h hq) (fun k => ?_) ?_
    · simp only [Event.apply, Step.get?_apply, hs.use hp, get?_perm hp hs.entries]
    · simp only [Event.apply, Step.released_apply, hs.released]
  | release =>
    have hkept := hs.entries.filter fun e => !e.2.isIdle
    exact ⟨hkept, by simp only [Event.apply, releaseCached, hs.released, hs.entries.length_eq,
      hkept.length_eq]⟩

theorem Step.use_apply_of_ne (step : Step) (p : PendingObjects) (hne : k ≠ h) :
    (step.apply h p).use k = p.use k := by
  unfold PendingObjects.use
  rw [get?_apply, if_neg hne]

theorem Step.apply_comm (a b : Step) (hne : h ≠ k) (hp : (p.entries.map Prod.fst).Nodup) :
    Same (a.apply h (b.apply k p)) (b.apply k (a.apply h p)) := by
  refine same_of_get? (a.keys_apply h (b.keys_apply k hp)) (b.keys_apply k (a.keys_apply h hp))
    (fun j => ?_) (by simp only [released_apply])
  simp only [get?_apply, use_apply_of_ne _ _ hne, use_apply_of_ne _ _ hne.symm]
  by_cases hjh : j = h
  · subst hjh
    simp [hne]
  · simp [hjh, hne.symm]

theorem swap (a b : Step) (hne : h ≠ k)
    (hu : Unblocked (later ++ .task a h :: .task b k :: earlier)) :
    Unblocked (later ++ .task b k :: .task a h :: earlier) ∧
      Same (replay (later ++ .task a h :: .task b k :: earlier))
        (replay (later ++ .task b k :: .task a h :: earlier)) := by
  induction later with
  | nil =>
    obtain ⟨hfirst, hsecond, hearlier⟩ := hu
    refine ⟨⟨?_, ?_, hearlier⟩, a.apply_comm b hne hearlier.reflects.keys⟩
    · exact (congrArg b.blocks (a.use_apply_of_ne _ hne.symm)).trans hsecond
    · exact (congrArg a.blocks (b.use_apply_of_ne _ hne)).symm.trans hfirst
  | cons event later ih =>
    obtain ⟨hfree, hpast⟩ := hu
    obtain ⟨hswapped, hsame⟩ := ih hpast
    refine ⟨⟨?_, hswapped⟩, hsame.apply hpast.reflects.keys event⟩
    cases event with
    | task step j => exact (congrArg step.blocks (hsame.use hpast.reflects.keys j)).trans hfree
    | release => rfl

/-- What the registry answers and does after a session. -/
structure Refines (past : List Event) : Prop where
  isPending : ∀ h, (replay past).isPending h = true ↔ 0 < (counter h past).outputs
  isInUse : ∀ h, (replay past).isInUse h = true ↔ 0 < (counter h past).inputs
  held : (replay past).held.Nodup ∧ ∀ h, h ∈ (replay past).held ↔
    0 < (counter h past).outputs ∨ 0 < (counter h past).inputs
  /-- A session with other releases has no wait that blocks either, and answers the same. -/
  releases : ∀ other, unreleased other = unreleased past → Unblocked other ∧
    (∀ h, (replay other).isPending h = (replay past).isPending h ∧
      (replay other).isInUse h = (replay past).isInUse h) ∧
    (replay other).held.Perm (replay past).held
  swaps : ∀ later a h b k earlier, past = later ++ .task a h :: .task b k :: earlier → h ≠ k →
    Unblocked (later ++ .task b k :: .task a h :: earlier) ∧
      Same (replay past) (replay (later ++ .task b k :: .task a h :: earlier))
  released : ∃ hs : List Handle, hs.Nodup ∧
    (∀ h, h ∈ hs ↔ begun h past = true ∧ counter h past = {}) ∧
    (replay past).releaseCached.released = (replay past).released + hs.length

theorem isPending_iff (hu : Unblocked past) (h : Handle) :
    (replay past).isPending h = true ↔ 0 < (counter h past).outputs := by
  rw [isPending, hu.reflects.use, decide_eq_true_iff]

theorem isInUse_iff (hu : Unblocked past) (h : Handle) :
    (replay past).isInUse h = true ↔ 0 < (counter h past).inputs := by
  rw [isInUse, hu.reflects.use, decide_eq_true_iff]

theorem nodup_held (hu : Unblocked past) : (replay past).held.Nodup :=
  hu.reflects.keys.sublist (List.filter_sublist.map _)

/-- In every session in which no wait blocks, the registry answers by the two counters of each
object, whatever was released when, and in whatever order different objects had their turn. -/
theorem Unblocked.refines (hu : Unblocked past) : Refines past where
  isPending := isPending_iff hu
  isInUse := isInUse_iff hu
  held := ⟨nodup_held hu, fun _ => hu.reflects.mem_held⟩
  releases other hother := by
    have hcounter : ∀ h, counter h other = counter h past := fun h => by
      rw [← counter_unreleased, hother, counter_unreleased]
    have hfree : Unblocked other := by
      rw [unblocked_iff, ← unhurried_unreleased, hother, unhurried_unreleased, ← unblocked_iff]
      exact hu
    refine ⟨hfree, fun h => ⟨?_, ?_⟩, ?_⟩
    · rw [Bool.eq_iff_iff, isPending_iff hfree, isPending_iff hu, hcounter]
    · rw [Bool.eq_iff_iff, isInUse_iff hfree, isInUse_iff hu, hcounter]
    · refine (List.perm_ext_iff_of_nodup (nodup_held hfree) (nodup_held hu)).2 fun h => ?_
      rw [hfree.reflects.mem_held, hu.reflects.mem_held, hcounter]
  swaps later a h b k earlier hpast hne := by
    subst hpast
    exact swap a b hne hu
  released := hu.reflects.dropped

/-- Two objects: one is read, the other was written, is dropped and is begun again. -/
theorem refines_after_release : ∃ past, Unblocked past ∧ past.any (·.isRelease) = true ∧
    (replay past).held = [.unbound, .nil] ∧ (replay past).released = 1 ∧ Refines past := by
  let past : List Event := [.task .beginOutput .nil, .release, .task .awaitOutput .nil,
    .task .beginInput .unbound, .task .finishOutput .nil, .task .beginOutput .nil]
  have hu : Unblocked past := by decide +kernel
  exact ⟨past, hu, rfl, by decide +kernel, by decide +kernel, hu.refines⟩

end PendingObjects

end ManagedHeap
