import ManagedHeap.Session.Run

/-!
# Runs of computations

A computation on a heap either stops at a fault or ends with an answer and a
new state. The lemmas here take a finished run apart, for the marking, for the
heap, and for the two layers of foreign code above it.
-/

namespace ManagedHeap

theorem except_bind {ε α β : Type} {x : Except ε α} {f : α → Except ε β} {b : β} :
    (x >>= f) = .ok b ↔ ∃ a, x = .ok a ∧ f a = .ok b := by
  cases x with
  | error e => simp [bind, Except.bind]
  | ok a => simp [bind, Except.bind]

theorem except_of_test {ε α : Type} {x : Except ε α} {p : α → Bool}
    (h : (match x with
      | .ok a => p a
      | .error _ => false) = true) : ∃ a, x = .ok a ∧ p a = true := by
  cases x with
  | ok a => exact ⟨a, rfl, h⟩
  | error e => exact nomatch h

theorem eq_ok_of_toOption {ε α : Type} {x : Except ε α} {a : α} (hx : x.toOption = some a) :
    x = .ok a := by
  cases x with
  | error e => exact nomatch hx
  | ok b => exact congrArg Except.ok (Option.some.inj hx)

theorem except_guard {ε α β : Type} {p : Prop} [Decidable p] {e : ε} {f : α → Except ε β}
    {x : Except ε β} {b : β} : (if p then throw e >>= f else x) = .ok b ↔ ¬ p ∧ x = .ok b := by
  by_cases hp : p
  · simp [hp, throw, throwThe, MonadExceptOf.throw, bind, Except.bind]
  · simp [hp]

section Layers

variable {σ ε α β : Type} {s t : σ} {a b : α} {u : PUnit}

theorem run_bind {x : StateT σ (Except ε) β} {f : β → StateT σ (Except ε) α} :
    (x >>= f).run s = .ok (a, t) ↔
      ∃ c r, x.run s = .ok (c, r) ∧ (f c).run r = .ok (a, t) := by
  rw [StateT.run_bind]
  cases hx : x.run s with
  | error e => simp [bind, Except.bind]
  | ok p =>
    obtain ⟨c, r⟩ := p
    simp only [bind, Except.bind, Except.ok.injEq, Prod.mk.injEq]
    constructor
    · intro h
      exact ⟨c, r, ⟨rfl, rfl⟩, h⟩
    · rintro ⟨c', r', ⟨rfl, rfl⟩, h⟩
      exact h

theorem run_pure :
    (pure a : StateT σ (Except ε) α).run s = .ok (b, t) ↔ a = b ∧ s = t := by
  change Except.ok (a, s) = Except.ok (b, t) ↔ _
  rw [Except.ok.injEq, Prod.mk.injEq]

theorem run_get {r : σ} :
    (get : StateT σ (Except ε) σ).run s = .ok (r, t) ↔ s = r ∧ s = t := by
  change Except.ok (s, s) = Except.ok (r, t) ↔ _
  rw [Except.ok.injEq, Prod.mk.injEq]

theorem run_get_bind {f : σ → StateT σ (Except ε) α} : (get >>= f).run s = (f s).run s :=
  rfl

theorem run_modify {f : σ → σ} :
    (modify f : StateT σ (Except ε) PUnit).run s = .ok (u, t) ↔ f s = t := by
  change Except.ok (PUnit.unit, f s) = Except.ok (u, t) ↔ _
  rw [Except.ok.injEq, Prod.mk.injEq]
  exact and_iff_right rfl

theorem run_throw {e : ε} :
    (throw e : StateT σ (Except ε) α).run s = .ok (a, t) ↔ False := by
  change Except.error e = Except.ok (a, t) ↔ _
  exact iff_of_false nofun id

theorem run_ite {p : Prop} [Decidable p] {x y : StateT σ (Except ε) α} :
    (if p then x else y).run s = .ok (a, t) ↔
      (p ∧ x.run s = .ok (a, t)) ∨ (¬ p ∧ y.run s = .ok (a, t)) := by
  by_cases hp : p <;> simp [hp]

theorem run_lift {x : Except ε α} :
    (liftM x : StateT σ (Except ε) α).run s = .ok (a, t) ↔ x = .ok a ∧ s = t := by
  change (x >>= fun c => pure (c, s)) = .ok (a, t) ↔ _
  simp only [except_bind, pure, Except.pure, Except.ok.injEq, Prod.mk.injEq]
  constructor
  · rintro ⟨c, hx, rfl, hs⟩
    exact ⟨hx, hs⟩
  · rintro ⟨hx, hs⟩
    exact ⟨a, hx, rfl, hs⟩

end Layers

namespace HeapM

variable {α : Type} {heap heap' : Heap} {h : Handle} {u : PUnit}

theorem run_cell {c : Cell} :
    (cell h).run heap = .ok (c, heap') ↔ heap.arena.get? h = some c ∧ heap = heap' := by
  simp only [cell, StateT.run, Arena.get]
  cases heap.arena.get? h with
  | none => simp
  | some d => simp

theorem run_onArena {f : Arena → Except Fault (α × Arena)} {a : α} :
    (onArena f).run heap = .ok (a, heap') ↔
      ∃ arena, f heap.arena = .ok (a, arena) ∧ heap' = { heap with arena } := by
  simp only [onArena, StateT.run]
  cases f heap.arena with
  | error e => simp
  | ok p =>
    obtain ⟨b, arena⟩ := p
    simp only [Except.ok.injEq, Prod.mk.injEq]
    constructor
    · rintro ⟨rfl, rfl⟩
      exact ⟨arena, ⟨rfl, rfl⟩, rfl⟩
    · rintro ⟨_, ⟨rfl, rfl⟩, rfl⟩
      exact ⟨rfl, rfl⟩

theorem run_updateCell {f : Cell → Cell} :
    (updateCell h f).run heap = .ok (u, heap') ↔
      (∃ c, heap.arena.get? h = some c) ∧
        heap' = { heap with arena := heap.arena.setCell h f } := by
  simp only [updateCell, run_onArena]
  constructor
  · rintro ⟨arena, harena, rfl⟩
    cases hu : heap.arena.update h f with
    | error e => simp [hu, Except.map] at harena
    | ok b =>
      simp only [hu, Except.map, Except.ok.injEq, Prod.mk.injEq] at harena
      obtain ⟨-, rfl⟩ := harena
      obtain ⟨hc, rfl⟩ := Arena.update_eq_ok hu
      exact ⟨hc, rfl⟩
  · rintro ⟨⟨c, hc⟩, rfl⟩
    refine ⟨heap.arena.setCell h f, ?_, rfl⟩
    obtain ⟨hat, hfree⟩ := Option.filter_eq_some_iff.mp hc
    have hlive : c.isFree = false := by simpa using hfree
    simp only [Arena.update, hat, hlive, Bool.false_eq_true, if_false, Except.map]

theorem run_kind {k : Kind} :
    (kind h).run heap = .ok (k, heap') ↔
      ∃ c, heap.arena.get? h = some c ∧ c.kind = k ∧ heap = heap' := by
  simp only [kind, run_bind, run_cell, run_pure]
  grind

theorem run_flags {fs : Flags} :
    (flags h).run heap = .ok (fs, heap') ↔
      ∃ c, heap.arena.get? h = some c ∧ c.flags = fs ∧ heap = heap' := by
  simp only [flags, run_bind, run_cell, run_pure]
  grind

theorem run_payload {p : Payload} :
    (payload h).run heap = .ok (p, heap') ↔
      ∃ c, heap.arena.get? h = some c ∧ c.payload = p ∧ heap = heap' := by
  simp only [payload, run_bind, run_cell, run_pure]
  grind

theorem run_wrongKind {expected : Shape} {a : α} :
    (wrongKind h expected : HeapM α).run heap = .ok (a, heap') ↔ False := by
  simp only [wrongKind, run_bind, run_throw, and_false, exists_false]

theorem run_walkBound {n : Nat} :
    walkBound.run heap = .ok (n, heap') ↔ heap.arena.capacity + 1 = n ∧ heap = heap' := by
  simp only [walkBound, run_bind, run_get, run_pure]
  grind

theorem run_modifyStrings {f : StringCache → StringCache} :
    (modifyStrings f).run heap = .ok (u, heap') ↔
      { heap with strings := f heap.strings } = heap' := run_modify

theorem run_cachedHash {hash : UInt32} (hrun : (cachedHash h).run heap = .ok (hash, heap')) :
    heap = heap' := by
  simp only [cachedHash, run_bind, run_payload] at hrun
  obtain ⟨p, _, ⟨c, -, -, rfl⟩, hrun⟩ := hrun
  cases p
  case charString => exact (run_pure.mp hrun).2
  all_goals exact (run_wrongKind.mp hrun).elim

end HeapM

namespace MarkM

variable {m m' : Marking} {h : Handle} {u : PUnit}

theorem run_cell {c : Cell} :
    (cell h).run m = .ok (c, m') ↔ m.arena.get? h = some c ∧ m = m' := by
  simp only [cell, StateT.run, Arena.get]
  cases m.arena.get? h with
  | none => simp
  | some d => simp

theorem run_updateCell {f : Cell → Cell} :
    (updateCell h f).run m = .ok (u, m') ↔
      (∃ c, m.arena.get? h = some c) ∧ m' = { m with arena := m.arena.setCell h f } := by
  simp only [updateCell, onArena, StateT.run]
  cases hu : m.arena.update h f with
  | error e =>
    simp only [Except.map, reduceCtorEq, false_iff, not_and]
    rintro ⟨c, hc⟩ -
    obtain ⟨hat, hfree⟩ := Option.filter_eq_some_iff.mp hc
    simp only [Bool.not_eq_eq_eq_not, Bool.not_true] at hfree
    simp only [Arena.update, hat, hfree, Bool.false_eq_true, if_false, reduceCtorEq] at hu
  | ok b =>
    obtain ⟨hc, rfl⟩ := Arena.update_eq_ok hu
    simp only [Except.map, Except.ok.injEq, Prod.mk.injEq, true_and]
    exact ⟨fun e => ⟨hc, e.symm⟩, fun e => e.2.symm⟩

end MarkM

end ManagedHeap
