import ManagedHeap.ProtectStack

/-!
# The protection stack and its red zone

A session on the protection stack is a list of calls, each with the depth that it met. Beside the
stack runs a plain list, on which a push that fails does nothing. The stack agrees with the list
all along, and which pushes fail can be read off the session: the first one that meets the nominal
depth since the stack was last below it.
-/

namespace ManagedHeap

namespace ProtectStack

inductive Request
  | push (h : Handle)
  | pop (n : Nat)
  | truncate (depth : Nat)
  | reprotect (h : Handle) (index : Nat)
deriving DecidableEq, Repr

/-- A request and the depth of the stack that got it. -/
structure Call where
  request : Request
  depth : Nat
deriving DecidableEq, Repr

/-- A session that has not met a fault: its calls, the latest first, the plain list, the oldest
entry first, and the stack. -/
inductive Session (nominal redZone : Nat) : List Call → List Handle → ProtectStack → Prop
  | empty : Session nominal redZone [] [] (.empty nominal redZone)
  | pushed {past : List Call} {plain : List Handle} {s s' : ProtectStack} (h : Handle)
      (index : Nat) : Session nominal redZone past plain s → s.push h = .ok (.ok index, s') →
      Session nominal redZone (⟨.push h, s.depth⟩ :: past) (plain ++ [h]) s'
  | refused {past : List Call} {plain : List Handle} {s s' : ProtectStack} (h : Handle)
      (e : HeapError) : Session nominal redZone past plain s → s.push h = .ok (.error e, s') →
      Session nominal redZone (⟨.push h, s.depth⟩ :: past) plain s'
  | popped {past : List Call} {plain : List Handle} {s s' : ProtectStack} (n : Nat) :
      Session nominal redZone past plain s → s.pop n = .ok s' →
      Session nominal redZone (⟨.pop n, s.depth⟩ :: past) (plain.take (plain.length - n)) s'
  | truncated {past : List Call} {plain : List Handle} {s : ProtectStack} (depth : Nat) :
      Session nominal redZone past plain s →
      Session nominal redZone (⟨.truncate depth, s.depth⟩ :: past) (plain.take depth)
        (s.truncate depth)
  | reprotected {past : List Call} {plain : List Handle} {s s' : ProtectStack} (h : Handle)
      (index : Nat) : Session nominal redZone past plain s → s.reprotect h index = .ok s' →
      Session nominal redZone (⟨.reprotect h index, s.depth⟩ :: past) (plain.set index h) s'

/-- A push has met the nominal depth, and no call since then has met a smaller one. -/
def Tried (nominal : Nat) (past : List Call) : Prop :=
  ∃ later h earlier, past = later ++ ⟨.push h, nominal⟩ :: earlier ∧
    ∀ call ∈ later, nominal ≤ call.depth

variable {nominal redZone : Nat} {past : List Call} {plain : List Handle} {s s' : ProtectStack}

theorem tried_cons (call : Call) : Tried nominal (call :: past) ↔
    (∃ h, call = ⟨.push h, nominal⟩) ∨ nominal ≤ call.depth ∧ Tried nominal past := by
  constructor
  · rintro ⟨later, h, earlier, hpast, hlater⟩
    cases later with
    | nil => exact .inl ⟨h, (List.cons.inj hpast).1⟩
    | cons last later =>
      obtain ⟨rfl, rfl⟩ := List.cons.inj hpast
      exact .inr ⟨hlater _ (.head _), later, h, earlier, rfl,
        fun call hcall => hlater call (.tail _ hcall)⟩
  · rintro (⟨h, rfl⟩ | ⟨hdepth, later, h, earlier, rfl, hlater⟩)
    · exact ⟨[], h, past, rfl, by simp⟩
    · exact ⟨call :: later, h, earlier, rfl, by simpa [hdepth] using hlater⟩

theorem not_tried_of_lt (call : Call) (hdepth : call.depth < nominal) :
    ¬ Tried nominal (call :: past) := by
  rw [tried_cons]
  rintro (⟨h, rfl⟩ | ⟨hle, -⟩)
  · exact Nat.lt_irrefl _ hdepth
  · exact Nat.not_lt_of_le hle hdepth

theorem tried_cons_of_le (call : Call) (hdepth : nominal ≤ call.depth)
    (hpast : Tried nominal past) : Tried nominal (call :: past) :=
  (tried_cons call).2 (.inr ⟨hdepth, hpast⟩)

/-- The red zone is locked, and the stack would unlock it at its nominal depth. -/
structure Locked (nominal : Nat) (past : List Call) (s : ProtectStack) : Prop where
  limit : s.limit = nominal
  depth : s.depth ≤ nominal
  fresh : s.depth = nominal → ¬ Tried nominal past

/-- A push at the nominal depth has unlocked the red zone, and the stack is still that deep. -/
structure Unlocked (nominal redZone : Nat) (past : List Call) (s : ProtectStack) : Prop where
  limit : s.limit = nominal + redZone
  nominal_le : nominal ≤ s.depth
  depth : s.depth ≤ nominal + redZone
  tried : Tried nominal past

/-- What holds between the calls of a session. -/
structure Agrees (nominal redZone : Nat) (past : List Call) (plain : List Handle)
    (s : ProtectStack) : Prop where
  nominal_eq : s.nominal = nominal
  redZone_eq : s.redZone = redZone
  slots : s.slots.toList = plain
  zone : Locked nominal past s ∨ Unlocked nominal redZone past s

theorem Agrees.length (ha : Agrees nominal redZone past plain s) : plain.length = s.depth := by
  rw [← ha.slots]
  rfl

theorem Locked.call (hz : Locked nominal past s) (request : Request)
    (hrequest : ∀ h, request ≠ .push h) (hlimit : s'.limit = nominal)
    (hdepth : s'.depth ≤ s.depth) : Locked nominal (⟨request, s.depth⟩ :: past) s' := by
  have hle := hz.depth
  refine ⟨hlimit, by omega, fun hdeep htried => ?_⟩
  obtain ⟨h, hcall⟩ | ⟨-, hpast⟩ := (tried_cons _).1 htried
  · exact hrequest h (Call.mk.inj hcall).1
  · exact hz.fresh (by omega) hpast

theorem Unlocked.call (hz : Unlocked nominal redZone past s) (request : Request)
    (hlimit : s'.limit = nominal + redZone) (hnominal : nominal ≤ s'.depth)
    (hdepth : s'.depth ≤ nominal + redZone) :
    Unlocked nominal redZone (⟨request, s.depth⟩ :: past) s' :=
  ⟨hlimit, hnominal, hdepth, tried_cons_of_le _ hz.nominal_le hz.tried⟩

theorem limit_truncate (s : ProtectStack) (d : Nat) : (s.truncate d).limit =
    if s.limit > s.nominal ∧ (s.truncate d).depth < s.nominal then s.nominal else s.limit := rfl

theorem Agrees.truncate (ha : Agrees nominal redZone past plain s) (hredZone : 1 ≤ redZone)
    (request : Request) (hrequest : ∀ h, request ≠ .push h) (depth : Nat) :
    Agrees nominal redZone (⟨request, s.depth⟩ :: past) (plain.take depth)
      (s.truncate depth) := by
  have hdepth := s.depth_truncate depth
  have hlimit := s.limit_truncate depth
  refine ⟨ha.nominal_eq, ha.redZone_eq, by rw [← ha.slots]; exact Array.toList_shrink, ?_⟩
  cases ha.zone with
  | inl hz =>
    refine .inl (hz.call request hrequest ?_ (by omega))
    rw [hlimit, if_neg (by rw [hz.limit, ha.nominal_eq]; omega), hz.limit]
  | inr hz =>
    rw [hz.limit, ha.nominal_eq] at hlimit
    by_cases hlow : (s.truncate depth).depth < nominal
    · rw [if_pos ⟨by omega, hlow⟩] at hlimit
      exact .inl ⟨hlimit, by omega, by omega⟩
    · rw [if_neg (by omega)] at hlimit
      exact .inr (hz.call request hlimit (by omega) (by have := hz.depth; omega))

theorem Agrees.reprotect (ha : Agrees nominal redZone past plain s) {h : Handle} {index : Nat}
    (hs : s.reprotect h index = .ok s') :
    Agrees nominal redZone (⟨.reprotect h index, s.depth⟩ :: past) (plain.set index h) s' := by
  unfold ProtectStack.reprotect at hs
  split at hs
  · obtain rfl := Except.ok.inj hs
    have hdepth : ({ s with slots := s.slots.setIfInBounds index h } : ProtectStack).depth =
        s.depth := Array.size_setIfInBounds
    refine ⟨ha.nominal_eq, ha.redZone_eq, by simp [ha.slots], ?_⟩
    cases ha.zone with
    | inl hz => exact .inl (hz.call _ (by simp) hz.limit (by omega))
    | inr hz =>
      have hle := hz.nominal_le
      have hge := hz.depth
      exact .inr (hz.call _ hz.limit (by omega) (by omega))
  · cases hs

theorem Agrees.push_eq (ha : Agrees nominal redZone past plain s) (hredZone : 1 ≤ redZone)
    (hsum : nominal + redZone ≤ wordMax) (h : Handle) :
    (s.depth = nominal ∧ ¬ Tried nominal past ∧
      s.push h = .ok (.error (.protectStackOverflow nominal),
        { s with limit := nominal + redZone })) ∨
    (s.depth = nominal + redZone ∧ Tried nominal past ∧ s.push h = .error .redZoneExhausted) ∨
    (s.depth < nominal + redZone ∧ (s.depth = nominal → Tried nominal past) ∧
      s.push h = .ok (.ok s.depth, { s with slots := s.slots.push h })) := by
  unfold ProtectStack.push
  cases ha.zone with
  | inl hz =>
    by_cases hlow : s.depth < nominal
    · refine .inr (.inr ⟨by omega, by omega, ?_⟩)
      rw [if_pos (hz.limit.symm ▸ hlow)]
    · have hdepth : s.depth = nominal := by have := hz.depth; omega
      refine .inl ⟨hdepth, hz.fresh hdepth, ?_⟩
      rw [if_neg (by rw [hz.limit]; exact hlow),
        if_pos ⟨by rw [hz.limit, ha.nominal_eq], by rw [ha.redZone_eq]; omega⟩,
        ha.nominal_eq, ha.redZone_eq, Nat.mod_eq_of_lt (by omega)]
  | inr hz =>
    by_cases hlow : s.depth < nominal + redZone
    · refine .inr (.inr ⟨hlow, fun _ => hz.tried, ?_⟩)
      rw [if_pos (hz.limit.symm ▸ hlow)]
    · refine .inr (.inl ⟨by have := hz.depth; omega, hz.tried, ?_⟩)
      rw [if_neg (by rw [hz.limit]; exact hlow), if_neg]
      rw [hz.limit, ha.nominal_eq]
      omega

theorem Agrees.pushed (ha : Agrees nominal redZone past plain s) (hredZone : 1 ≤ redZone)
    (hsum : nominal + redZone ≤ wordMax) {h : Handle} {index : Nat}
    (hs : s.push h = .ok (.ok index, s')) :
    Agrees nominal redZone (⟨.push h, s.depth⟩ :: past) (plain ++ [h]) s' := by
  obtain ⟨-, -, heq⟩ | ⟨-, -, heq⟩ | ⟨hdepth, htried, heq⟩ := ha.push_eq hredZone hsum h
  · simp [hs] at heq
  · simp [hs] at heq
  · obtain ⟨rfl, rfl⟩ : index = s.depth ∧ s' = { s with slots := s.slots.push h } := by
      simpa [hs] using heq
    have hmore : ({ s with slots := s.slots.push h } : ProtectStack).depth = s.depth + 1 :=
      Array.size_push h
    refine ⟨ha.nominal_eq, ha.redZone_eq, by simp [ha.slots], ?_⟩
    cases ha.zone with
    | inl hz =>
      have hlow : s.depth < nominal :=
        Nat.lt_of_le_of_ne hz.depth fun hdeep => hz.fresh hdeep (htried hdeep)
      exact .inl ⟨hz.limit, by omega, fun _ => not_tried_of_lt _ hlow⟩
    | inr hz =>
      have hle := hz.nominal_le
      exact .inr (hz.call _ hz.limit (by omega) (by omega))

theorem Agrees.refused (ha : Agrees nominal redZone past plain s) (hredZone : 1 ≤ redZone)
    (hsum : nominal + redZone ≤ wordMax) {h : Handle} {e : HeapError}
    (hs : s.push h = .ok (.error e, s')) :
    Agrees nominal redZone (⟨.push h, s.depth⟩ :: past) plain s' := by
  obtain ⟨hdepth, -, heq⟩ | ⟨-, -, heq⟩ | ⟨-, -, heq⟩ := ha.push_eq hredZone hsum h
  · obtain ⟨-, rfl⟩ : e = .protectStackOverflow nominal ∧
        s' = { s with limit := nominal + redZone } := by
      simpa [hs] using heq
    have hsame : ({ s with limit := nominal + redZone } : ProtectStack).depth = nominal := hdepth
    exact ⟨ha.nominal_eq, ha.redZone_eq, ha.slots,
      .inr ⟨rfl, by omega, by omega, (tried_cons _).2 (.inl ⟨h, by rw [hdepth]⟩)⟩⟩
  · simp [hs] at heq
  · simp [hs] at heq

theorem Session.agrees (hnominal : 1 ≤ nominal) (hredZone : 1 ≤ redZone)
    (hsum : nominal + redZone ≤ wordMax) (hs : Session nominal redZone past plain s) :
    Agrees nominal redZone past plain s := by
  induction hs with
  | empty => exact ⟨rfl, rfl, rfl, .inl ⟨rfl, Nat.zero_le _, fun hzero => by
      rw [← hzero] at hnominal
      cases hnominal⟩⟩
  | pushed h index _ hpush ih => exact ih.pushed hredZone hsum hpush
  | refused h e _ hpush ih => exact ih.refused hredZone hsum hpush
  | @popped past plain s s' n _ hpop ih =>
    unfold pop at hpop
    split at hpop
    · cases hpop
    · obtain rfl := Except.ok.inj hpop
      rw [ih.length]
      exact ih.truncate hredZone _ (by simp) _
  | truncated depth _ ih => exact ih.truncate hredZone _ (by simp) depth
  | reprotected h index _ hset ih => exact ih.reprotect hset

/-- What the stack is and does after a session. -/
structure Guards (nominal redZone : Nat) (past : List Call) (plain : List Handle)
    (s : ProtectStack) : Prop where
  slots : s.slots.toList = plain
  depth : s.depth ≤ nominal + redZone
  inRedZone : s.inRedZone = true → nominal ≤ s.depth
  /-- A push fails if it is the first at the nominal depth. -/
  refuses : ∀ h e, (∃ s', s.push h = .ok (.error e, s')) ↔
    e = .protectStackOverflow nominal ∧ s.depth = nominal ∧ ¬ Tried nominal past
  /-- A push that answers an index has filled that slot, the next free one. -/
  fills : ∀ h index s', s.push h = .ok (.ok index, s') →
    index = s.depth ∧ s'.slots = s.slots.push h ∧ s'.slots[index]? = some h
  pushFault : ∀ h fault, s.push h = .error fault ↔
    fault = .redZoneExhausted ∧ s.depth = nominal + redZone
  popFault : ∀ n fault, s.pop n = .error fault ↔ fault = .popTooMany s.depth n ∧ s.depth < n
  reprotectFault : ∀ h index fault, s.reprotect h index = .error fault ↔
    fault = .reprotectAbove index s.depth ∧ s.depth ≤ index

/-- The stack is the plain list, the red zone is used only above the nominal depth, a push fails
exactly when it is the first to find the stack at its nominal depth since the stack was last below,
and faults come only from the calls that overstep the depth or the red zone. -/
theorem Session.overflows_once (hnominal : 1 ≤ nominal) (hredZone : 1 ≤ redZone)
    (hsum : nominal + redZone ≤ wordMax) (hs : Session nominal redZone past plain s) :
    Guards nominal redZone past plain s := by
  have ha := hs.agrees hnominal hredZone hsum
  refine ⟨ha.slots, ?_, ?_, fun h e => ?_, fun h index s' hpush => ?_, fun h fault => ?_,
    fun n fault => ?_, fun h index fault => ?_⟩
  · obtain hz | hz := ha.zone
    · exact Nat.le_trans hz.depth (Nat.le_add_right _ _)
    · exact hz.depth
  · intro hzone
    obtain hz | hz := ha.zone
    · simp [ProtectStack.inRedZone, hz.limit, ha.nominal_eq] at hzone
    · exact hz.nominal_le
  · obtain ⟨hdepth, htried, heq⟩ | ⟨hdepth, -, heq⟩ | ⟨-, htried, heq⟩ := ha.push_eq hredZone hsum h
    · simp [heq, hdepth, htried, eq_comm]
    · simp [heq]
      omega
    · simp only [heq, Except.ok.injEq, Prod.mk.injEq, reduceCtorEq, false_and, exists_false,
        false_iff, not_and]
      exact fun _ hdepth hfresh => hfresh (htried hdepth)
  · obtain ⟨-, -, heq⟩ | ⟨-, -, heq⟩ | ⟨-, -, heq⟩ := ha.push_eq hredZone hsum h
    · simp [hpush] at heq
    · simp [hpush] at heq
    · obtain ⟨rfl, rfl⟩ : index = s.depth ∧ s' = { s with slots := s.slots.push h } := by
        simpa [hpush] using heq
      exact ⟨rfl, rfl, by simp [ProtectStack.depth]⟩
  · obtain ⟨hdepth, -, heq⟩ | ⟨hdepth, -, heq⟩ | ⟨hdepth, -, heq⟩ := ha.push_eq hredZone hsum h
    · simp [heq]
      omega
    · simp [heq, hdepth, eq_comm]
    · simp [heq]
      omega
  · unfold pop
    split <;> simp_all [eq_comm]
  · unfold ProtectStack.reprotect
    split <;> simp_all [eq_comm]

/-- Two entries deep, with three more in reserve: the third push fails, the fourth fits, and after
the stack has been below its nominal depth the first push there fails again. -/
theorem Session.overflows_once_again : ∃ past plain s, Session 2 3 past plain s ∧
    past.map (·.depth) = [2, 1, 3, 2, 2, 1, 0] ∧ plain = [.nil, .unbound] ∧ s.inRedZone = true ∧
    Guards 2 3 past plain s := by
  have hempty : Session 2 3 [] [] (.empty 2 3) := .empty
  have hopen := hempty.pushed .nil 0 rfl |>.pushed .nil 1 rfl
    |>.refused .nil (.protectStackOverflow 2) rfl |>.pushed .nil 2 rfl
  have hagain := hopen.truncated 1 |>.pushed .unbound 1 rfl
    |>.refused .nil (.protectStackOverflow 2) rfl
  exact ⟨_, _, _, hagain, rfl, rfl, rfl, hagain.overflows_once (by decide) (by decide) (by decide)⟩

end ProtectStack

end ManagedHeap
