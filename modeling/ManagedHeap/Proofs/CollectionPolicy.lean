import ManagedHeap.Collector.Strategy

/-!
# How deep the next collection goes

The policy remembers three counts. A history says where they come from: it lists the levels of
the collections that were recorded, and which of them the policy chose itself. In every history
the counts agree with the list, so the policy goes deeper in time, whatever recoveries were
measured and whatever collections were asked for in between.
-/

namespace ManagedHeap

/-- A recorded collection, and whether the policy chose its level. -/
structure RecordedCollection where
  chosen : Bool
  level : Level
deriving DecidableEq, Repr

namespace RecordedCollection

/-- Collections since the last full one, or since the start. Histories list the latest first. -/
def sinceFull (past : List RecordedCollection) : Nat := (past.takeWhile (·.level ≠ .full)).length

/-- Minor collections since the last deeper one. -/
def minors (past : List RecordedCollection) : Nat := (past.takeWhile (·.level = .minor)).length

/-- Middle collections since the last full one. -/
def mids (past : List RecordedCollection) : Nat := (past.takeWhile (·.level ≠ .full)).countP (·.level = .mid)

end RecordedCollection

namespace Strategy

variable {c : Config} {past : List RecordedCollection} {s : Strategy}

/-- A policy and the collections on its record. Objects may be allocated at any time, and the
recoveries may be anything. -/
inductive History (c : Config) : List RecordedCollection → Strategy → Prop
  | new : History c [] (.ofConfig c)
  | allocated {past : List RecordedCollection} {s : Strategy} : History c past s →
      History c past s.noteAllocation
  | measured {past : List RecordedCollection} {s : Strategy} (recovery : PerGeneration Float) :
      History c past s → History c past { s with recovery }
  /-- Someone asks for a collection of some level. -/
  | asked {past : List RecordedCollection} {s : Strategy} (level : Level) (before freed : PerGeneration Nat) :
      History c past s → History c (⟨false, level⟩ :: past) (s.record level before freed)
  /-- A collection runs by itself. -/
  | chosen {past : List RecordedCollection} {s : Strategy} (before freed : PerGeneration Nat) :
      History c past s →
      History c (⟨true, s.chooseLevel⟩ :: past) (s.record s.chooseLevel before freed)

/-- The limits are those of the configuration, and the counts those of the record. -/
structure Agrees (c : Config) (past : List RecordedCollection) (s : Strategy) : Prop where
  minorLimit : s.minorLimit = c.minorLimit
  midLimit : s.midLimit = c.midLimit
  fullPeriod : s.fullPeriod = c.fullPeriod
  minorCount : s.minorCount = RecordedCollection.minors past
  midCount : s.midCount = RecordedCollection.mids past
  sinceFull : s.sinceFull = RecordedCollection.sinceFull past

@[simp]
theorem sinceCollection_record (level : Level) (before freed : PerGeneration Nat) :
    (s.record level before freed).sinceCollection = 0 := by
  cases level <;> rfl

@[simp]
theorem interval_record (level : Level) (before freed : PerGeneration Nat) :
    (s.record level before freed).interval = s.interval := by
  cases level <;> rfl

theorem Agrees.record (ha : Agrees c past s) (turn : RecordedCollection) (before freed : PerGeneration Nat) :
    Agrees c (turn :: past) (s.record turn.level before freed) := by
  obtain ⟨chosen, level⟩ := turn
  obtain ⟨hminorLimit, hmidLimit, hfullPeriod, hminor, hmid, hfull⟩ := ha
  cases level with
  | minor =>
    refine ⟨hminorLimit, hmidLimit, hfullPeriod, ?_, ?_, ?_⟩
    · simp [Strategy.record, RecordedCollection.minors, hminor]
    · simp [Strategy.record, RecordedCollection.mids, hmid]
    · simp [Strategy.record, RecordedCollection.sinceFull, hfull]
  | mid =>
    refine ⟨hminorLimit, hmidLimit, hfullPeriod, ?_, ?_, ?_⟩
    · simp [Strategy.record, RecordedCollection.minors]
    · simp [Strategy.record, RecordedCollection.mids, hmid]
    · simp [Strategy.record, RecordedCollection.sinceFull, hfull]
  | full =>
    refine ⟨hminorLimit, hmidLimit, hfullPeriod, ?_, ?_, ?_⟩
    · simp [Strategy.record, RecordedCollection.minors]
    · simp [Strategy.record, RecordedCollection.mids]
    · simp [Strategy.record, RecordedCollection.sinceFull]

theorem History.agrees (hs : History c past s) : Agrees c past s := by
  induction hs with
  | new => exact ⟨rfl, rfl, rfl, rfl, rfl, rfl⟩
  | allocated _ ih => exact ⟨ih.1, ih.2, ih.3, ih.4, ih.5, ih.6⟩
  | measured recovery _ ih => exact ⟨ih.1, ih.2, ih.3, ih.4, ih.5, ih.6⟩
  | asked level before freed _ ih => exact ih.record ⟨false, level⟩ before freed
  | @chosen past s before freed _ ih => exact ih.record ⟨true, s.chooseLevel⟩ before freed

theorem chooseLevel_of_period (hs : s.fullPeriod - 1 ≤ s.sinceFull) : s.chooseLevel = .full := by
  unfold chooseLevel
  rw [if_pos (by omega)]

theorem minorCount_lt_of_minor (hs : s.chooseLevel = .minor) : s.minorCount < s.minorLimit := by
  refine Nat.lt_of_not_le fun hover => ?_
  have hdeep : (decide (s.minorLimit ≤ s.minorCount) ||
      decide (s.recovery.young < s.minRecovery)) = true := by
    simp [hover]
  unfold chooseLevel at hs
  rw [hdeep] at hs
  split at hs
  · cases hs
  · rw [if_pos rfl] at hs
    split at hs <;> cases hs

theorem midCount_lt_of_mid (hs : s.chooseLevel = .mid) : s.midCount < s.midLimit := by
  refine Nat.lt_of_not_le fun hover => ?_
  have hdeep : (decide (s.midLimit ≤ s.midCount) ||
      decide (s.recovery.middle < s.minRecovery)) = true := by
    simp [hover]
  unfold chooseLevel at hs
  rw [hdeep] at hs
  split at hs
  · cases hs
  · split at hs
    · rw [if_pos rfl] at hs
      cases hs
    · cases hs

theorem not_expired_of_trigger {chunks live : Nat} (hs : s.trigger chunks live = none) :
    s.countdownExpired = false := by
  unfold trigger at hs
  split at hs
  · cases hs
  · split at hs
    · cases hs
    · rename_i hexpired
      exact eq_false_of_ne_true hexpired

/-- What the policy chooses next is deep enough for the record. -/
structure Suits (c : Config) (past : List RecordedCollection) (level : Level) : Prop where
  full : c.fullPeriod - 1 ≤ RecordedCollection.sinceFull past → level = .full
  minor : level = .minor → RecordedCollection.minors past < c.minorLimit
  mid : level = .mid → RecordedCollection.mids past < c.midLimit

theorem Agrees.suits (ha : Agrees c past s) : Suits c past s.chooseLevel where
  full hdue := chooseLevel_of_period (by rw [ha.fullPeriod, ha.sinceFull]; exact hdue)
  minor hminor := by
    rw [← ha.minorLimit, ← ha.minorCount]
    exact minorCount_lt_of_minor hminor
  mid hmid := by
    rw [← ha.midLimit, ← ha.midCount]
    exact midCount_lt_of_mid hmid

/-- The next level suits the record, and so did every level that the policy has chosen when it
did: it is full once the period has passed, not minor any more once the limit of minor collections
is reached, and not middle any more once that of middle ones is. -/
theorem History.escalates (hs : History c past s) : Suits c past s.chooseLevel ∧
    ∀ later turn earlier, past = later ++ turn :: earlier → turn.chosen = true →
      Suits c earlier turn.level := by
  refine ⟨hs.agrees.suits, ?_⟩
  induction hs with
  | new =>
    intro later turn earlier hpast
    simp at hpast
  | allocated _ ih => exact ih
  | measured _ _ ih => exact ih
  | asked level before freed _ ih =>
    intro later turn earlier hpast hchosen
    cases later with
    | nil =>
      obtain ⟨rfl, -⟩ := List.cons.inj hpast
      cases hchosen
    | cons last later => exact ih later turn earlier (List.cons.inj hpast).2 hchosen
  | chosen before freed hs ih =>
    intro later turn earlier hpast hchosen
    cases later with
    | nil =>
      obtain ⟨rfl, rfl⟩ := List.cons.inj hpast
      exact hs.agrees.suits
    | cons last later => exact ih later turn earlier (List.cons.inj hpast).2 hchosen

/-- Two collections that were asked for reach both limits at once, so the policy chooses a full
one; three minor ones later it is time for the next. -/
theorem History.escalates_twice : ∃ s,
    History { minorLimit := 1, midLimit := 1, fullPeriod := 4 }
      [⟨false, .minor⟩, ⟨false, .minor⟩, ⟨false, .minor⟩, ⟨true, .full⟩, ⟨false, .minor⟩,
        ⟨false, .mid⟩] s ∧ s.chooseLevel = .full ∧
      Suits { minorLimit := 1, midLimit := 1, fullPeriod := 4 } [⟨false, .minor⟩, ⟨false, .mid⟩]
        .full := by
  have hfirst : History { minorLimit := 1, midLimit := 1, fullPeriod := 4 }
      [⟨true, .full⟩, ⟨false, .minor⟩, ⟨false, .mid⟩] _ :=
    .chosen (.replicate 0) (.replicate 0) <| .asked .minor (.replicate 8) (.replicate 7) <|
      .asked .mid (.replicate 9) (.replicate 1) .new
  have hs := hfirst.asked .minor (.replicate 5) (.replicate 0)
    |>.asked .minor (.replicate 6) (.replicate 0) |>.asked .minor (.replicate 7) (.replicate 0)
  exact ⟨_, hs, hs.escalates.1.full (by decide),
    hs.escalates.2 [_, _, _] ⟨true, .full⟩ [_, _] rfl rfl⟩

end Strategy

end ManagedHeap
