import ManagedHeap.Proofs.Marking

/-!
# Weak records during a marking

The values and finalizers of records with a live key are marked in passes until a
pass changes nothing. What is marked then is the least set that contains the
starting points, is closed under followed edges, and holds the value and the
finalizer of every record in it that is not ready and whose key is alive. The
records with other keys become ready.
-/

namespace ManagedHeap

def Cell.unready (c : Cell) : Cell := c.mapFlags fun fs => { fs with readyToFinalize := false }

namespace Arena

variable {a b : Arena} {s : Scan} {h r : Handle} {f : WeakFields}

/-- A live weak record with these slots. -/
def Record (a : Arena) (r : Handle) (f : WeakFields) : Prop :=
  ∃ c, a.get? r = some c ∧ c.payload = .weakRef f.key f.value f.finalizer f.next

def Alive (s : Scan) (a : Arena) (h : Handle) : Prop := a.Marks h ∨ Spared s a h

theorem weakFields_eq_ok : a.weakFields r = .ok f ↔ a.Record r f := by
  simp only [weakFields, except_bind, get_eq_ok, Record]
  constructor
  · rintro ⟨c, hc, hf⟩
    refine ⟨c, hc, ?_⟩
    split at hf
    · rename_i hpayload
      simp only [pure, Except.pure, Except.ok.injEq] at hf
      rw [hpayload, ← hf]
    · exact nomatch hf
  · rintro ⟨c, hc, hpayload⟩
    exact ⟨c, hc, by rw [hpayload]; rfl⟩

theorem Record.unique {g : WeakFields} (hf : a.Record r f) (hg : a.Record r g) : f = g := by
  have hok := weakFields_eq_ok.mpr hf
  rw [weakFields_eq_ok.mpr hg, Except.ok.injEq] at hok
  exact hok.symm

theorem SameBut.record (hab : Alike a b) (hr : a.Record r f) : b.Record r f := by
  obtain ⟨c, hc, hpayload⟩ := hr
  obtain ⟨d, hd, hdc⟩ := hab.core hc
  exact ⟨d, hd, (Cell.payload_of_core hdc).trans hpayload⟩

def readyAt (a : Arena) (h : Handle) : Bool :=
  match a.get? h with
  | some c => c.flags.readyToFinalize
  | none => false

theorem readyAt_iff : a.readyAt h = true ↔ a.Ready h := by
  unfold readyAt Ready
  cases a.get? h with
  | none => simp
  | some c => simp

def readies (a : Arena) : Nat := a.positions.countP a.readyAt

theorem readies_congr (hs : b.shape = a.shape) (hr : ∀ h, b.Ready h ↔ a.Ready h) :
    b.readies = a.readies := by
  rw [readies, readies, positions_of_shape hs]
  refine List.countP_congr ?_
  intro h _
  rw [readyAt_iff, readyAt_iff, hr]

theorem SameBut.alike_of_unready (hab : SameBut Cell.unready a b) : Alike a b := by
  refine ⟨hab.books, ?_⟩
  intro h
  have hcell := congrArg (Option.map Cell.core) (hab.cells h)
  rw [Option.map_map, Option.map_map] at hcell
  exact hcell

theorem SameBut.marks_of_unready (hab : SameBut Cell.unready a b) : b.Marks h ↔ a.Marks h := by
  have hforth : ∀ {a b : Arena}, SameBut Cell.unready a b → a.Marks h → b.Marks h := by
    rintro a b hab ⟨c, hc, hmarked⟩
    obtain ⟨d, hd, hdc⟩ := hab.get? (fun _ => rfl) hc
    have hsame : d.flags.marked = c.flags.marked :=
      (congrArg (fun c : Cell => c.header.flags.marked) hdc :)
    exact ⟨d, hd, hsame.trans hmarked⟩
  exact ⟨hforth hab.symm, hforth hab⟩

theorem recordsFrom_congr (hab : ∀ {r f}, a.Record r f → b.Record r f) (fuel : Nat)
    (cursor : Handle) (rs : List Handle) (hrs : a.recordsFrom cursor fuel = .ok rs) :
    b.recordsFrom cursor fuel = .ok rs := by
  induction fuel generalizing cursor rs with
  | zero => exact hrs
  | succ fuel ih =>
    unfold recordsFrom at hrs ⊢
    split at hrs
    · rename_i hnil
      rw [if_pos hnil]
      exact hrs
    · rename_i hnil
      rw [if_neg hnil]
      simp only [except_bind, weakFields_eq_ok, pure, Except.pure, Except.ok.injEq] at hrs ⊢
      obtain ⟨f, hf, tail, htail, rfl⟩ := hrs
      exact ⟨f, hab hf, tail, ih f.next tail htail, rfl⟩

theorem weakRecords_congr {chain : WeakChain} {rs : List Handle}
    (hab : ∀ {r f}, a.Record r f → b.Record r f) (hrs : a.weakRecords chain = .ok rs) :
    b.weakRecords chain = .ok rs := by
  simp only [weakRecords, except_bind] at hrs ⊢
  obtain ⟨records, hrecords, hrs⟩ := hrs
  exact ⟨records, recordsFrom_congr hab _ _ _ hrecords, hrs⟩

end Arena

namespace MarkM

open Arena

variable {s : Scan} {m m' : Marking} {h r : Handle}

theorem run_weakFields {f : WeakFields} :
    (weakFields r).run m = .ok (f, m') ↔ m.arena.Record r f ∧ m = m' := by
  simp only [weakFields, run_bind, run_get, run_lift, weakFields_eq_ok]
  constructor
  · rintro ⟨_, _, ⟨rfl, rfl⟩, hf⟩
    exact hf
  · intro hf
    exact ⟨m, m, ⟨rfl, rfl⟩, hf⟩

theorem run_isMarked {b : Bool} (hrun : (isMarked s h).run m = .ok (b, m')) :
    m = m' ∧ (b = true ↔ m.arena.Alive s h) := by
  simp only [isMarked, run_bind, run_cell, run_pure] at hrun
  obtain ⟨c, _, ⟨hc, rfl⟩, rfl, rfl⟩ := hrun
  refine ⟨rfl, ?_⟩
  rw [Bool.or_eq_true, Alive, Marks, Spared]
  simp only [hc, Option.some.injEq, exists_eq_left']
  rfl

theorem run_ready {c : Cell} (hc : m.arena.get? r = some c) :
    c.flags.readyToFinalize = true ↔ m.arena.Ready r := by
  simp only [Ready, hc, Option.some.injEq, exists_eq_left']

def keepValue (s : Scan) (r : Handle) : MarkM Bool := do
  if (← cell r).flags.readyToFinalize then return false
  else
    let fields ← weakFields r
    if ← isMarked s fields.key then
      let value ← mark s fields.value
      let finalizer ← mark s fields.finalizer
      return value || finalizer
    else return false

theorem keepValues_cons (s : Scan) (r : Handle) (rs : List Handle) :
    keepValues s (r :: rs) = (do
      let changed ← keepValue s r
      let later ← keepValues s rs
      return changed || later) := by
  simp only [keepValues, keepValue, bind_assoc]
  refine bind_congr fun c => ?_
  split
  · rfl
  · simp only [bind_assoc]
    refine bind_congr fun fields => bind_congr fun alive => ?_
    split <;> simp only [bind_assoc]

def flagRecord (s : Scan) (r : Handle) : MarkM Nat := do
  let fields ← weakFields r
  if (← cell r).flags.readyToFinalize then return 0
  else if ← isMarked s fields.key then return 0
  else
    updateCell r (Cell.mapFlags fun fs => { fs with readyToFinalize := true })
    return 1

theorem flagReady_cons (s : Scan) (r : Handle) (rs : List Handle) :
    flagReady s (r :: rs) = (do
      let flagged ← flagRecord s r
      return flagged + (← flagReady s rs)) := by
  simp only [flagReady, flagRecord, bind_assoc]
  refine bind_congr fun fields => bind_congr fun c => ?_
  split
  · rfl
  · simp only [bind_assoc]
    refine bind_congr fun alive => ?_
    split <;> simp only [bind_assoc]

theorem run_drain_nil {u : PUnit} (hempty : m.worklist = [])
    (hrun : (drain s).run m = .ok (u, m')) : m' = m := by
  simp only [drain, run_bind, run_get] at hrun
  obtain ⟨_, _, ⟨rfl, rfl⟩, hrun⟩ := hrun
  cases hfuel : m.worklist.length + m.arena.capacity with
  | zero =>
    rw [hfuel] at hrun
    simp only [drainWithin, run_bind, run_get] at hrun
    obtain ⟨_, _, ⟨rfl, rfl⟩, hrun⟩ := hrun
    rw [hempty] at hrun
    exact (run_pure.mp hrun).2.symm
  | succ fuel =>
    rw [hfuel] at hrun
    simp only [drainWithin, run_bind, run_get] at hrun
    obtain ⟨_, _, ⟨rfl, rfl⟩, hrun⟩ := hrun
    rw [hempty] at hrun
    exact (run_pure.mp hrun).2.symm

end MarkM

/-- A set that holds the value and the finalizer of every record that is not ready and
whose key is in it or needs no mark. -/
def Scan.Keeps (s : Scan) (a : Arena) (records : List Handle) (K : Handle → Prop) : Prop :=
  ∀ {r f k}, r ∈ records → a.Record r f → ¬ a.Ready r → (K f.key ∨ a.Spared s f.key) →
    (k = f.value ∨ k = f.finalizer) → a.Covered s k → K k

namespace Marking.Traces

open Arena MarkM

variable {s : Scan} {a : Arena} {K pending : Handle → Prop} {m m' : Marking} {h : Handle}

theorem keepValue {r : Handle} {changed : Bool} (ht : m.Traces s a K pending)
    (hready : m.arena.Ready r ↔ a.Ready r)
    (hK : ∀ {f k}, a.Record r f → ¬ a.Ready r → (K f.key ∨ a.Spared s f.key) →
      (k = f.value ∨ k = f.finalizer) → a.Covered s k → K k)
    (hrun : (MarkM.keepValue s r).run m = .ok (changed, m')) :
    m'.Traces s a K pending ∧ m.Grows m' ∧
      (changed = false → m' = m ∧ ∀ {f}, a.Record r f → ¬ a.Ready r → m.arena.Alive s f.key →
        m.arena.Settled s f.value ∧ m.arena.Settled s f.finalizer) := by
  simp only [MarkM.keepValue, run_bind, run_cell] at hrun
  obtain ⟨c, _, ⟨hc, rfl⟩, hrun⟩ := hrun
  split at hrun
  · rename_i hflag
    obtain ⟨rfl, rfl⟩ := run_pure.mp hrun
    exact ⟨ht, .refl _, fun _ => ⟨rfl, fun _ hnot =>
      absurd (hready.mp ((run_ready hc).mp hflag)) hnot⟩⟩
  · rename_i hflag
    simp only [run_bind, run_weakFields] at hrun
    obtain ⟨f, _, ⟨hf, rfl⟩, alive, _, htest, hrun⟩ := hrun
    obtain ⟨rfl, halive⟩ := run_isMarked htest
    have hf₀ := ht.alike.symm.record hf
    have hnot : ¬ a.Ready r := fun hr => hflag ((run_ready hc).mpr (hready.mpr hr))
    split at hrun
    · rename_i hkey
      have hkeyAlive := halive.mp hkey
      have hkeyK : K f.key ∨ a.Spared s f.key := by
        rcases hkeyAlive with hmarks | hspared
        · exact .inl (ht.within hmarks).1
        · exact .inr (ht.alike.symm.spared hspared)
      simp only [run_bind, run_pure] at hrun
      obtain ⟨b₁, mid, hvalue, b₂, last, hfinalizer, rfl, rfl⟩ := hrun
      obtain ⟨ht₁, hs₁, hg₁⟩ := ht.mark (hK hf₀ hnot hkeyK (.inl rfl)) hvalue
      obtain ⟨ht₂, hs₂, hg₂⟩ := ht₁.mark (hK hf₀ hnot hkeyK (.inr rfl)) hfinalizer
      refine ⟨ht₂, hg₁.trans hg₂, ?_⟩
      intro hchanged
      obtain ⟨rfl, rfl⟩ := Bool.or_eq_false_iff.mp hchanged
      have hmid : mid = m := by
        rcases run_mark hvalue with ⟨-, hsame, -⟩ | ⟨habs, -⟩
        · exact hsame
        · exact nomatch habs
      have hlast : last = mid := by
        rcases run_mark hfinalizer with ⟨-, hsame, -⟩ | ⟨habs, -⟩
        · exact hsame
        · exact nomatch habs
      refine ⟨hlast.trans hmid, ?_⟩
      intro g hg _ _
      obtain rfl := hf₀.unique hg
      rw [hlast.trans hmid] at hs₂
      rw [hmid] at hs₁
      exact ⟨hs₁, hs₂⟩
    · rename_i hkey
      obtain ⟨rfl, rfl⟩ := run_pure.mp hrun
      refine ⟨ht, .refl _, fun _ => ⟨rfl, ?_⟩⟩
      intro g hg _ hgAlive
      obtain rfl := hf₀.unique hg
      exact absurd (halive.mpr hgAlive) hkey

theorem keepValues {records : List Handle} {changed : Bool} (ht : m.Traces s a K pending)
    (hready : ∀ {r}, m.arena.Ready r ↔ a.Ready r) (hK : s.Keeps a records K)
    (hrun : (MarkM.keepValues s records).run m = .ok (changed, m')) :
    m'.Traces s a K pending ∧ m.Grows m' ∧
      (changed = false → m' = m ∧ ∀ {r f}, r ∈ records → a.Record r f → ¬ a.Ready r →
        m.arena.Alive s f.key → m.arena.Settled s f.value ∧ m.arena.Settled s f.finalizer) := by
  induction records generalizing m changed with
  | nil =>
    obtain ⟨-, rfl⟩ := run_pure.mp hrun
    exact ⟨ht, .refl _, fun _ => ⟨rfl, nofun⟩⟩
  | cons r rs ih =>
    simp only [keepValues_cons, run_bind, run_pure] at hrun
    obtain ⟨first, mid, hfirst, later, _, hlater, rfl, rfl⟩ := hrun
    obtain ⟨ht₁, hg₁, hdone₁⟩ := ht.keepValue hready
      (fun hf hnot => hK List.mem_cons_self hf hnot) hfirst
    obtain ⟨ht₂, hg₂, hdone₂⟩ := ih ht₁ (fun {k} => (hg₁.ready (h := k)).trans hready)
      (fun hmem => hK (List.mem_cons_of_mem _ hmem)) hlater
    refine ⟨ht₂, hg₁.trans hg₂, ?_⟩
    intro hchanged
    obtain ⟨rfl, rfl⟩ := Bool.or_eq_false_iff.mp hchanged
    obtain ⟨rfl, hone⟩ := hdone₁ rfl
    obtain ⟨rfl, hrest⟩ := hdone₂ rfl
    refine ⟨rfl, ?_⟩
    intro x f hx hf hnot halive
    rcases List.mem_cons.mp hx with rfl | hx
    · exact hone hf hnot halive
    · exact hrest hx hf hnot halive

theorem settleValues {u : PUnit} {records : List Handle} {passes : Nat}
    (ht : m.Traces s a K fun _ => False) (hempty : m.worklist = [])
    (hready : ∀ {r}, m.arena.Ready r ↔ a.Ready r) (hfollows : s.Follows a K)
    (hK : s.Keeps a records K)
    (hrun : (MarkM.settleValues s records passes).run m = .ok (u, m')) :
    m'.Traces s a K (fun _ => False) ∧ m'.worklist = [] ∧ m.Grows m' ∧
      ∀ {r f}, r ∈ records → a.Record r f → ¬ a.Ready r → m'.arena.Alive s f.key →
        m'.arena.Settled s f.value ∧ m'.arena.Settled s f.finalizer := by
  induction passes generalizing m with
  | zero =>
    rw [MarkM.settleValues, run_throw] at hrun
    exact hrun.elim
  | succ passes ih =>
    simp only [MarkM.settleValues, run_bind] at hrun
    obtain ⟨changed, mid, hpass, _, m₁, hdrain, hrun⟩ := hrun
    obtain ⟨ht₁, hg₁, hdone⟩ := ht.keepValues hready hK hpass
    obtain ⟨ht₂, hempty₂, hg₂⟩ := ht₁.drain hfollows hdrain
    split at hrun
    · obtain ⟨ht₃, hempty₃, hg₃, hsettled⟩ := ih ht₂ hempty₂
        (fun {k} => (hg₂.ready (h := k)).trans (hg₁.ready.trans hready)) hrun
      exact ⟨ht₃, hempty₃, hg₁.trans (hg₂.trans hg₃), hsettled⟩
    · rename_i hchanged
      obtain ⟨-, rfl⟩ := run_pure.mp hrun
      obtain ⟨rfl, hsettled⟩ := hdone (by simpa using hchanged)
      obtain rfl := run_drain_nil hempty hdrain
      exact ⟨ht₂, hempty, .refl _, hsettled⟩

theorem flagRecord {r : Handle} {n : Nat} (htidy : m.arena.Tidy)
    (hrun : (MarkM.flagRecord s r).run m = .ok (n, m')) :
    Arena.SameBut Cell.unready m.arena m'.arena ∧ m'.worklist = m.worklist ∧
      m'.marked = m.marked ∧ m'.arena.readies = m.arena.readies + n ∧
      ∀ {h}, m'.arena.Ready h ↔ m.arena.Ready h ∨
        (h = r ∧ ∃ f, m.arena.Record h f ∧ ¬ m.arena.Alive s f.key) := by
  simp only [MarkM.flagRecord, run_bind, run_weakFields, run_cell] at hrun
  obtain ⟨f, _, ⟨hf, rfl⟩, c, _, ⟨hc, rfl⟩, hrun⟩ := hrun
  split at hrun
  · rename_i hflag
    obtain ⟨rfl, rfl⟩ := run_pure.mp hrun
    refine ⟨.refl _ _, rfl, rfl, rfl, ?_⟩
    intro h
    refine ⟨.inl, ?_⟩
    rintro (hr | ⟨rfl, -⟩)
    · exact hr
    · exact (run_ready hc).mp hflag
  · rename_i hflag
    simp only [run_bind] at hrun
    obtain ⟨alive, _, htest, hrun⟩ := hrun
    obtain ⟨rfl, halive⟩ := run_isMarked htest
    split at hrun
    · rename_i hkey
      obtain ⟨rfl, rfl⟩ := run_pure.mp hrun
      refine ⟨.refl _ _, rfl, rfl, rfl, ?_⟩
      intro h
      refine ⟨.inl, ?_⟩
      rintro (hr | ⟨rfl, g, hg, hdead⟩)
      · exact hr
      · obtain rfl := hf.unique hg
        exact absurd (halive.mp hkey) hdead
    · rename_i hkey
      simp only [run_bind, run_updateCell, run_pure] at hrun
      obtain ⟨_, _, ⟨-, rfl⟩, rfl, rfl⟩ := hrun
      let flag : Cell → Cell := Cell.mapFlags fun fs => { fs with readyToFinalize := true }
      have hlive := (get?_eq_some.mp hc).2
      have hself : (m.arena.setCell r flag).get? r = some (flag c) := get?_setCell_self hc hlive
      have hsame : Arena.SameBut Cell.unready m.arena (m.arena.setCell r flag) := .setCell hc rfl
      have hready : ∀ {h}, (m.arena.setCell r flag).Ready h ↔ h = r ∨ m.arena.Ready h := by
        intro h
        unfold Ready
        by_cases hr : h = r
        · subst hr
          rw [hself]
          exact iff_of_true ⟨_, rfl, rfl⟩ (.inl rfl)
        · rw [get?_setCell_ne hr]
          simp only [hr, false_or]
      refine ⟨hsame, rfl, rfl, ?_, ?_⟩
      · rw [readies, readies, positions_of_shape hsame.shape]
        refine countP_add_one (positions_nodup htidy)
          ((mem_positions htidy).mpr ⟨c, (get?_eq_some.mp hc).1⟩) ?_ ?_
        · rw [Bool.eq_false_iff, ne_eq, readyAt_iff, ← run_ready hc]
          exact hflag
        · intro k
          rw [Bool.eq_iff_iff, readyAt_iff, hready, Bool.or_eq_true, readyAt_iff, beq_iff_eq]
      · intro h
        rw [hready, or_comm]
        refine or_congr_right ⟨?_, And.left⟩
        rintro rfl
        exact ⟨rfl, f, hf, fun ha => hkey (halive.mpr ha)⟩

theorem flagReady {records : List Handle} {n : Nat} (htidy : m.arena.Tidy)
    (hrun : (MarkM.flagReady s records).run m = .ok (n, m')) :
    Arena.SameBut Cell.unready m.arena m'.arena ∧ m'.worklist = m.worklist ∧
      m'.marked = m.marked ∧ m'.arena.readies = m.arena.readies + n ∧
      ∀ {h}, m'.arena.Ready h ↔ m.arena.Ready h ∨
        (h ∈ records ∧ ∃ f, m.arena.Record h f ∧ ¬ m.arena.Alive s f.key) := by
  induction records generalizing m n with
  | nil =>
    obtain ⟨rfl, rfl⟩ := run_pure.mp hrun
    exact ⟨.refl _ _, rfl, rfl, rfl, by simp⟩
  | cons r rs ih =>
    simp only [flagReady_cons, run_bind, run_pure] at hrun
    obtain ⟨n₁, mid, hfirst, n₂, _, hrest, rfl, rfl⟩ := hrun
    obtain ⟨hsame₁, hwork₁, hcount₁, hnew₁, hready₁⟩ := flagRecord htidy hfirst
    obtain ⟨hsame₂, hwork₂, hcount₂, hnew₂, hready₂⟩ := ih (hsame₁.tidy (fun _ => rfl) htidy) hrest
    refine ⟨hsame₁.trans hsame₂, hwork₂.trans hwork₁, hcount₂.trans hcount₁, ?_, ?_⟩
    · rw [hnew₂, hnew₁]
      omega
    · have halike := hsame₁.alike_of_unready
      have halive : ∀ {k}, mid.arena.Alive s k ↔ m.arena.Alive s k := by
        intro k
        exact or_congr hsame₁.marks_of_unready ⟨halike.symm.spared, halike.spared⟩
      have hdead : ∀ {h}, (∃ f, mid.arena.Record h f ∧ ¬ mid.arena.Alive s f.key) ↔
          ∃ f, m.arena.Record h f ∧ ¬ m.arena.Alive s f.key := by
        intro h
        exact exists_congr fun f =>
          and_congr ⟨halike.symm.record, halike.record⟩ (not_congr halive)
      intro h
      rw [hready₂, hready₁, hdead, List.mem_cons, or_assoc, or_and_right]

theorem keepReady {u : PUnit} {records : List Handle} (ht : m.Traces s a K pending)
    (hK : ∀ {r f k}, r ∈ records → m.arena.Ready r → a.Record r f →
      k ∈ [f.key, f.value, f.finalizer] → a.Covered s k → K k)
    (hrun : (MarkM.keepReady s records).run m = .ok (u, m')) :
    m'.Traces s a K pending ∧ m.Grows m' ∧
      ∀ {r f k}, r ∈ records → m.arena.Ready r → a.Record r f →
        k ∈ [f.key, f.value, f.finalizer] → m'.arena.Settled s k := by
  induction records generalizing m with
  | nil =>
    obtain ⟨-, rfl⟩ := run_pure.mp hrun
    exact ⟨ht, .refl _, nofun⟩
  | cons r rs ih =>
    simp only [MarkM.keepReady, run_bind, run_cell] at hrun
    obtain ⟨c, _, ⟨hc, rfl⟩, hrun⟩ := hrun
    have hone : ∃ mid, mid.Traces s a K pending ∧ m.Grows mid ∧
        (m.arena.Ready r → ∀ {f k}, a.Record r f → k ∈ [f.key, f.value, f.finalizer] →
          mid.arena.Settled s k) ∧
        (MarkM.keepReady s rs).run mid = .ok (u, m') := by
      split at hrun
      · rename_i hflag
        simp only [run_bind, run_weakFields] at hrun
        obtain ⟨f, _, ⟨hf, rfl⟩, _, mid, hmark, hrun⟩ := hrun
        have hf₀ := ht.alike.symm.record hf
        obtain ⟨ht₁, hsettled, hg₁⟩ := ht.markAll
          (fun k hk => hK List.mem_cons_self ((run_ready hc).mp hflag) hf₀ hk) hmark
        refine ⟨mid, ht₁, hg₁, ?_, hrun⟩
        intro _ g k hg hk
        obtain rfl := hf₀.unique hg
        exact hsettled k hk
      · rename_i hflag
        exact ⟨m, ht, .refl _, fun hr => absurd ((run_ready hc).mpr hr) hflag, hrun⟩
    obtain ⟨mid, ht₁, hg₁, hsettled, hrun⟩ := hone
    obtain ⟨ht₂, hg₂, hrest⟩ := ih ht₁
      (fun hmem hr => hK (List.mem_cons_of_mem _ hmem) (hg₁.ready.mp hr)) hrun
    refine ⟨ht₂, hg₁.trans hg₂, ?_⟩
    intro x f k hx hr hf hk
    rcases List.mem_cons.mp hx with rfl | hx
    · exact hg₂.settled (hsettled hr hf hk)
    · exact hrest hx (hg₁.ready.mpr hr) hf hk

theorem start (htidy : a.Tidy) (hunmarked : ∀ {h}, ¬ a.Marks h) :
    ({ arena := a } : Marking).Traces s a K pending := by
  refine ⟨htidy, .refl _ _, ?_, fun hm => absurd hm hunmarked, nofun,
    fun hm => absurd hm hunmarked⟩
  refine (List.countP_eq_zero.mpr ?_).symm
  intro h _ hm
  exact hunmarked (markedAt_iff.mp hm)

end Marking.Traces

/-- Where a marking starts: the roots, what tasks hold, the records of the chain, and what
the remembered objects that are not covered have edges to. -/
def Scan.Seed (s : Scan) (a : Arena) (roots remembered held records : List Handle)
    (h : Handle) : Prop :=
  h ∈ roots ∨ h ∈ held ∨ h ∈ records ∨
    ∃ r ∈ remembered, ∃ c, a.get? r = some c ∧
      s.level.covers c.header.generation = false ∧ h ∈ c.edges s.withNames

/-- The least set of covered objects that contains the starting points, is closed under
followed edges, and holds the value and the finalizer of every record that is not ready and
whose key is in it or needs no mark. -/
inductive Retained (s : Scan) (a : Arena) (seed : Handle → Prop) (records : List Handle) :
    Handle → Prop
  | seed {h : Handle} : seed h → a.Covered s h → Retained s a seed records h
  | edge {h k : Handle} {c : Cell} : Retained s a seed records h → a.get? h = some c →
      k ∈ c.edges s.withNames → a.Covered s k → Retained s a seed records k
  | value {r k : Handle} {f : WeakFields} : r ∈ records → a.Record r f → ¬ a.Ready r →
      Retained s a seed records f.key → (k = f.value ∨ k = f.finalizer) → a.Covered s k →
      Retained s a seed records k
  | spared {r k : Handle} {f : WeakFields} : r ∈ records → a.Record r f → ¬ a.Ready r →
      a.Spared s f.key → (k = f.value ∨ k = f.finalizer) → a.Covered s k →
      Retained s a seed records k

def ReadyAfter (s : Scan) (a : Arena) (seed : Handle → Prop) (records : List Handle)
    (r : Handle) : Prop :=
  a.Ready r ∨ ∃ f, a.Record r f ∧ ¬ (Retained s a seed records f.key ∨ a.Spared s f.key)

/-- What is marked in the end: what is retained, and what can be reached from the fields of
the records that are ready. -/
inductive Lingering (s : Scan) (a : Arena) (seed : Handle → Prop) (records : List Handle) :
    Handle → Prop
  | retained {h : Handle} : Retained s a seed records h → Lingering s a seed records h
  | field {r k : Handle} {f : WeakFields} : r ∈ records → ReadyAfter s a seed records r →
      a.Record r f → k ∈ [f.key, f.value, f.finalizer] → a.Covered s k →
      Lingering s a seed records k
  | edge {h k : Handle} {c : Cell} : Lingering s a seed records h → a.get? h = some c →
      k ∈ c.edges s.withNames → a.Covered s k → Lingering s a seed records k

namespace Retained

variable {s : Scan} {a : Arena} {seed : Handle → Prop} {records : List Handle}

theorem follows : s.Follows a (Retained s a seed records) :=
  fun hh hc hk hcovered => .edge hh hc hk hcovered

theorem keeps : s.Keeps a records (Retained s a seed records) := by
  intro r f k hr hf hnot hkey hk hcovered
  rcases hkey with hkey | hkey
  · exact .value hr hf hnot hkey hk hcovered
  · exact .spared hr hf hnot hkey hk hcovered

end Retained

namespace MarkM

open Arena

variable {s : Scan} {a : Arena} {m : Marking}

/-- The end of a marking, once it is settled which keys are alive. -/
def finish (s : Scan) (records : List Handle) : MarkM Nat := do
  let ready ← flagReady s records
  keepReady s records
  drain s
  return ready

/-- The moment of a marking at which it is settled which keys are alive: just what is
retained is marked. -/
structure Decided (s : Scan) (a : Arena) (seed : Handle → Prop) (tasks : Tasks)
    (records : List Handle) (m : Marking) : Prop where
  traces : m.Traces s a (Retained s a seed records) fun _ => False
  empty : m.worklist = []
  marks : ∀ {h}, m.arena.Marks h ↔ Retained s a seed records h
  ready : ∀ {h}, m.arena.Ready h ↔ a.Ready h
  task : ∀ {h c d}, a.get? h = some c → m.arena.get? h = some d →
    d.flags.task = Marking.Traces.taskFlags tasks tasks.held h c.flags
  values : ∀ {r f}, r ∈ records → a.Record r f → ¬ a.Ready r → m.arena.Alive s f.key →
    m.arena.Settled s f.value ∧ m.arena.Settled s f.finalizer

theorem marks_of_settled {h : Handle} {K pending : Handle → Prop}
    (ht : m.Traces s a K pending) (hs : m.arena.Settled s h) (hc : a.Covered s h) :
    m.arena.Marks h := by
  rcases hs with rfl | hmarks | hspared
  · obtain ⟨c, hc, -⟩ := hc
    exact absurd rfl (ht.tidy.not_noObject (get?_eq_some.mp hc).1)
  · exact hmarks
  · exact absurd hc (not_covered_of_spared (ht.alike.symm.spared hspared))

theorem run_decided {roots remembered : List Handle} {tasks : Tasks} {chain : WeakChain} {n : Nat}
    (htidy : a.Tidy) (hunmarked : ∀ {h}, ¬ a.Marks h)
    (hrun : (do markRoots s roots remembered
                markTasks s tasks
                resolveWeak s chain : MarkM Nat).run { arena := a } = .ok (n, m)) :
    ∃ records mid, a.weakRecords chain = .ok records ∧
      Decided s a (s.Seed a roots remembered tasks.held records) tasks records mid ∧
      (finish s records).run mid = .ok (n, m) ∧ ∀ h ∈ roots, mid.arena.Settled s h := by
  simp only [markRoots, markTasks, resolveWeak, run_bind, run_get, run_lift] at hrun
  obtain ⟨_, m₄, ⟨_, m₁, hroots, _, m₂, hdrain₁, _, m₃, hremembered, hdrain₂⟩,
    _, m₆, ⟨_, m₅, hheld, hdrain₃⟩, _, _, ⟨rfl, rfl⟩, records, _, ⟨hrecords, rfl⟩,
    _, m₇, hmark, _, m₈, hdrain₄, _, mid, hsettle, hfinish⟩ := hrun
  refine ⟨records, mid, ?_⟩
  let seed := s.Seed a roots remembered tasks.held records
  have hfollows : s.Follows a (Retained s a seed records) := Retained.follows
  have ht₀ : ({ arena := a } : Marking).Traces s a (Retained s a seed records) fun _ => False :=
    .start htidy hunmarked
  obtain ⟨ht₁, hs₁, hg₁⟩ := ht₀.markAll (fun h hh => .seed (.inl hh)) hroots
  obtain ⟨ht₂, -, hg₂⟩ := ht₁.drain hfollows hdrain₁
  obtain ⟨ht₃, hs₃, hg₃⟩ := ht₂.markRemembered
    (fun r hr c k hc hout hk => .seed (.inr (.inr (.inr ⟨r, hr, c, hc, hout, hk⟩)))) hremembered
  obtain ⟨ht₄, -, hg₄⟩ := ht₃.drain hfollows hdrain₂
  obtain ⟨ht₅, hs₅, hg₅, htask⟩ := ht₄.markHeld (fun h hh => .seed (.inr (.inl hh))) hheld
  obtain ⟨ht₆, -, hg₆⟩ := ht₅.drain hfollows hdrain₃
  obtain ⟨ht₇, hs₇, hg₇⟩ := ht₆.markAll (fun h hh => .seed (.inr (.inr (.inl hh)))) hmark
  obtain ⟨ht₈, hempty₈, hg₈⟩ := ht₇.drain hfollows hdrain₄
  have hg₀₄ := hg₁.trans (hg₂.trans (hg₃.trans hg₄))
  have hg₀₈ := hg₀₄.spreads.trans (hg₅.trans (hg₆.trans (hg₇.trans hg₈)).spreads)
  obtain ⟨ht₉, hempty, hg₉, hvalues⟩ := ht₈.settleValues hempty₈ hg₀₈.ready hfollows
    Retained.keeps hsettle
  have hg := hg₀₈.trans hg₉.spreads
  have hg₅₉ := hg₆.trans (hg₇.trans (hg₈.trans hg₉))
  have hg₁₉ := (hg₂.trans (hg₃.trans hg₄)).spreads.trans (hg₅.trans hg₅₉.spreads)
  have hg₃₉ := hg₄.spreads.trans (hg₅.trans hg₅₉.spreads)
  -- every starting point has been settled
  have hseed : ∀ {h}, seed h → a.Covered s h → mid.arena.Settled s h := by
    rintro h (hroot | hheld | hrecord | ⟨r, hr, c, hc, hout, hedge⟩) ⟨d, hd, -⟩
    · exact hg₁₉.settled (hs₁ h hroot)
    · exact hg₅₉.settled (hs₅ h hheld ⟨d, hd⟩)
    · exact (hg₈.trans hg₉).settled (hs₇ h hrecord)
    · exact hg₃₉.settled (hs₃ r hr hc hout hedge)
  refine ⟨weakRecords_congr (fun hr => ht₆.alike.symm.record hr) hrecords, ⟨ht₉, hempty, ?_, hg.ready, ?_, hvalues⟩, ?_,
    fun h hh => hg₁₉.settled (hs₁ h hh)⟩
  · intro h
    refine ⟨fun hm => (ht₉.within hm).1, ?_⟩
    intro hr
    induction hr with
    | seed hstart hcovered => exact marks_of_settled ht₉ (hseed hstart hcovered) hcovered
    | edge _ hc hk hcovered ih =>
      refine marks_of_settled ht₉ (ht₉.followed ih ?_ id hc hk) hcovered
      rw [hempty]
      exact List.not_mem_nil
    | value hmem hf hnot _ hk hcovered ih =>
      obtain ⟨hvalue, hfinalizer⟩ := hvalues hmem hf hnot (.inl ih)
      rcases hk with rfl | rfl
      · exact marks_of_settled ht₉ hvalue hcovered
      · exact marks_of_settled ht₉ hfinalizer hcovered
    | spared hmem hf hnot hkey hk hcovered =>
      obtain ⟨hvalue, hfinalizer⟩ := hvalues hmem hf hnot (.inr (ht₉.alike.spared hkey))
      rcases hk with rfl | rfl
      · exact marks_of_settled ht₉ hvalue hcovered
      · exact marks_of_settled ht₉ hfinalizer hcovered
  · intro h c d hc hd
    obtain ⟨c₄, hc₄, hsame₄⟩ := hg₀₄.same.get? (fun _ => rfl) hc
    obtain ⟨c₅, hc₅, hsame₅⟩ := hg₅₉.same.symm.get? (fun _ => rfl) hd
    have htask₄ : c₄.flags.task = c.flags.task :=
      (congrArg (fun c : Cell => c.header.flags.task) hsame₄ :)
    have htask₅ : c₅.flags.task = d.flags.task :=
      (congrArg (fun c : Cell => c.header.flags.task) hsame₅ :)
    rw [← htask₅, htask hc₄ hc₅, Marking.Traces.taskFlags, Marking.Traces.taskFlags, htask₄]
  · simp only [finish, run_bind]
    exact hfinish

/-- The end of a marking: just what lingers is marked, and just the records with dead keys
have become ready. -/
structure Finished (s : Scan) (a : Arena) (seed : Handle → Prop) (tasks : Tasks)
    (records : List Handle) (n : Nat) (m : Marking) : Prop where
  alike : Alike a m.arena
  counted : m.marked = a.positions.countP m.arena.markedAt
  newly : m.arena.readies = a.readies + n
  marks : ∀ {h}, m.arena.Marks h ↔ Lingering s a seed records h
  ready : ∀ {h}, m.arena.Ready h ↔
    a.Ready h ∨ (h ∈ records ∧ ReadyAfter s a seed records h)
  task : ∀ {h c d}, a.get? h = some c → m.arena.get? h = some d →
    d.flags.task = Marking.Traces.taskFlags tasks tasks.held h c.flags
  fields : ∀ {r f k}, r ∈ records → a.Record r f → k ∈ [f.key, f.value, f.finalizer] →
    m.arena.Settled s k

theorem run_finish {seed : Handle → Prop} {tasks : Tasks} {records : List Handle} {mid : Marking}
    {n : Nat} (hd : Decided s a seed tasks records mid)
    (hrun : (finish s records).run mid = .ok (n, m)) :
    Finished s a seed tasks records n m := by
  simp only [finish, run_bind, run_pure] at hrun
  obtain ⟨_, m₁, hflag, _, m₂, hkeep, _, _, hdrain, rfl, rfl⟩ := hrun
  have halike₀ := hd.traces.alike
  obtain ⟨hsame₁, hwork₁, hcount₁, hnew₁, hready₁⟩ :=
    Marking.Traces.flagReady (halike₀.tidy Cell.isFree_core hd.traces.tidy) hflag
  have halike₁ := hsame₁.alike_of_unready
  have hmarks₁ : ∀ {h}, m₁.arena.Marks h ↔ mid.arena.Marks h := hsame₁.marks_of_unready
  have halive : ∀ {k}, mid.arena.Alive s k ↔ Retained s a seed records k ∨ a.Spared s k :=
    or_congr hd.marks ⟨halike₀.symm.spared, halike₀.spared⟩
  have hdead : ∀ {h}, (∃ f, mid.arena.Record h f ∧ ¬ mid.arena.Alive s f.key) ↔
      ∃ f, a.Record h f ∧ ¬ (Retained s a seed records f.key ∨ a.Spared s f.key) := by
    intro h
    exact exists_congr fun f =>
      and_congr ⟨halike₀.symm.record, halike₀.record⟩ (not_congr halive)
  have hready : ∀ {h}, m₁.arena.Ready h ↔
      a.Ready h ∨ (h ∈ records ∧ ReadyAfter s a seed records h) := by
    intro h
    rw [hready₁, hd.ready, hdead, ReadyAfter]
    by_cases ha : a.Ready h <;> simp only [ha, true_or, false_or]
  have ht₁ : m₁.Traces s a (Lingering s a seed records) fun _ => False := by
    refine ⟨hd.traces.tidy, halike₀.trans halike₁, ?_, ?_, ?_, ?_⟩
    · rw [hcount₁, hd.traces.counted]
      refine List.countP_congr ?_
      intro k _
      rw [markedAt_iff, markedAt_iff, hmarks₁]
    · intro h hm
      obtain ⟨hretained, hcovered⟩ := hd.traces.within (hmarks₁.mp hm)
      exact ⟨.retained hretained, hcovered⟩
    · intro h hh
      rw [hwork₁] at hh
      exact hmarks₁.mpr (hd.traces.queued h hh)
    · intro h c k hm hout hpending hc hk
      rw [hwork₁] at hout
      rcases hd.traces.followed (hmarks₁.mp hm) hout hpending hc hk with hno | hmarks | hspared
      · exact .inl hno
      · exact .inr (.inl (hmarks₁.mpr hmarks))
      · exact .inr (.inr (halike₁.spared hspared))
  obtain ⟨ht₂, hg₂, hfields⟩ := ht₁.keepReady
    (fun {r f k} hr hr₁ hf hk hcovered => by
      have hafter : ReadyAfter s a seed records r := by
        rcases hready.mp hr₁ with hold | ⟨-, hnew⟩
        · exact .inl hold
        · exact hnew
      exact .field hr hafter hf hk hcovered) hkeep
  obtain ⟨ht₃, hempty, hg₃⟩ := ht₂.drain (fun hh hc hk hcovered => .edge hh hc hk hcovered) hdrain
  have hg := hg₂.trans hg₃
  refine ⟨ht₃.alike, ht₃.counted, ?_, ?_, hg.ready.trans hready, ?_, fun {r f k} hr hf hk => ?_⟩
  · rw [readies_congr hg.same.shape fun _ => hg.ready, hnew₁,
      readies_congr halike₀.shape fun _ => hd.ready]
  · intro h
    refine ⟨fun hm => (ht₃.within hm).1, ?_⟩
    intro hl
    induction hl with
    | retained hr => exact hg.marks (hmarks₁.mpr (hd.marks.mpr hr))
    | field hr hafter hf hk hcovered =>
      refine marks_of_settled ht₃ (hg₃.settled (hfields hr ?_ hf hk)) hcovered
      exact hready.mpr (.inr ⟨hr, hafter⟩)
    | edge _ hc hk hcovered ih =>
      refine marks_of_settled ht₃ (ht₃.followed ih ?_ id hc hk) hcovered
      rw [hempty]
      exact List.not_mem_nil
  · intro h c d hc hd'
    obtain ⟨e, he, hed⟩ := hg.same.symm.get? (fun _ => rfl) hd'
    obtain ⟨e₀, he₀, hee₀⟩ := hsame₁.symm.get? (fun _ => rfl) he
    have htask₁ : e.flags.task = d.flags.task :=
      (congrArg (fun c : Cell => c.header.flags.task) hed :)
    have htask₀ : e₀.flags.task = e.flags.task :=
      (congrArg (fun c : Cell => c.header.flags.task) hee₀ :)
    rw [← htask₁, ← htask₀, hd.task hc he₀]
  · by_cases hr₁ : m₁.arena.Ready r
    · exact hg₃.settled (hfields hr hr₁ hf hk)
    -- a record that is not ready has a key that is alive, and then the values are settled
    rw [hready, not_or, not_and] at hr₁
    have hkey : mid.arena.Alive s f.key :=
      halive.mpr (by_contra fun hdead' => hr₁.2 hr (.inr ⟨f, hf, hdead'⟩))
    obtain ⟨hvalue, hfinalizer⟩ := hd.values hr hf hr₁.1 hkey
    have hmid : mid.arena.Settled s k := by
      simp only [List.mem_cons, List.not_mem_nil, or_false] at hk
      rcases hk with rfl | rfl | rfl
      · exact .inr hkey
      · exact hvalue
      · exact hfinalizer
    exact hg.settled (hmid.imp_right (.imp hmarks₁.mpr halike₁.spared))

end MarkM

end ManagedHeap
