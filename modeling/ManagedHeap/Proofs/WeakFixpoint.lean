import Mathlib.Order.Bounds.Basic
import ManagedHeap.Proofs.ChainWalks
import ManagedHeap.Proofs.MarkWorklist

/-!
# The fixpoint of the weak records

The passes over the weak records end, because each of them but the last provides for a record that
was not provided for before. What has a mark then is the least set that contains the marks given and
the records, is closed under tracing, and contains the value and the finalizer of each record that
is not ready and whose key is alive. This set does not know the order of the records.
-/

namespace ManagedHeap

theorem countP_lt {p q : Handle → Bool} {l : List Handle} {x : Handle}
    (hpq : ∀ y ∈ l, p y = true → q y = true) (hx : x ∈ l) (hp : p x = false) (hq : q x = true) :
    l.countP p < l.countP q := by
  obtain ⟨l₁, l₂, rfl⟩ := List.append_of_mem hx
  have h₁ : l₁.countP p ≤ l₁.countP q :=
    List.countP_mono_left fun y hy => hpq y (List.mem_append_left _ hy)
  have h₂ : l₂.countP p ≤ l₂.countP q :=
    List.countP_mono_left fun y hy => hpq y (List.mem_append_right _ (.tail _ hy))
  simp only [List.countP_append, List.countP_cons, hp, hq, if_true, Bool.false_eq_true, if_false]
  omega

namespace Arena

def Provided (s : Scan) (a : Arena) (r : Handle) : Prop :=
  ∃ f, a.Record r f ∧ ¬ a.Ready r ∧ a.Alive s f.key ∧ ¬ a.Open s f.value ∧ ¬ a.Open s f.finalizer

def Satisfied (s : Scan) (a : Arena) (r : Handle) : Prop :=
  ∀ {f}, a.Record r f → ¬ a.Ready r → a.Alive s f.key → ¬ a.Open s f.value ∧ ¬ a.Open s f.finalizer

end Arena

/-- The object has its mark from before, and its edges are not to be followed any more. -/
def Marking.Past (m : Marking) (h : Handle) : Prop := m.arena.Marks h ∧ h ∉ m.worklist

/-- A set that contains the marks and the records, is closed under the tracing of all objects but
the past ones, and contains the value and the finalizer of each record that is not ready and whose
key is in the set or needs no mark. -/
structure Scan.Resolves (s : Scan) (a : Arena) (records : List Handle) (past : Handle → Prop)
    (K : Set Handle) : Prop where
  given : ∀ {h}, a.Marks h → h ∈ K
  chained : ∀ {r}, r ∈ records → a.Covered s r → r ∈ K
  traced : ∀ {h c k}, h ∈ K → ¬ past h → a.get? h = some c → k ∈ c.edges s.withNames →
    a.Covered s k → k ∈ K
  kept : s.Keeps a records (· ∈ K)

/-- A resolved set in which the passes come upon nothing that dangles. -/
structure Marking.Guarded (s : Scan) (m : Marking) (records : List Handle) (K : Set Handle) :
    Prop where
  even : m.arena.Even
  queued : ∀ h ∈ m.worklist, m.arena.Marks h
  resolves : s.Resolves m.arena records m.Past K
  edges : ∀ {h c k}, h ∈ K → ¬ m.Past h → m.arena.get? h = some c → k ∈ c.edges s.withNames →
    m.arena.Followable k
  keys : ∀ {r f}, r ∈ records → m.arena.Record r f → ¬ m.arena.Ready r →
    m.arena.contains f.key = true
  fields : ∀ {r f}, r ∈ records → m.arena.Record r f → ¬ m.arena.Ready r →
    (f.key ∈ K ∨ m.arena.Spared s f.key) →
    m.arena.Followable f.value ∧ m.arena.Followable f.finalizer

namespace Marking.Pushes

open Arena

variable {s : Scan} {m m' : Marking} {ps : List Handle} {h r : Handle} {f : WeakFields}

theorem ready (hp : m.Pushes s ps m') : m'.arena.Ready h ↔ m.arena.Ready h :=
  ⟨hp.same.symm.ready, hp.same.ready⟩

theorem record (hp : m.Pushes s ps m') : m'.arena.Record r f ↔ m.arena.Record r f :=
  ⟨hp.same.alike.symm.record, hp.same.alike.record⟩

theorem spared (hp : m.Pushes s ps m') : m'.arena.Spared s h ↔ m.arena.Spared s h :=
  ⟨hp.same.alike.symm.spared, hp.same.alike.spared⟩

theorem alive (hp : m.Pushes s ps m') (ha : m.arena.Alive s h) : m'.arena.Alive s h :=
  ha.imp (fun hm => hp.marks.mpr (.inl hm)) hp.spared.mpr

theorem provided (hp : m.Pushes s ps m') (hr : m.arena.Provided s r) : m'.arena.Provided s r := by
  obtain ⟨f, hf, hready, halive, hvalue, hfinalizer⟩ := hr
  exact ⟨f, hp.record.mpr hf, fun hr => hready (hp.ready.mp hr), hp.alive halive,
    fun ho => hvalue (hp.opened_iff.mp ho).1, fun ho => hfinalizer (hp.opened_iff.mp ho).1⟩

end Marking.Pushes

namespace MarkM

open Arena

variable {s : Scan} {m m' : Marking} {h : Handle} {records : List Handle} {n : Nat}

theorem isMarked_ends (hin : m.arena.contains h = true) :
    ∃ b, (isMarked s h).run m = .ok (b, m) ∧ (b = true ↔ m.arena.Alive s h) := by
  obtain ⟨c, hc⟩ := contains_iff.mp hin
  have hrun : (isMarked s h).run m = .ok (c.header.flags.marked || s.spares c.header, m) :=
    run_bind.mpr ⟨c, m, run_cell.mpr ⟨hc, rfl⟩, rfl⟩
  exact ⟨_, hrun, (run_isMarked hrun).2⟩

theorem mark_settles (he : m.arena.Even) (hf : m.arena.Followable h) :
    ∃ b qs m', (mark s h).run m = .ok (b, m') ∧ m.Pushes s qs m' ∧
      m'.worklist = qs.reverse ++ m.worklist ∧ qs ⊆ [h] ∧ ¬ m'.arena.Open s h ∧
      (b = true → m.arena.Open s h) ∧ (b = false → m' = m) := by
  rcases mark_ends (s := s) he hf with ⟨m', hrun, hp, hwork⟩ | ⟨hrun, hclosed⟩
  · exact ⟨true, [h], m', hrun, hp, hwork, List.Subset.refl _,
      fun ho => (hp.opened_iff.mp ho).2 (.head _), fun _ => hp.opened h (.head _), nofun⟩
  · exact ⟨false, [], m, hrun, .refl s m, rfl, List.nil_subset _, hclosed, nofun, fun _ => rfl⟩

/-- So many passes over the records, of which the last one changes nothing. -/
inductive Passes (s : Scan) (records : List Handle) : Nat → Marking → Marking → Prop
  | last {m mid m' : Marking} : (keepValues s records).run m = .ok (false, mid) →
      (drain s).run mid = .ok ((), m') → Passes s records 1 m m'
  | more {m mid next m' : Marking} {n : Nat} : (keepValues s records).run m = .ok (true, mid) →
      (drain s).run mid = .ok ((), next) → Passes s records n next m' →
      Passes s records (n + 1) m m'

theorem Passes.run (hp : Passes s records n m m') {passes : Nat} (hle : n ≤ passes) :
    (settleValues s records passes).run m = .ok ((), m') := by
  induction hp generalizing passes with
  | last hkeep hdrain =>
    obtain ⟨passes, rfl⟩ := Nat.exists_eq_add_of_le' hle
    exact run_bind.mpr ⟨false, _, hkeep, run_bind.mpr ⟨(), _, hdrain, rfl⟩⟩
  | more hkeep hdrain _ ih =>
    obtain ⟨passes, rfl⟩ := Nat.exists_eq_add_of_le' (Nat.le_of_add_left_le hle)
    refine run_bind.mpr ⟨true, _, hkeep, run_bind.mpr ⟨(), _, hdrain, ?_⟩⟩
    exact ih (Nat.le_of_succ_le_succ hle)

/-- The marking of the records and of what they keep, until it is settled which keys are alive. -/
def settleRecords (s : Scan) (records : List Handle) : MarkM Unit := do
  markAll s records
  drain s
  settleValues s records (records.length + 1)

end MarkM

/-- Where a marking is, seen from its start: what it pushed lies within a set, and what it took off
the worklist has been traced. -/
structure Marking.Course (s : Scan) (m : Marking) (K : Set Handle) (ps ts : List Handle)
    (mid : Marking) : Prop where
  pushes : m.Pushes s ps mid
  within : ∀ h ∈ ps, h ∈ K
  queue : (ts ++ mid.worklist).Perm (m.worklist ++ ps)
  traced : ∀ {h c k}, h ∈ ts → m.arena.get? h = some c → k ∈ c.edges s.withNames →
    ¬ mid.arena.Open s k

namespace Marking.Course

open Arena

variable {s : Scan} {m mid mid' : Marking} {K : Set Handle} {records rs ps qs ts : List Handle}
  {r : Handle}

theorem start : m.Course s K [] [] m :=
  ⟨.refl s m, nofun, by rw [List.append_nil]; rfl, nofun⟩

theorem push (hc : m.Course s K ps ts mid) (hp : mid.Pushes s qs mid')
    (hwork : mid'.worklist = qs.reverse ++ mid.worklist) (hin : ∀ h ∈ qs, h ∈ K) :
    m.Course s K (ps ++ qs) ts mid' := by
  refine ⟨hc.pushes.trans hp, fun h hh => ?_, ?_, fun hh hd hk ho => ?_⟩
  · exact (List.mem_append.mp hh).elim (hc.within h) (hin h)
  · rw [hwork, ← List.append_assoc m.worklist]
    have hmove : (ts ++ (qs.reverse ++ mid.worklist)).Perm (ts ++ mid.worklist ++ qs) := by
      rw [List.append_assoc]
      exact (((List.reverse_perm qs).append_right _).trans List.perm_append_comm).append_left ts
    exact hmove.trans (hc.queue.append_right qs)
  · exact hc.traced hh hd hk (hp.opened_iff.mp ho).1

theorem drain (hg : m.Guarded s records K) (hc : m.Course s K ps ts mid) :
    ∃ qs ts' last, (MarkM.drain s).run mid = .ok ((), last) ∧
      m.Course s K (ps ++ qs) (ts ++ ts') last ∧ last.worklist = [] ∧ mid.Pushes s qs last := by
  have hnew : ∀ {k}, m.arena.Open s k → k ∈ K → k ∈ K ∧ ¬ m.Past k ∧ m.arena.contains k = true :=
    fun ho hk => ⟨hk, fun hpast => (open_iff.mp ho).2 hpast.1, contains_iff.mpr ho.get?⟩
  obtain ⟨qs, ts', last, -, hrun, hp, hempty, hperm, hqs, htraced⟩ :=
    MarkM.drain_ends (s := s) (m := mid)
      (K := fun h => h ∈ K ∧ ¬ m.Past h ∧ m.arena.contains h = true) (hc.pushes.even hg.even)
      (fun h hh => by
        rcases List.mem_append.mp (hc.queue.mem_iff.mp (List.mem_append_right ts hh)) with hh | hh
        · have hmarks := hg.queued h hh
          exact ⟨hg.resolves.given hmarks, fun hpast => hpast.2 hh,
            contains_iff.mpr (hmarks.imp fun _ hc => hc.1)⟩
        · exact hnew (hc.pushes.opened h hh) (hc.within h hh))
      (fun hh => hc.pushes.contains.trans hh.2.2)
      (fun hh hd hk => by
        obtain ⟨d, hd', hsame⟩ := hc.pushes.edges hd
        rw [← hsame] at hk
        refine ⟨hc.pushes.followable.mpr (hg.edges hh.1 hh.2.1 hd' hk), fun ho => ?_⟩
        have hold := (hc.pushes.opened_iff.mp ho).1
        exact hnew hold (hg.resolves.traced hh.1 hh.2.1 hd' hk hold.covered))
  refine ⟨qs, ts', last, hrun, ⟨hc.pushes.trans hp, fun h hh => ?_, ?_, fun hh hd hk ho => ?_⟩,
    hempty, hp⟩
  · exact (List.mem_append.mp hh).elim (hc.within h) fun hh => (hqs h hh).1
  · rw [hempty, List.append_nil, ← List.append_assoc m.worklist]
    have hrest : (ts ++ ts').Perm (ts ++ mid.worklist ++ qs) := by
      rw [List.append_assoc]
      exact hperm.append_left ts
    exact hrest.trans (hc.queue.append_right qs)
  · rcases List.mem_append.mp hh with hh | hh
    · exact hc.traced hh hd hk (hp.opened_iff.mp ho).1
    · obtain ⟨e, he, hed⟩ := hc.pushes.same.alike.core hd
      exact htraced hh he (Cell.edges_of_core hed s.withNames ▸ hk) ho

theorem keepValue (hg : m.Guarded s records K) (hc : m.Course s K ps ts mid) (hr : r ∈ records)
    (hrecord : ∃ f, m.arena.Record r f) :
    ∃ changed qs mid', (MarkM.keepValue s r).run mid = .ok (changed, mid') ∧
      m.Course s K (ps ++ qs) ts mid' ∧ mid.Pushes s qs mid' ∧
      (changed = true → ¬ mid.arena.Provided s r ∧ mid'.arena.Provided s r) ∧
      (changed = false → mid' = mid ∧ mid.arena.Satisfied s r) := by
  obtain ⟨f, hf⟩ := hrecord
  have hf' := hc.pushes.record.mpr hf
  obtain ⟨c, hcell, -⟩ := id hf'
  have hnone : m.Course s K (ps ++ []) ts mid := by rwa [List.append_nil]
  have hread : (MarkM.cell r).run mid = .ok (c, mid) := MarkM.run_cell.mpr ⟨hcell, rfl⟩
  have hslots : (MarkM.weakFields r).run mid = .ok (f, mid) := MarkM.run_weakFields.mpr ⟨hf', rfl⟩
  by_cases hflag : c.flags.readyToFinalize = true
  · have hready := (MarkM.run_ready hcell).mp hflag
    refine ⟨false, [], mid, run_bind.mpr ⟨c, mid, hread, ?_⟩, hnone, .refl s mid, nofun,
      fun _ => ⟨rfl, fun _ hnot => absurd hready hnot⟩⟩
    simp only [hflag, if_true]
    rfl
  · have hnot : ¬ mid.arena.Ready r := fun hready => hflag ((MarkM.run_ready hcell).mpr hready)
    have hnot' : ¬ m.arena.Ready r := fun hready => hnot (hc.pushes.ready.mpr hready)
    obtain ⟨alive, htest, halive⟩ := MarkM.isMarked_ends (s := s)
      (hc.pushes.contains.trans (hg.keys hr hf hnot'))
    cases alive with
    | false =>
      refine ⟨false, [], mid, run_bind.mpr ⟨c, mid, hread, ?_⟩, hnone, .refl s mid, nofun,
        fun _ => ⟨rfl, fun hf'' _ hkey => ?_⟩⟩
      · simp only [hflag, Bool.false_eq_true, if_false]
        exact run_bind.mpr ⟨f, mid, hslots, run_bind.mpr ⟨false, mid, htest, rfl⟩⟩
      · obtain rfl := hf'.unique hf''
        exact absurd (halive.mpr hkey) Bool.false_ne_true
    | true =>
      have hkey := halive.mp rfl
      have hkeyK : f.key ∈ K ∨ m.arena.Spared s f.key := by
        rcases hkey with hmarks | hspared
        · exact .inl ((hc.pushes.marks.mp hmarks).elim hg.resolves.given (hc.within _))
        · exact .inr (hc.pushes.spared.mp hspared)
      obtain ⟨hvalue, hfinalizer⟩ := hg.fields hr hf hnot' hkeyK
      have hin : ∀ {k}, (k = f.value ∨ k = f.finalizer) → m.arena.Open s k → k ∈ K :=
        fun hk ho => hg.resolves.kept hr hf hnot' hkeyK hk ho.covered
      obtain ⟨b₁, qs₁, mid₁, hrun₁, hp₁, hwork₁, hsub₁, hclosed₁, hopen₁, hsame₁⟩ :=
        MarkM.mark_settles (s := s) (hc.pushes.even hg.even) (hc.pushes.followable.mpr hvalue)
      have hc₁ := hc.push hp₁ hwork₁ fun k hk =>
        hin (.inl (List.mem_singleton.mp (hsub₁ hk))) (hc.pushes.opened_iff.mp (hp₁.opened k hk)).1
      obtain ⟨b₂, qs₂, mid₂, hrun₂, hp₂, hwork₂, hsub₂, hclosed₂, hopen₂, hsame₂⟩ :=
        MarkM.mark_settles (s := s) (hc₁.pushes.even hg.even) (hc₁.pushes.followable.mpr hfinalizer)
      have hc₂ := hc₁.push hp₂ hwork₂ fun k hk =>
        hin (.inr (List.mem_singleton.mp (hsub₂ hk))) (hc₁.pushes.opened_iff.mp (hp₂.opened k hk)).1
      have hp := hp₁.trans hp₂
      refine ⟨b₁ || b₂, qs₁ ++ qs₂, mid₂, run_bind.mpr ⟨c, mid, hread, ?_⟩,
        by rwa [← List.append_assoc], hp, fun hchanged => ⟨?_, ?_⟩, fun hchanged => ?_⟩
      · simp only [hflag, Bool.false_eq_true, if_false]
        refine run_bind.mpr ⟨f, mid, hslots, run_bind.mpr ⟨true, mid, htest, ?_⟩⟩
        exact run_bind.mpr ⟨b₁, mid₁, hrun₁, run_bind.mpr ⟨b₂, mid₂, hrun₂, rfl⟩⟩
      · rintro ⟨f'', hf'', -, -, hvalue', hfinalizer'⟩
        obtain rfl := hf'.unique hf''
        rcases (Bool.or_eq_true _ _).mp hchanged with h₁ | h₂
        · exact hvalue' (hopen₁ h₁)
        · exact hfinalizer' (hp₁.opened_iff.mp (hopen₂ h₂)).1
      · exact ⟨f, hp.record.mpr hf', fun hready => hnot (hp.ready.mp hready), hp.alive hkey,
          fun ho => hclosed₁ (hp₂.opened_iff.mp ho).1, hclosed₂⟩
      · obtain ⟨h₁, h₂⟩ := Bool.or_eq_false_iff.mp hchanged
        obtain rfl := hsame₁ h₁
        obtain rfl := hsame₂ h₂
        refine ⟨rfl, fun hf'' _ _ => ?_⟩
        obtain rfl := hf'.unique hf''
        exact ⟨hclosed₁, hclosed₂⟩

theorem keepValues (hg : m.Guarded s records K) (hrecords : ∀ r ∈ records, ∃ f, m.arena.Record r f)
    (hc : m.Course s K ps ts mid) (hrs : rs ⊆ records) :
    ∃ changed qs mid', (MarkM.keepValues s rs).run mid = .ok (changed, mid') ∧
      m.Course s K (ps ++ qs) ts mid' ∧ mid.Pushes s qs mid' ∧
      (changed = true → ∃ r ∈ rs, ¬ mid.arena.Provided s r ∧ mid'.arena.Provided s r) ∧
      (changed = false → mid' = mid ∧ ∀ r ∈ rs, mid.arena.Satisfied s r) := by
  induction rs generalizing mid ps with
  | nil =>
    exact ⟨false, [], mid, rfl, by rwa [List.append_nil], .refl s mid, nofun,
      fun _ => ⟨rfl, nofun⟩⟩
  | cons r rs ih =>
    obtain ⟨hr, hrs⟩ := List.cons_subset.mp hrs
    obtain ⟨b₁, qs₁, mid₁, hrun₁, hc₁, hp₁, hmore₁, hsame₁⟩ :=
      hc.keepValue hg hr (hrecords r hr)
    obtain ⟨b₂, qs₂, mid₂, hrun₂, hc₂, hp₂, hmore₂, hsame₂⟩ := ih hc₁ hrs
    refine ⟨b₁ || b₂, qs₁ ++ qs₂, mid₂, ?_, by rwa [← List.append_assoc], hp₁.trans hp₂,
      fun hchanged => ?_, fun hchanged => ?_⟩
    · rw [MarkM.keepValues_cons]
      exact run_bind.mpr ⟨b₁, mid₁, hrun₁, run_bind.mpr ⟨b₂, mid₂, hrun₂, rfl⟩⟩
    · rcases (Bool.or_eq_true _ _).mp hchanged with h₁ | h₂
      · obtain ⟨hbefore, hafter⟩ := hmore₁ h₁
        exact ⟨r, .head _, hbefore, hp₂.provided hafter⟩
      · obtain ⟨r', hr', hbefore, hafter⟩ := hmore₂ h₂
        exact ⟨r', .tail _ hr', fun hr => hbefore (hp₁.provided hr), hafter⟩
    · obtain ⟨h₁, h₂⟩ := Bool.or_eq_false_iff.mp hchanged
      obtain ⟨rfl, hone⟩ := hsame₁ h₁
      obtain ⟨rfl, hrest⟩ := hsame₂ h₂
      refine ⟨rfl, fun r' hr' => ?_⟩
      rcases List.mem_cons.mp hr' with rfl | hr'
      · exact hone
      · exact hrest r' hr'

open scoped Classical in
theorem passes (hg : m.Guarded s records K) (hrecords : ∀ r ∈ records, ∃ f, m.arena.Record r f)
    (hc : m.Course s K ps ts mid) (hempty : mid.worklist = []) (left : Nat)
    (hleft : (records.countP fun r => ¬ mid.arena.Provided s r) < left) :
    ∃ n qs ts' last, n ≤ left ∧ MarkM.Passes s records n mid last ∧
      m.Course s K (ps ++ qs) ts' last ∧ last.worklist = [] ∧ mid.Pushes s qs last ∧
      ∀ r ∈ records, last.arena.Satisfied s r := by
  induction left generalizing mid ps ts with
  | zero => exact absurd hleft (Nat.not_lt_zero _)
  | succ left ih =>
    obtain ⟨changed, qs₁, mid₁, hkeep, hc₁, hp₁, hmore, hsame⟩ :=
      hc.keepValues hg hrecords (List.Subset.refl records)
    obtain ⟨qs₂, ts₂, mid₂, hdrain, hc₂, hempty₂, hp₂⟩ := hc₁.drain hg
    cases changed with
    | false =>
      obtain ⟨rfl, hsatisfied⟩ := hsame rfl
      obtain rfl := MarkM.run_drain_nil hempty hdrain
      exact ⟨1, _, _, mid₂, Nat.succ_pos left, .last hkeep hdrain,
        List.append_assoc .. ▸ hc₂, hempty₂, hp₁.trans hp₂, hsatisfied⟩
    | true =>
      obtain ⟨r, hr, hbefore, hafter⟩ := hmore rfl
      have hfewer : (records.countP fun r => ¬ mid₂.arena.Provided s r) < left := by
        refine Nat.lt_of_lt_of_le ?_ (Nat.le_of_lt_succ hleft)
        refine countP_lt (fun x _ hx => ?_) hr ?_ ?_
        · simp only [decide_eq_true_eq] at hx ⊢
          exact fun hprovided => hx ((hp₁.trans hp₂).provided hprovided)
        · simpa using hp₂.provided hafter
        · simpa using hbefore
      obtain ⟨n, qs₃, ts₃, last, hn, hpasses, hc₃, hempty₃, hp₃, hsatisfied⟩ :=
        ih hc₂ hempty₂ hfewer
      refine ⟨n + 1, qs₁ ++ qs₂ ++ qs₃, ts₃, last, Nat.succ_le_succ hn,
        .more hkeep hdrain hpasses, ?_, hempty₃, (hp₁.trans hp₂).trans hp₃, hsatisfied⟩
      simpa only [List.append_assoc] using hc₃

end Marking.Course

namespace Marking.Guarded

open Arena MarkM

variable {s : Scan} {m : Marking} {K L : Set Handle} {records : List Handle}

theorem settles (hg : m.Guarded s records K) (hrecords : ∀ r ∈ records, ∃ f, m.arena.Record r f) :
    ∃ n first ps last, n ≤ records.length + 1 ∧
      (do markAll s records; MarkM.drain s : MarkM Unit).run m = .ok ((), first) ∧
      Passes s records n first last ∧ m.Pushes s ps last ∧ (∀ h ∈ ps, h ∈ K) ∧ last.worklist = [] ∧
      s.Resolves m.arena records m.Past {h | last.arena.Marks h} := by
  classical
  obtain ⟨ps₁, mid, hgives, hp₁, hwork₁, hsub, hclosed⟩ :=
    gives (s := s) hg.even fun r hr => by
      obtain ⟨f, c, hc, -⟩ := hrecords r hr
      exact .inr (contains_of_get? hc)
  have hc₁ := Course.start.push hp₁ hwork₁ fun r hr =>
    hg.resolves.chained (hsub hr) (hp₁.opened r hr).covered
  obtain ⟨ps₂, ts, first, hdrain, hc₂, hempty, hp₂⟩ := hc₁.drain hg
  obtain ⟨n, ps₃, ts', last, hn, hpasses, hc, hempty', hp₃, hsatisfied⟩ :=
    hc₂.passes hg hrecords hempty (records.length + 1) (Nat.lt_succ_of_le List.countP_le_length)
  have hp := hc.pushes
  -- what is covered and not open has a mark
  have hmarked : ∀ {h}, m.arena.Covered s h → ¬ last.arena.Open s h → last.arena.Marks h :=
    fun hcovered hno => by_contra fun hm =>
      hno (open_iff.mpr ⟨hp.same.alike.covered hcovered, hm⟩)
  refine ⟨n, first, _, last, hn, run_bind.mpr ⟨(), mid, hgives.run, hdrain⟩, hpasses, hp, hc.within,
    hempty', fun hm => hp.marks.mpr (.inl hm), fun hr hcovered => ?_,
    fun {h c k} hm hpast hd hk hcovered => ?_, fun {r f k} hr hf hready hkey hk hcovered => ?_⟩
  · refine hmarked hcovered fun ho => hclosed _ hr ?_
    exact (hp₂.opened_iff.mp (hp₃.opened_iff.mp ho).1).1
  · have htraced := hc.queue
    rw [hempty', List.append_nil] at htraced
    refine hmarked hcovered (hc.traced (htraced.mem_iff.mpr ?_) hd hk)
    rcases hp.marks.mp hm with hold | hnew
    · exact List.mem_append_left _ (by_contra fun hout => hpast ⟨hold, hout⟩)
    · exact List.mem_append_right _ hnew
  · have halive : last.arena.Alive s f.key := hkey.imp id hp.spared.mpr
    obtain ⟨hvalue, hfinalizer⟩ := hsatisfied r hr (hp.record.mpr hf)
      (fun hready' => hready (hp.ready.mp hready')) halive
    rcases hk with rfl | rfl
    · exact hmarked hcovered hvalue
    · exact hmarked hcovered hfinalizer

theorem inter (hg : m.Guarded s records K) (hL : s.Resolves m.arena records m.Past L) :
    m.Guarded s records (K ∩ L) := by
  have hK := hg.resolves
  refine ⟨hg.even, hg.queued, ⟨fun hm => ⟨hK.given hm, hL.given hm⟩,
    fun hr hc => ⟨hK.chained hr hc, hL.chained hr hc⟩,
    fun hh hpast hc hk hcovered =>
      ⟨hK.traced hh.1 hpast hc hk hcovered, hL.traced hh.2 hpast hc hk hcovered⟩,
    fun hr hf hready hkey hk hcovered => ⟨hK.kept hr hf hready (hkey.imp And.left id) hk hcovered,
      hL.kept hr hf hready (hkey.imp And.right id) hk hcovered⟩⟩,
    fun hh => hg.edges hh.1, hg.keys, fun hr hf hready hkey =>
      hg.fields hr hf hready (hkey.imp And.left id)⟩

theorem settles_least (hg : m.Guarded s records K)
    (hrecords : ∀ r ∈ records, ∃ f, m.arena.Record r f) :
    ∃ n first ps last, n ≤ records.length + 1 ∧
      (do markAll s records; MarkM.drain s : MarkM Unit).run m = .ok ((), first) ∧
      Passes s records n first last ∧ (settleRecords s records).run m = .ok ((), last) ∧
      m.Pushes s ps last ∧ last.worklist = [] ∧
      IsLeast {L | s.Resolves m.arena records m.Past L} {h | last.arena.Marks h} := by
  have hwhole : ∀ {n first last}, n ≤ records.length + 1 →
      (do markAll s records; MarkM.drain s : MarkM Unit).run m = .ok ((), first) →
      Passes s records n first last → (settleRecords s records).run m = .ok ((), last) := by
    intro n first last hn hfirst hpasses
    obtain ⟨_, mid, hmark, hdrain⟩ := run_bind.mp hfirst
    exact run_bind.mpr ⟨(), mid, hmark, run_bind.mpr ⟨(), first, hdrain, hpasses.run hn⟩⟩
  obtain ⟨n, first, ps, last, hn, hfirst, hpasses, hp, -, hempty, hresolves⟩ := hg.settles hrecords
  have hrun := hwhole hn hfirst hpasses
  refine ⟨n, first, ps, last, hn, hfirst, hpasses, hrun, hp, hempty, hresolves, fun L hL h hm => ?_⟩
  -- within any other resolved set the passes do the same
  obtain ⟨n', first', ps', last', hn', hfirst', hpasses', hp', hin, -, -⟩ :=
    (hg.inter hL).settles hrecords
  have hsame := (hwhole hn' hfirst' hpasses').symm.trans hrun
  simp only [Except.ok.injEq, Prod.mk.injEq, true_and] at hsame
  subst hsame
  exact (hp'.marks.mp hm).elim hL.given fun hh => (hin h hh).2

end Marking.Guarded

namespace Scan.Resolves

open Arena

variable {s : Scan} {a b : Arena} {records records' : List Handle} {past past' : Handle → Prop}
  {K : Set Handle}

theorem whole (hK : s.Resolves a records past K)
    (htraced : ∀ {h c k}, past h → a.get? h = some c → k ∈ c.edges s.withNames → ¬ a.Open s k) :
    s.Resolves a records (fun _ => False) K := by
  refine ⟨hK.given, hK.chained, fun {h c k} hh _ hc hk hcovered => ?_, hK.kept⟩
  by_cases hpast : past h
  · by_contra hout
    exact htraced hpast hc hk (open_iff.mpr ⟨hcovered, fun hm => hout (hK.given hm)⟩)
  · exact hK.traced hh hpast hc hk hcovered

theorem mono (hK : s.Resolves a records past K) (hpast : ∀ h, past h → past' h) :
    s.Resolves a records past' K :=
  ⟨hK.given, hK.chained, fun hh hnot => hK.traced hh fun h => hnot (hpast _ h), hK.kept⟩

end Scan.Resolves

namespace Cell

variable {c d : Cell} {next : Handle}

theorem isFree_relinked (c : Cell) : (c.relinked next).isFree = c.isFree := by
  rw [relinked_eq]
  rfl

theorem header_of_relinked (he : d.relinked next = c.relinked next) : d.header = c.header := by
  rw [relinked_eq, relinked_eq] at he
  exact (congrArg Cell.header he :)

theorem edges_relinked (c : Cell) (withNames : Bool) :
    (c.relinked next).edges withNames = c.edges withNames := by
  rw [relinked_eq, edges, Payload.children_relinked]
  rfl

end Cell

namespace Arena.SameBut

variable {s : Scan} {a b : Arena} {h r k : Handle} {c : Cell} {f : WeakFields}
  {records records' : List Handle} {past : Handle → Prop} {K : Set Handle}

theorem relinked (hab : SameBut (Cell.relinked .nil) a b) (hc : b.get? h = some c) :
    ∃ d, a.get? h = some d ∧ d.header = c.header ∧
      ∀ withNames, d.edges withNames = c.edges withNames := by
  obtain ⟨d, hd, hdc⟩ := hab.symm.get? Cell.isFree_relinked hc
  refine ⟨d, hd, Cell.header_of_relinked hdc, fun withNames => ?_⟩
  rw [← Cell.edges_relinked, hdc, Cell.edges_relinked]

theorem marks_relinked (hab : SameBut (Cell.relinked .nil) a b) : b.Marks h ↔ a.Marks h := by
  have hforth : ∀ {a b : Arena}, SameBut (Cell.relinked .nil) a b → b.Marks h → a.Marks h := by
    rintro a b hab ⟨c, hc, hm⟩
    obtain ⟨d, hd, hheader, -⟩ := hab.relinked hc
    exact ⟨d, hd, (congrArg (·.flags.marked) hheader).trans hm⟩
  exact ⟨hforth hab, hforth hab.symm⟩

theorem ready_relinked (hab : SameBut (Cell.relinked .nil) a b) (hr : a.Ready h) : b.Ready h := by
  obtain ⟨c, hc, hready⟩ := hr
  obtain ⟨d, hd, hheader, -⟩ := hab.symm.relinked hc
  exact ⟨d, hd, (congrArg (·.flags.readyToFinalize) hheader).trans hready⟩

theorem covered_relinked (hab : SameBut (Cell.relinked .nil) a b) (hk : b.Covered s k) :
    a.Covered s k := by
  obtain ⟨c, hc, hspares⟩ := hk
  obtain ⟨d, hd, hheader, -⟩ := hab.relinked hc
  exact ⟨d, hd, hheader ▸ hspares⟩

theorem spared_relinked (hab : SameBut (Cell.relinked .nil) a b) (hk : b.Spared s k) :
    a.Spared s k := by
  obtain ⟨c, hc, hspares⟩ := hk
  obtain ⟨d, hd, hheader, -⟩ := hab.relinked hc
  exact ⟨d, hd, hheader ▸ hspares⟩

theorem contains_relinked (hab : SameBut (Cell.relinked .nil) a b) (hk : a.contains k = true) :
    b.contains k = true := by
  obtain ⟨c, hc⟩ := contains_iff.mp hk
  obtain ⟨d, hd, -⟩ := hab.symm.relinked hc
  exact contains_of_get? hd

theorem record_relinked (hab : SameBut (Cell.relinked .nil) a b) (hr : b.Record r f) :
    ∃ next, a.Record r { f with next } := by
  obtain ⟨c, hc, hpayload⟩ := hr
  obtain ⟨d, hd, hdc⟩ := hab.symm.get? Cell.isFree_relinked hc
  rw [Cell.relinked_eq, Cell.relinked_eq] at hdc
  have hsame : d.payload.relinked .nil = c.payload.relinked .nil := congrArg Cell.payload hdc
  rw [hpayload] at hsame
  cases hd' : d.payload
  case weakRef key value finalizer next =>
    rw [hd', Payload.relinked, Payload.relinked, Payload.weakRef.injEq] at hsame
    obtain ⟨rfl, rfl, rfl, -⟩ := hsame
    exact ⟨next, d, hd, hd'⟩
  all_goals
    rw [hd'] at hsame
    cases hsame

theorem resolves_relinked (hab : SameBut (Cell.relinked .nil) a b) (hperm : records'.Perm records)
    (hK : s.Resolves a records past K) : s.Resolves b records' past K := by
  refine ⟨fun hm => hK.given (hab.marks_relinked.mp hm),
    fun hr hc => hK.chained (hperm.mem_iff.mp hr) (hab.covered_relinked hc),
    fun hh hpast hc hk hcovered => ?_, fun {r f k} hr hf hready hkey hk hcovered => ?_⟩
  · obtain ⟨d, hd, -, hedges⟩ := hab.relinked hc
    exact hK.traced hh hpast hd (hedges _ ▸ hk) (hab.covered_relinked hcovered)
  · obtain ⟨next, hf'⟩ := hab.record_relinked hf
    exact hK.kept (hperm.mem_iff.mp hr) hf' (fun hr => hready (hab.ready_relinked hr))
      (hkey.imp id hab.spared_relinked) hk (hab.covered_relinked hcovered)

end Arena.SameBut

namespace Marking.Guarded

open Arena MarkM

variable {s : Scan} {m : Marking} {b : Arena} {K : Set Handle} {records records' : List Handle}

theorem past_relinked (hab : SameBut (Cell.relinked .nil) m.arena b) :
    Marking.Past { m with arena := b } = m.Past :=
  funext fun _ => propext (and_congr_left' hab.marks_relinked)

theorem relinked (hg : m.Guarded s records K) (hab : SameBut (Cell.relinked .nil) m.arena b)
    (hperm : records'.Perm records) : { m with arena := b }.Guarded s records' K := by
  have hfollow : ∀ {k}, m.arena.Followable k → b.Followable k := fun hf =>
    hf.imp id hab.contains_relinked
  have hshape := hab.shape.symm
  refine ⟨⟨few_eq_of_shape hshape ▸ hg.even.few, sized_of_shape hshape hg.even.sized⟩,
    fun h hh => hab.marks_relinked.mpr (hg.queued h hh), ?_, fun hh hpast hc hk => ?_,
    fun {r f} hr hf hready => ?_, fun {r f} hr hf hready hkey => ?_⟩
  · rw [past_relinked hab]
    exact hab.resolves_relinked hperm hg.resolves
  · rw [past_relinked hab] at hpast
    obtain ⟨d, hd, -, hedges⟩ := hab.relinked hc
    exact hfollow (hg.edges hh hpast hd (hedges _ ▸ hk))
  · obtain ⟨next, hf'⟩ := hab.record_relinked hf
    have hkey := hg.keys (hperm.mem_iff.mp hr) hf' fun hr => hready (hab.ready_relinked hr)
    exact hab.contains_relinked hkey
  · obtain ⟨next, hf'⟩ := hab.record_relinked hf
    obtain ⟨hvalue, hfinalizer⟩ := hg.fields (hperm.mem_iff.mp hr) hf'
      (fun hr => hready (hab.ready_relinked hr)) (hkey.imp id hab.spared_relinked)
    exact ⟨hfollow hvalue, hfollow hfinalizer⟩

end Marking.Guarded

theorem Marking.Pushes.relinked {s : Scan} {m last m' last' : Marking} {ps ps' : List Handle}
    (hp : m.Pushes s ps last) (hp' : m'.Pushes s ps' last')
    (hab : Arena.SameBut (Cell.relinked .nil) m.arena m'.arena) (hmarked : m'.marked = m.marked)
    (hmarks : ∀ h, last'.arena.Marks h ↔ last.arena.Marks h) :
    Arena.SameBut (Cell.relinked .nil) last.arena last'.arena ∧ last'.marked = last.marked := by
  have hpushed : ∀ {m last : Marking} {ps : List Handle} {h : Handle}, m.Pushes s ps last →
      (h ∈ ps ↔ last.arena.Marks h ∧ ¬ m.arena.Marks h) := by
    intro m last ps h hp
    rw [hp.marks]
    exact ⟨fun hh => ⟨.inr hh, (Arena.open_iff.mp (hp.opened h hh)).2⟩,
      fun hh => hh.1.resolve_left hh.2⟩
  have hiff : ∀ h, h ∈ ps' ↔ h ∈ ps := fun h => by
    rw [hpushed hp', hpushed hp, hmarks, hab.marks_relinked]
  refine ⟨⟨hp'.books.trans (hab.books.trans hp.books.symm), fun h => ?_⟩, ?_⟩
  · have hcell := hab.cells h
    rw [funext (Cell.relinked_eq .nil)] at hcell ⊢
    rw [hp'.cells, hp.cells]
    by_cases hh : h ∈ ps
    · rw [if_pos hh, if_pos ((hiff h).mpr hh), Option.map_map, Option.map_map]
      have hmap := congrArg (Option.map MarkM.marked) hcell
      rw [Option.map_map, Option.map_map] at hmap
      exact hmap
    · rw [if_neg hh, if_neg fun hh' => hh ((hiff h).mp hh'), hcell]
  · have hlength := ((List.perm_ext_iff_of_nodup hp'.once hp.once).mpr hiff).length_eq
    rw [hp'.counted, hp.counted, hmarked, hlength]

namespace MarkM

open Arena

variable {s : Scan} {m : Marking} {K : Set Handle} {chain : WeakChain} {records : List Handle}

theorem resolveWeak_settled {last : Marking} (hchain : m.arena.weakRecords chain = .ok records)
    (hrun : (settleRecords s records).run m = .ok ((), last)) :
    (resolveWeak s chain).run m = (finish s records).run last := by
  have hparts : (resolveWeak s chain).run m =
      (settleRecords s records >>= fun _ => finish s records).run m := by
    simp only [resolveWeak, run_get_bind, hchain, settleRecords, finish, bind_assoc]
    rfl
  rw [hparts, StateT.run_bind, hrun]
  rfl

/-- Resolving a chain of weak records goes through them at most once more than there are records.
The marks that this leaves are the least resolved set, whatever the order of the chain. -/
theorem weak_fixpoint_least (hchain : m.arena.weakRecords chain = .ok records)
    (hg : m.Guarded s records K) :
    ∃ n first last, n ≤ records.length + 1 ∧
      (do markAll s records; drain s : MarkM Unit).run m = .ok ((), first) ∧
      Passes s records n first last ∧
      (resolveWeak s chain).run m = (finish s records).run last ∧
      IsLeast {L | s.Resolves m.arena records m.Past L} {h | last.arena.Marks h} ∧
      ((∀ {h c k}, m.Past h → m.arena.get? h = some c → k ∈ c.edges s.withNames →
          ¬ m.arena.Open s k) →
        IsLeast {L | s.Resolves m.arena records (fun _ => False) L} {h | last.arena.Marks h}) ∧
      SameBut Cell.unmarked m.arena last.arena ∧ last.worklist = [] ∧
      ∀ {b chain' records'}, SameBut (Cell.relinked .nil) m.arena b →
        b.weakRecords chain' = .ok records' → records'.Perm records →
        ∃ last', (resolveWeak s chain').run { m with arena := b } = (finish s records').run last' ∧
          (settleRecords s records').run { m with arena := b } = .ok ((), last') ∧
          SameBut (Cell.relinked .nil) last.arena last'.arena ∧ last'.marked = last.marked ∧
          ∀ h, last'.arena.Marks h ↔ last.arena.Marks h := by
  obtain ⟨n, first, ps, last, hn, hfirst, hpasses, hrun, hp, hempty, hleast⟩ :=
    hg.settles_least fun r hr => record_of_weakRecords hchain hr
  refine ⟨n, first, last, hn, hfirst, hpasses, resolveWeak_settled hchain hrun, hleast,
    fun htraced => ⟨hleast.1.whole htraced, fun L hL => hleast.2 (hL.mono fun _ => False.elim)⟩,
    hp.same, hempty, fun {b chain' records'} hab hchain' hperm => ?_⟩
  obtain ⟨-, -, ps', last', -, -, -, hrun', hp', -, hleast'⟩ :=
    (hg.relinked hab hperm).settles_least fun r hr => record_of_weakRecords hchain' hr
  rw [Marking.Guarded.past_relinked hab] at hleast'
  -- the resolved sets are the same, and so is the least one
  have hfamily : {L | s.Resolves b records' m.Past L} = {L | s.Resolves m.arena records m.Past L} :=
    Set.ext fun L => ⟨hab.symm.resolves_relinked hperm.symm, hab.resolves_relinked hperm⟩
  have hmarks : ∀ h, last'.arena.Marks h ↔ last.arena.Marks h := by
    have hset : {h | last'.arena.Marks h} = {h | last.arena.Marks h} :=
      IsLeast.unique (hfamily ▸ hleast') hleast
    exact fun h => Set.ext_iff.mp hset h
  obtain ⟨hsame, hcount⟩ := hp.relinked hp' hab rfl hmarks
  exact ⟨last', resolveWeak_settled hchain' hrun', hrun', hsame, hcount, hmarks⟩

/-- Two weak records, of which the first one has the value of the second one as its key. The key of
the second one is marked. -/
def backwards : Arena :=
  let nil : Cell :=
    { header := { kind := .nil, flags := { permanent := true } }, payload := .nil }
  let raw (marked : Bool) : Cell :=
    { header := { kind := .rawVector, flags := { marked } }, payload := .raw #[] }
  let record (key value next : Handle) : Cell :=
    { header := { kind := .weakRef }, payload := .weakRef key value .nil next }
  { segments := #[⟨.fixed, #[nil, raw true, raw false, raw false,
      record (.pack 0 2) (.pack 0 3) (.pack 0 5), record (.pack 0 1) (.pack 0 2) .nil], 6⟩]
    freeLists := .replicate 7 [], usages := .replicate 7 {}, segmentCells := 6 }

/-- The value of the first record is kept, after three passes at most. -/
theorem weak_fixpoint_least_backwards : ∃ n first last, n ≤ 3 ∧
    Passes ⟨.full, true⟩ [.pack 0 4, .pack 0 5] n first last ∧
    (resolveWeak ⟨.full, true⟩ ⟨.pack 0 4, 2⟩).run { arena := backwards } =
      (finish ⟨.full, true⟩ [.pack 0 4, .pack 0 5]).run last ∧
    last.arena.Marks (.pack 0 3) := by
  have hsegment : ∀ {i s}, backwards.segments[i]? = some s → i = 0 ∧ s = backwards.segments[0] := by
    intro i s hs
    obtain ⟨hi, rfl⟩ := Array.getElem?_eq_some_iff.mp hs
    obtain rfl : i = 0 := Nat.lt_one_iff.mp hi
    exact ⟨rfl, rfl⟩
  have hedges : ∀ {h c k}, backwards.get? h = some c → k ∈ c.edges true → k = .nil := by
    intro h c k hc hk
    obtain ⟨hat, -⟩ := get?_eq_some.mp hc
    unfold cellAt? at hat
    split at hat
    · rename_i s hs
      obtain ⟨-, rfl⟩ := hsegment hs
      have hall : ∀ c ∈ backwards.segments[0].cells.toList, ∀ k ∈ c.edges true, k = .nil := by
        decide
      exact hall c (Array.mem_toList_iff.mpr (Array.mem_of_getElem? hat)) k hk
    · cases hat
  have hlive : ∀ {r f}, r ∈ [Handle.pack 0 4, .pack 0 5] → backwards.Record r f →
      backwards.contains f.key = true ∧ backwards.contains f.value = true ∧
        backwards.contains f.finalizer = true := by
    rintro r f hr ⟨c, hc, hpayload⟩
    rcases List.mem_cons.mp hr with rfl | hr
    · obtain rfl := Option.some.inj hc
      obtain ⟨hkey, hvalue, hfinalizer, -⟩ := Payload.weakRef.inj hpayload
      rw [← hkey, ← hvalue, ← hfinalizer]
      exact ⟨rfl, rfl, rfl⟩
    · obtain rfl := List.mem_singleton.mp hr
      obtain rfl := Option.some.inj hc
      obtain ⟨hkey, hvalue, hfinalizer, -⟩ := Payload.weakRef.inj hpayload
      rw [← hkey, ← hvalue, ← hfinalizer]
      exact ⟨rfl, rfl, rfl⟩
  have hcovered : ∀ {k}, backwards.Covered ⟨.full, true⟩ k → backwards.contains k = true :=
    fun hk => contains_iff.mpr (hk.imp fun _ hc => hc.1)
  have hguarded : Marking.Guarded ⟨.full, true⟩ { arena := backwards } [.pack 0 4, .pack 0 5]
      {h | backwards.contains h = true} := by
    refine ⟨⟨by decide, fun i s hs => ?_⟩, nofun,
      ⟨fun hm => contains_iff.mpr (hm.imp fun _ hc => hc.1), fun _ hk => hcovered hk,
        fun _ _ _ _ hk => hcovered hk, fun _ _ _ _ _ hk => hcovered hk⟩,
      fun _ _ hc hk => ?_, fun hr hf _ => (hlive hr hf).1,
      fun hr hf _ _ => ⟨.inr (hlive hr hf).2.1, .inr (hlive hr hf).2.2⟩⟩
    · obtain ⟨-, rfl⟩ := hsegment hs
      rfl
    · obtain rfl := hedges hc hk
      exact .inr rfl
  have hchain : backwards.weakRecords ⟨.pack 0 4, 2⟩ = .ok [.pack 0 4, .pack 0 5] := rfl
  obtain ⟨n, first, last, hn, -, hpasses, hrun, ⟨hresolves, -⟩, -⟩ :=
    weak_fixpoint_least hchain hguarded
  have hkey : last.arena.Marks (.pack 0 1) := hresolves.given ⟨_, rfl, rfl⟩
  have hfirst : last.arena.Marks (.pack 0 2) :=
    hresolves.kept (r := .pack 0 5) (f := ⟨.pack 0 1, .pack 0 2, .nil, .nil⟩) (.tail _ (.head _))
      ⟨_, rfl, rfl⟩ (not_ready rfl rfl) (.inl hkey) (.inl rfl) ⟨_, rfl, rfl⟩
  exact ⟨n, first, last, hn, hpasses, hrun,
    hresolves.kept (r := .pack 0 4) (f := ⟨.pack 0 2, .pack 0 3, .nil, .pack 0 5⟩) (.head _)
      ⟨_, rfl, rfl⟩ (not_ready rfl rfl) (.inl hfirst) (.inl rfl) ⟨_, rfl, rfl⟩⟩

end MarkM

end ManagedHeap
