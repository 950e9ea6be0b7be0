import ManagedHeap.Proofs.GraphAdditions

/-!
# The chain of weak records

The chain is read off the links of its records. A record that is not on it is empty: it is
still fresh, or was finalized. So what links to a record is itself on the chain, and a record
is taken off it whatever the walk that found the record remembers.
-/

namespace ManagedHeap

namespace WeakFields

/-- The slots of a record that is off the chain. -/
def empty : WeakFields := { key := .nil, value := .nil, finalizer := .nil, next := .nil }

/-- The handles that a record watches over. -/
def watched (f : WeakFields) : List Handle := [f.key, f.value, f.finalizer]

end WeakFields

/-- The slots of a weak record. -/
def Payload.fields? : Payload → Option WeakFields
  | .weakRef key value finalizer next => some { key, value, finalizer, next }
  | _ => none

theorem Payload.fields?_eq_some {p : Payload} {f : WeakFields} :
    p.fields? = some f ↔ p = .weakRef f.key f.value f.finalizer f.next := by
  cases p
  case weakRef key value finalizer next =>
    simp only [fields?, Option.some.injEq, weakRef.injEq]
    constructor
    · rintro rfl
      exact ⟨rfl, rfl, rfl, rfl⟩
    · rintro ⟨rfl, rfl, rfl, rfl⟩
      rfl
  all_goals simp [fields?]

theorem Payload.fields?_forgetting (p : Payload) : p.forgetting.fields? = p.fields? := by
  cases p <;> rfl

/-- The slots of a live weak record. -/
def Heap.fieldsOf (heap : Heap) (h : Handle) : Option WeakFields :=
  (heap.arena.get? h).bind (·.payload.fields?)

/-- The records from a cursor on, along their links. -/
inductive Strung (fields : Handle → Option WeakFields) : Handle → List Handle → Prop
  | nil : Strung fields .nil []
  | cons {r : Handle} {f : WeakFields} {rs : List Handle} : r ≠ .nil → fields r = some f →
      Strung fields f.next rs → Strung fields r (r :: rs)

namespace Strung

variable {fields fields' : Handle → Option WeakFields} {cursor r p : Handle} {f : WeakFields}
  {rs rs' front back : List Handle}

theorem of_nil (hs : Strung fields .nil rs) : rs = [] := by
  cases hs with
  | nil => rfl
  | cons hne => exact absurd rfl hne

theorem of_ne_nil (hs : Strung fields cursor rs) (hne : cursor ≠ .nil) :
    ∃ f tail, rs = cursor :: tail ∧ fields cursor = some f ∧ Strung fields f.next tail := by
  cases hs with
  | nil => exact absurd rfl hne
  | cons _ hf htail => exact ⟨_, _, rfl, hf, htail⟩

theorem unique (hs : Strung fields cursor rs) (hs' : Strung fields cursor rs') : rs = rs' := by
  induction hs generalizing rs' with
  | nil => exact hs'.of_nil.symm
  | cons hne hf _ ih =>
    obtain ⟨g, tail, rfl, hg, htail⟩ := hs'.of_ne_nil hne
    rw [hf, Option.some.injEq] at hg
    subst hg
    rw [ih htail]

theorem fields_of_mem (hs : Strung fields cursor rs) (hr : r ∈ rs) :
    r ≠ .nil ∧ ∃ f, fields r = some f := by
  induction hs with
  | nil => exact nomatch hr
  | cons hne hf _ ih =>
    rcases List.mem_cons.mp hr with rfl | hr
    · exact ⟨hne, _, hf⟩
    · exact ih hr

theorem congr (hs : Strung fields cursor rs) (hsame : ∀ r ∈ rs, fields' r = fields r) :
    Strung fields' cursor rs := by
  induction hs with
  | nil => exact .nil
  | cons hne hf _ ih =>
    exact .cons hne ((hsame _ List.mem_cons_self).trans hf)
      (ih fun r hr => hsame r (List.mem_cons_of_mem _ hr))

theorem after (hs : Strung fields cursor (front ++ r :: back)) (hf : fields r = some f) :
    Strung fields f.next back := by
  induction front generalizing cursor with
  | nil =>
    cases hs with
    | cons _ hg htail =>
      rw [hf, Option.some.injEq] at hg
      exact hg ▸ htail
  | cons x front ih =>
    cases hs with
    | cons _ _ htail => exact ih htail

theorem nodup (hs : Strung fields cursor rs) : rs.Nodup := by
  induction hs with
  | nil => exact List.nodup_nil
  | @cons r f tail hne hf htail ih =>
    refine List.nodup_cons.mpr ⟨fun hr => ?_, ih⟩
    obtain ⟨front, back, rfl⟩ := List.append_of_mem hr
    have hlength := congrArg List.length ((htail.after hf).unique htail)
    simp only [List.length_append, List.length_cons] at hlength
    omega

theorem relink {g : WeakFields} (hs : Strung fields cursor (front ++ p :: back))
    (hsame : ∀ r ∈ front, fields' r = fields r) (hp : fields' p = some g)
    (hrest : Strung fields' g.next rs) : Strung fields' cursor (front ++ p :: rs) := by
  induction front generalizing cursor with
  | nil =>
    cases hs with
    | cons hne _ _ => exact .cons hne hp hrest
  | cons x front ih =>
    cases hs with
    | cons hne hf htail =>
      exact .cons hne ((hsame _ List.mem_cons_self).trans hf)
        (ih htail fun r hr => hsame r (List.mem_cons_of_mem _ hr))

end Strung

namespace Heap

variable {heap heap' : Heap} {h r : Handle} {f : WeakFields} {rs records : List Handle}

theorem fieldsOf_eq_some : heap.fieldsOf r = some f ↔ heap.arena.Record r f := by
  simp only [fieldsOf, Option.bind_eq_some_iff, Payload.fields?_eq_some, Arena.Record]

theorem fieldsOf_eq (heap : Heap) (h : Handle) :
    heap.fieldsOf h = (heap.graph h).bind (·.payload.fields?) := by
  unfold fieldsOf graph
  cases heap.arena.get? h with
  | none => rfl
  | some c => exact (Payload.fields?_forgetting c.payload).symm

theorem strung_of_recordsFrom {cursor : Handle} {fuel : Nat}
    (hrs : heap.arena.recordsFrom cursor fuel = .ok rs) : Strung heap.fieldsOf cursor rs := by
  induction fuel generalizing cursor rs with
  | zero =>
    unfold Arena.recordsFrom at hrs
    split at hrs
    · rename_i hnil
      obtain rfl : rs = [] := (Except.ok.inj hrs).symm
      obtain rfl : cursor = .nil := by simpa [Handle.isNil] using hnil
      exact .nil
    · cases hrs
  | succ fuel ih =>
    unfold Arena.recordsFrom at hrs
    split at hrs
    · rename_i hnil
      obtain rfl : rs = [] := (Except.ok.inj hrs).symm
      obtain rfl : cursor = .nil := by simpa [Handle.isNil] using hnil
      exact .nil
    · rename_i hne
      simp only [except_bind, Arena.weakFields_eq_ok, pure, Except.pure, Except.ok.injEq] at hrs
      obtain ⟨f, hf, tail, htail, rfl⟩ := hrs
      exact .cons (by simpa [Handle.isNil] using hne) (fieldsOf_eq_some.mpr hf) (ih htail)

theorem recordsFrom_of_strung {cursor : Handle} (hs : Strung heap.fieldsOf cursor rs) {fuel : Nat}
    (hfuel : rs.length ≤ fuel) : heap.arena.recordsFrom cursor fuel = .ok rs := by
  induction hs generalizing fuel with
  | nil => cases fuel <;> rfl
  | @cons r f tail hne hf _ ih =>
    obtain ⟨fuel, rfl⟩ : ∃ n, fuel = n + 1 := ⟨fuel - 1, by simp at hfuel; omega⟩
    have hnotNil : r.isNil = false := by simpa [Handle.isNil] using hne
    have htail : heap.arena.recordsFrom f.next fuel = .ok tail := ih (by simpa using hfuel)
    unfold Arena.recordsFrom
    rw [hnotNil, if_neg Bool.false_ne_true, Arena.weakFields_eq_ok.mpr (fieldsOf_eq_some.mp hf)]
    simp only [except_bind, Except.ok.injEq, exists_eq_left', htail, pure, Except.pure]

theorem weakRecords_eq_ok : heap.arena.weakRecords heap.weak = .ok rs ↔
    Strung heap.fieldsOf heap.weak.head rs ∧ rs.length = heap.weak.length := by
  constructor
  · intro hrs
    simp only [Arena.weakRecords, except_bind] at hrs
    obtain ⟨records, hrecords, hrs⟩ := hrs
    split at hrs
    · cases hrs
    · rename_i hlength
      obtain rfl : records = rs := Except.ok.inj hrs
      exact ⟨strung_of_recordsFrom hrecords, by simpa using hlength⟩
  · rintro ⟨hs, hlength⟩
    simp only [Arena.weakRecords, recordsFrom_of_strung hs (Nat.le_of_eq hlength), except_bind,
      Except.ok.injEq, exists_eq_left']
    rw [if_neg (by simpa using hlength)]
    rfl

/-- The records on the chain, first to last. All others are empty. -/
structure Chain (heap : Heap) (records : List Handle) : Prop where
  strung : Strung heap.fieldsOf heap.weak.head records
  length : records.length = heap.weak.length
  once : records.Nodup
  loose : ∀ {r f}, heap.fieldsOf r = some f → r ∉ records → f = .empty

namespace Chain

theorem listed (hc : heap.Chain records) : heap.arena.weakRecords heap.weak = .ok records :=
  weakRecords_eq_ok.mpr ⟨hc.strung, hc.length⟩

theorem unique (hc : heap.Chain records) (hc' : heap.Chain rs) : records = rs :=
  hc.strung.unique hc'.strung

theorem mem_of_next (hc : heap.Chain records) (hf : heap.fieldsOf r = some f)
    (hne : f.next ≠ .nil) : ∃ front back, records = front ++ r :: f.next :: back := by
  have hmem : r ∈ records := by
    by_contra hout
    exact hne (congrArg WeakFields.next (hc.loose hf hout))
  obtain ⟨front, back, rfl⟩ := List.append_of_mem hmem
  obtain ⟨-, tail, rfl, -, -⟩ := (hc.strung.after hf).of_ne_nil hne
  exact ⟨front, tail, rfl⟩

theorem congr (hc : heap.Chain records) (hweak : heap'.weak = heap.weak)
    (hkept : ∀ r ∈ records, heap'.fieldsOf r = heap.fieldsOf r)
    (hloose : ∀ {r f}, heap'.fieldsOf r = some f → r ∉ records → f = .empty) :
    heap'.Chain records where
  strung := by
    rw [hweak]
    exact hc.strung.congr hkept
  length := by rw [hweak, hc.length]
  once := hc.once
  loose := hloose

theorem link (hc : heap.Chain records) (hne : r ≠ .nil) (hout : r ∉ records)
    (hnext : f.next = heap.weak.head) (hweak : heap'.weak = ⟨r, heap.weak.length + 1⟩)
    (hself : heap'.fieldsOf r = some f)
    (hothers : ∀ k, k ≠ r → heap'.fieldsOf k = heap.fieldsOf k) : heap'.Chain (r :: records) where
  strung := by
    rw [hweak]
    refine .cons hne hself ?_
    rw [hnext]
    exact hc.strung.congr fun k hk => hothers k fun he => hout (he ▸ hk)
  length := by rw [hweak, List.length_cons, hc.length]
  once := List.nodup_cons.mpr ⟨hout, hc.once⟩
  loose := by
    intro k g hg hk
    simp only [List.mem_cons, not_or] at hk
    exact hc.loose ((hothers k hk.1).symm.trans hg) hk.2

theorem unlink {g : WeakFields} (hc : heap.Chain records) (hne : r ≠ .nil)
    (hf : heap.fieldsOf r = some f) (hself : heap'.fieldsOf r = some .empty)
    (hcases : (heap.weak.head = r ∧ heap'.weak = ⟨f.next, heap.weak.length - 1⟩ ∧
        ∀ k, k ≠ r → heap'.fieldsOf k = heap.fieldsOf k) ∨
      (heap.fieldsOf h = some g ∧ g.next = r ∧
        heap'.weak = ⟨heap.weak.head, heap.weak.length - 1⟩ ∧
        (h ≠ r → heap'.fieldsOf h = some { g with next := f.next }) ∧
        ∀ k, k ≠ r → k ≠ h → heap'.fieldsOf k = heap.fieldsOf k)) :
    r ∈ records ∧ heap'.Chain (records.erase r) := by
  rcases hcases with ⟨hhead, hweak, hothers⟩ | ⟨hg, hgr, hweak, hh, hothers⟩
  · obtain ⟨e, back, rfl, he, hback⟩ := hc.strung.of_ne_nil (hhead ▸ hne)
    rw [hhead] at he ⊢
    rw [hf, Option.some.injEq] at he
    subst he
    have hlength := hc.length
    have honce := hc.once
    rw [hhead] at honce
    obtain ⟨hout, honce⟩ := List.nodup_cons.mp honce
    refine ⟨List.mem_cons_self, ?_⟩
    rw [List.erase_cons_head]
    refine ⟨?_, ?_, honce, ?_⟩
    · rw [hweak]
      exact hback.congr fun k hk => hothers k fun he => hout (he ▸ hk)
    · rw [hweak, ← hlength, List.length_cons, Nat.add_sub_cancel]
    · intro k e he hk
      by_cases hkr : k = r
      · subst hkr
        rw [hself, Option.some.injEq] at he
        exact he.symm
      · refine hc.loose ((hothers k hkr).symm.trans he) ?_
        rw [hhead]
        simp only [List.mem_cons, not_or]
        exact ⟨hkr, hk⟩
  · obtain ⟨front, back, hrecords⟩ := hc.mem_of_next hg (hgr ▸ hne)
    rw [hgr] at hrecords
    subst hrecords
    have honce := hc.once
    have hlength := hc.length
    have hstrung := hc.strung
    obtain ⟨-, hcons, hdisjoint⟩ := List.nodup_append.mp honce
    obtain ⟨hhr, hrest⟩ := List.nodup_cons.mp hcons
    obtain ⟨hrback, -⟩ := List.nodup_cons.mp hrest
    have hhne : h ≠ r := fun he => hhr (he ▸ List.mem_cons_self)
    have hrfront : r ∉ front := fun hmem =>
      hdisjoint r hmem r (List.mem_cons_of_mem _ List.mem_cons_self) rfl
    have hhfront : h ∉ front := fun hmem => hdisjoint h hmem h List.mem_cons_self rfl
    have hhback : h ∉ back := fun hmem => hhr (List.mem_cons_of_mem _ hmem)
    have herase : (front ++ h :: r :: back).erase r = front ++ h :: back := by
      rw [List.erase_append_right _ hrfront, List.erase_cons_tail (by simpa using hhne),
        List.erase_cons_head]
    refine ⟨List.mem_append.mpr (.inr (List.mem_cons_of_mem _ List.mem_cons_self)), ?_⟩
    rw [herase]
    refine ⟨?_, ?_, ?_, ?_⟩
    · rw [hweak]
      refine hstrung.relink (fun k hk => hothers k (fun he => hrfront (he ▸ hk))
        fun he => hhfront (he ▸ hk)) (hh hhne) ?_
      have hback : Strung heap.fieldsOf f.next back := by
        rw [show front ++ h :: r :: back = (front ++ [h]) ++ r :: back by simp] at hstrung
        exact hstrung.after hf
      exact hback.congr fun k hk => hothers k (fun he => hrback (he ▸ hk)) fun he => hhback (he ▸ hk)
    · rw [hweak, ← hlength]
      simp
    · rw [← herase]
      exact honce.erase r
    · intro k e he hk
      by_cases hkr : k = r
      · subst hkr
        rw [hself, Option.some.injEq] at he
        exact he.symm
      · have hkh : k ≠ h := fun he => hk (he ▸ List.mem_append.mpr (.inr List.mem_cons_self))
        refine hc.loose ((hothers k hkr hkh).symm.trans he) fun hmem => hk ?_
        simp only [List.mem_append, List.mem_cons] at hmem ⊢
        tauto

end Chain

end Heap

namespace HeapM

variable {heap heap' : Heap} {record hint previous : Handle}

theorem run_searchPredecessor {cursor : Handle} {fuel : Nat}
    (hstart : (previous = .nil ∧ heap.weak.head = cursor) ∨
      (previous ≠ .nil ∧ ∃ f, heap.fieldsOf previous = some f ∧ f.next = cursor)) {p : Handle}
    (hrun : (searchPredecessor record previous cursor fuel).run heap = .ok (p, heap')) :
    (p = .nil ∧ heap.weak.head = record) ∨
      (p ≠ .nil ∧ ∃ f, heap.fieldsOf p = some f ∧ f.next = record) := by
  induction fuel generalizing previous cursor with
  | zero => exact (run_throw.mp hrun).elim
  | succ fuel ih =>
    unfold searchPredecessor at hrun
    rcases run_ite.mp hrun with ⟨hfound, hrun⟩ | ⟨-, hrun⟩
    · obtain ⟨rfl, -⟩ := run_pure.mp hrun
      exact hfound ▸ hstart
    · rcases run_ite.mp hrun with ⟨-, hrun⟩ | ⟨hnil, hrun⟩
      · simp only [run_bind, run_throw, false_and, exists_false] at hrun
      · simp only [chainFields, run_bind, run_get, run_lift] at hrun
        obtain ⟨f, _, ⟨_, _, ⟨rfl, rfl⟩, hf, rfl⟩, hrun⟩ := hrun
        refine ih (.inr ⟨by simpa [Handle.isNil] using hnil, f, ?_, rfl⟩) hrun
        exact Heap.fieldsOf_eq_some.mpr (Arena.weakFields_eq_ok.mp hf)

theorem run_predecessor (hrun : (predecessor record hint).run heap = .ok (previous, heap')) :
    (previous = .nil ∧ heap.weak.head = record) ∨
      (previous ≠ .nil ∧ ∃ f, heap.fieldsOf previous = some f ∧ f.next = record) := by
  simp only [predecessor, run_bind] at hrun
  obtain ⟨after, _, hafter, hrun⟩ := hrun
  obtain rfl := Reads.chainAfter _ _ _ hafter
  rcases run_ite.mp hrun with ⟨hfound, hrun⟩ | ⟨-, hrun⟩
  · obtain ⟨rfl, rfl⟩ := run_pure.mp hrun
    subst hfound
    unfold chainAfter at hafter
    rcases run_ite.mp hafter with ⟨hnil, hafter⟩ | ⟨hnil, hafter⟩
    · simp only [run_bind, run_get, run_pure] at hafter
      obtain ⟨_, _, ⟨rfl, rfl⟩, rfl, -⟩ := hafter
      exact .inl ⟨by simpa [Handle.isNil] using hnil, rfl⟩
    · simp only [chainFields, run_bind, run_get, run_lift, run_pure] at hafter
      obtain ⟨f, _, ⟨_, _, ⟨rfl, rfl⟩, hf, rfl⟩, rfl, -⟩ := hafter
      exact .inr ⟨by simpa [Handle.isNil] using hnil, f,
        Heap.fieldsOf_eq_some.mpr (Arena.weakFields_eq_ok.mp hf), rfl⟩
  · simp only [run_bind, run_get, run_walkBound] at hrun
    obtain ⟨_, _, ⟨rfl, rfl⟩, _, _, ⟨rfl, rfl⟩, hrun⟩ := hrun
    exact run_searchPredecessor (.inl ⟨rfl, rfl⟩) hrun

end HeapM

end ManagedHeap
