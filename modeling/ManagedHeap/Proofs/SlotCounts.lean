import Mathlib.Algebra.BigOperators.Group.Finset.Basic
import Mathlib.Algebra.Order.BigOperators.Group.Finset
import Mathlib.Algebra.Ring.Int.Defs
import ManagedHeap.Proofs.GraphAdditions

/-!
# Reference counts and slots

A count backs an object if it is no smaller than the number of slots that hold the object, up to
two, where it saturates. What a change of the objects does to that is said as a debt: by how much
the slots of each object may have run ahead of its count. Filling a slot makes a debt that counting
a reference pays; every setter ends with none.
-/

namespace ManagedHeap

/-- The slots of a payload that counts should cover. In the cell of a removed binding this leaves
out the value, whose reference is released with the binding. -/
def Payload.counted (p : Payload) (removed : Bool) : List Handle :=
  match p with
  | .pair car cdr tag => if removed then [cdr, tag] else [car, cdr, tag]
  | p => p.children true

/-- The attribute of an object, unless its slot is a chain link. -/
def Cell.attributes (c : Cell) : List Handle := if c.flags.cached then [] else [c.attrib]

/-- The slots of an object that counts should cover. -/
def Cell.counted (c : Cell) (removed : Bool) : List Handle :=
  c.attributes ++ c.payload.counted removed

/-- How often an object holds another one in such slots. -/
def Graph.holds (g : Graph) (removed : List Handle) (o h : Handle) : Nat :=
  ((g h).map fun c => (c.counted (decide (h ∈ removed))).count o).getD 0

/-- If there is an object at `o`, its count lags at most `k` behind the slots that hold it. -/
def Graph.Backs (g : Graph) (removed : List Handle) (o : Handle) (k : ℤ) : Prop :=
  ∀ c, g o = some c → c.header.refcount = .many ∨
    ∀ ps : Finset Handle, ((∑ p ∈ ps, g.holds removed o p : ℕ) : ℤ) ≤ c.header.refcount.number + k

def Handle.debt (h : Handle) : Handle → ℤ := fun o => if o = h then 1 else 0

/-- A change under which the slots that hold `o` run ahead of its count by at most `d o`, whatever
bindings were removed before. The counts of the permanent objects do not matter. -/
def Graph.Owes (d : Handle → ℤ) (g g' : Graph) : Prop :=
  ∀ removed o k, o ≠ .nil → o ≠ .unbound → g.Backs removed o k → g'.Backs removed o (k + d o)

theorem Handle.count_cons (o h : Handle) (hs : List Handle) :
    ((h :: hs).count o : ℤ) = hs.count o + h.debt o := by
  rw [List.count_cons, debt]
  by_cases ho : o = h
  · simp [ho]
  · simp [ho, Ne.symm ho]

namespace Payload

theorem counted_false (p : Payload) : p.counted false = p.children true := by cases p <;> rfl

theorem counted_forgetting (p : Payload) (removed : Bool) :
    p.forgetting.counted removed = p.counted removed := by
  cases p <;> rfl

theorem counted_sublist (p : Payload) (removed : Bool) :
    (p.counted removed).Sublist (p.children true) := by
  cases p <;> cases removed <;> simp [counted, children]

end Payload

namespace Cell

variable {c d : Cell} {removed : Bool}

theorem counted_false (c : Cell) : c.counted false = c.edges true := by
  unfold counted attributes edges
  rw [Payload.counted_false]
  split <;> rfl

theorem counted_sublist (c : Cell) (removed : Bool) : (c.counted removed).Sublist (c.edges true) := by
  rw [← counted_false]
  refine .append_left ?_ c.attributes
  rw [Payload.counted_false]
  exact c.payload.counted_sublist removed

theorem attributes_congr (hcached : d.flags.cached = c.flags.cached)
    (hattached : d.attached = c.attached) : d.attributes = c.attributes := by
  unfold attached at hattached
  unfold attributes
  rw [hcached] at hattached ⊢
  split
  · rfl
  · rename_i huncached
    rw [if_neg huncached, if_neg huncached] at hattached
    rw [hattached]

theorem counted_congr (hcached : d.flags.cached = c.flags.cached) (hattached : d.attached = c.attached)
    (hpayload : d.payload.forgetting = c.payload.forgetting) :
    d.counted removed = c.counted removed := by
  rw [counted, counted, attributes_congr hcached hattached, ← Payload.counted_forgetting d.payload,
    hpayload, Payload.counted_forgetting]

theorem counted_seen (c : Cell) (removed : Bool) : c.seen.counted removed = c.counted removed :=
  counted_congr rfl (attached_seen c) (payload_forgetting_forgetting c.payload)

theorem counted_of_lasting (he : d.lasting = c.lasting) (removed : Bool) :
    d.counted removed = c.counted removed :=
  counted_congr (cached_of_lasting he) (attached_of_lasting he) (forgetting_of_lasting he)

end Cell

namespace Graph

variable {g g' mid : Graph} {removed removed' : List Handle} {o h old value : Handle} {k e : ℤ}
  {d d' : Handle → ℤ} {f : Cell → Cell} {c : Cell}

theorem holds_of_some (hc : g h = some c) :
    g.holds removed o h = (c.counted (decide (h ∈ removed))).count o := by
  rw [holds, hc, Option.map_some, Option.getD_some]

theorem holds_of_none (hc : g h = none) : g.holds removed o h = 0 := by
  rw [holds, hc]
  rfl

theorem sum_holds_le (hrest : ∀ p, p ≠ h → g'.holds removed' o p ≤ g.holds removed o p)
    (hself : (g'.holds removed' o h : ℤ) ≤ g.holds removed o h + e)
    (hall : ∀ ps : Finset Handle, ((∑ p ∈ ps, g.holds removed o p : ℕ) : ℤ) ≤ k)
    (ps : Finset Handle) : ((∑ p ∈ ps, g'.holds removed' o p : ℕ) : ℤ) ≤ k + e := by
  have hmem : h ∈ insert h ps := Finset.mem_insert_self h ps
  have hmore : ∑ p ∈ ps, g'.holds removed' o p ≤ ∑ p ∈ insert h ps, g'.holds removed' o p :=
    Finset.sum_le_sum_of_subset (Finset.subset_insert h ps)
  have hothers : ∑ p ∈ (insert h ps).erase h, g'.holds removed' o p ≤
      ∑ p ∈ (insert h ps).erase h, g.holds removed o p :=
    Finset.sum_le_sum fun p hp => hrest p (Finset.ne_of_mem_erase hp)
  have hbefore := hall (insert h ps)
  rw [← Finset.add_sum_erase _ _ hmem] at hmore hbefore
  omega

theorem Backs.change (hb : g.Backs removed o k)
    (hcount : ∀ c', g' o = some c' → ∃ c, g o = some c ∧ c'.header.refcount = c.header.refcount)
    (hrest : ∀ p, p ≠ h → g'.holds removed' o p ≤ g.holds removed o p)
    (hself : (g'.holds removed' o h : ℤ) ≤ g.holds removed o h + e) :
    g'.Backs removed' o (k + e) := by
  intro c' hc'
  obtain ⟨c, hc, hsame⟩ := hcount c' hc'
  rw [hsame]
  refine (hb c hc).imp_right fun hall ps => ?_
  have hsum := sum_holds_le hrest hself hall ps
  omega

theorem Backs.recounted (hb : g.Backs removed o k) (hslots : ∀ p, g'.holds removed o p = g.holds removed o p)
    (hcount : ∀ c', g' o = some c' → ∃ c, g o = some c ∧ (c'.header.refcount = .many ∨
      c.header.refcount ≠ .many ∧ (c.header.refcount.number : ℤ) ≤ c'.header.refcount.number + e)) :
    g'.Backs removed o (k + e) := by
  intro c' hc'
  obtain ⟨c, hc, hmany | ⟨hfew, hle⟩⟩ := hcount c' hc'
  · exact .inl hmany
  · refine .inr fun ps => ?_
    have hsum := (hb c hc).resolve_left hfew ps
    simp only [hslots]
    omega

theorem Backs.mono (hb : g.Backs removed o k) (hk : k ≤ e) : g.Backs removed o e :=
  fun c hc => (hb c hc).imp_right fun hall ps => (hall ps).trans (by omega)

namespace Owes

theorem refl (g : Graph) : Owes 0 g g := fun _ _ k _ _ hb => by simpa using hb

theorem mono (ho : Owes d g g') (hd : ∀ o, o ≠ .nil → o ≠ .unbound → d o ≤ d' o) : Owes d' g g' :=
  fun removed o k hnil hunbound hb => (ho removed o k hnil hunbound hb).mono
    (Int.add_le_add_left (hd o hnil hunbound) k)

theorem trans (hfirst : Owes d g mid) (hlast : Owes d' mid g') : Owes (d + d') g g' := by
  intro removed o k hnil hunbound hb
  have hend := hlast removed o _ hnil hunbound (hfirst removed o k hnil hunbound hb)
  rwa [Int.add_assoc] at hend

theorem of_eq (he : g' = g) : Owes 0 g g' := he ▸ refl g

end Owes

theorem owes_edit (hc : g h = some c) (hcount : (f c).header.refcount = c.header.refcount)
    (hslots : ∀ removed o, o ≠ .nil → o ≠ .unbound →
      (((f c).counted removed).count o : ℤ) ≤ (c.counted removed).count o + d o) :
    Owes d g (g.edit h f) := by
  intro removed o k hnil hunbound hb
  refine hb.change (h := h) (fun c' hc' => ?_) (fun p hp => ?_) ?_
  · by_cases ho : o = h
    · subst ho
      obtain rfl := Option.some.inj ((edit_self hc).symm.trans hc')
      exact ⟨c, hc, hcount⟩
    · exact ⟨c', (edit_ne ho).symm.trans hc', rfl⟩
  · rw [holds, edit_ne hp, holds]
  · rw [holds_of_some (edit_self hc), holds_of_some hc, Cell.counted_seen]
    exact hslots _ o hnil hunbound

theorem owes_payload {p : Payload} (hc : g h = some c)
    (hslots : ∀ removed o, o ≠ .nil → o ≠ .unbound →
      ((p.counted removed).count o : ℤ) ≤ (c.payload.counted removed).count o + d o) :
    Owes d g (g.edit h fun c => { c with payload := p }) :=
  owes_edit hc rfl fun removed o hnil hunbound => by
    have hmore := hslots removed o hnil hunbound
    change (((c.attributes ++ p.counted removed).count o : ℕ) : ℤ) ≤ _
    rw [Cell.counted, List.count_append, List.count_append]
    omega

theorem owes_none (hcount : ∀ c, (f c).header.refcount = c.header.refcount)
    (hslots : ∀ (c : Cell) removed, ((f c).counted removed).Sublist (c.counted removed)) :
    Owes 0 g (g.edit h f) := by
  cases hc : g h with
  | none => exact .of_eq (edit_of_dead hc)
  | some c =>
    refine owes_edit hc (hcount c) fun removed o _ _ => ?_
    have := (hslots c removed).count_le o
    simp only [Pi.zero_apply]
    omega

theorem holds_recount (r : RefCount → RefCount) (p : Handle) :
    (g.edit h (Cell.mapRefCount r)).holds removed o p = g.holds removed o p := by
  by_cases hp : p = h
  · subst hp
    cases hc : g p with
    | none => rw [holds, edit, if_pos rfl, hc, Option.map_none, holds, hc]
    | some c =>
      rw [holds_of_some (edit_self hc), holds_of_some hc, Cell.counted_seen]
      rfl
  · rw [holds, edit_ne hp, holds]

theorem owes_recount {r : RefCount → RefCount} {e : ℤ} (he : ∀ n, r n = .many ∨
    n ≠ .many ∧ (n.number : ℤ) ≤ (r n).number + e) :
    Owes (fun o => e * h.debt o) g (g.edit h (Cell.mapRefCount r)) := by
  intro removed o k _ _ hb
  refine hb.recounted (holds_recount r) fun c' hc' => ?_
  by_cases ho : o = h
  · subst ho
    obtain ⟨c, hc⟩ : ∃ c, g o = some c := by
      cases hc : g o with
      | none => simp [edit, hc] at hc'
      | some c => exact ⟨c, rfl⟩
    obtain rfl := Option.some.inj ((edit_self hc).symm.trans hc')
    simp only [Handle.debt, if_true, mul_one]
    exact ⟨c, hc, he _⟩
  · simp only [Handle.debt, if_neg ho, Int.mul_zero, Int.add_zero]
    refine ⟨c', (edit_ne ho).symm.trans hc', ?_⟩
    by_cases hmany : c'.header.refcount = .many
    · exact .inl hmany
    · exact .inr ⟨hmany, Int.le_refl _⟩

theorem owes_count (h : Handle) : Owes (-h.debt) g (g.count h) :=
  (owes_recount (e := -1) fun n => by cases n <;> simp [RefCount.increment, RefCount.number]).mono
    fun o _ _ => by simp

theorem owes_release (h : Handle) : Owes h.debt g (g.release h) :=
  (owes_recount (e := 1) fun n => by cases n <;> simp [RefCount.decrement, RefCount.number]).mono
    fun o _ _ => by simp

theorem owes_replace (old value : Handle) : Owes (old.debt - value.debt) g (g.recount old value) := by
  unfold recount
  split
  · rename_i hsame
    exact (Owes.refl g).mono fun o _ _ => by simp [hsame]
  · exact ((owes_count value).trans (owes_release old)).mono fun o _ _ => by
      simp only [Pi.add_apply, Pi.neg_apply, Pi.sub_apply]
      omega

theorem owes_swap {p : Payload} (hc : g h = some c)
    (hslots : ∀ removed o, ((p.counted removed).count o : ℤ) + old.debt o ≤
      (c.payload.counted removed).count o + value.debt o) :
    Owes 0 g ((g.edit h fun c => { c with payload := p }).recount old value) := by
  have hput : Owes (value.debt - old.debt) g (g.edit h fun c => { c with payload := p }) :=
    owes_payload hc fun removed o _ _ => by
      have := hslots removed o
      rw [Pi.sub_apply]
      omega
  exact (hput.trans (owes_replace old value)).mono fun o _ _ => by simp

end Graph

end ManagedHeap
