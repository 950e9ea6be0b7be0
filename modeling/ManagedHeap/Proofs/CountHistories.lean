import ManagedHeap.Proofs.HeapHistories
import ManagedHeap.Proofs.SettledCounts

/-!
# The history of the counts

A removed binding releases its value, but the cell of the binding keeps it: from then on that slot
is not counted. The history of a heap tells which cells that are, and which objects may have lost a
reference that was not due: one that was released outright, the value of a removed binding whose
cell was written or removed once more, and an object in a cell that a permanent object still names.
The counts of all others back them.
-/

namespace ManagedHeap

/-- A pair with this value. -/
def Heap.PairHolds (heap : Heap) (cell value : Handle) : Prop :=
  ∃ c cdr tag, heap.arena.get? cell = some c ∧ c.payload = .pair value cdr tag

/-- A permanent object names the handle. -/
def Heap.PermanentHolds (heap : Heap) (h : Handle) : Prop :=
  ∃ p c, heap.arena.get? p = some c ∧ c.flags.permanent = true ∧ h ∈ c.edges true

/-- The objects stay, and no slots run ahead of their counts. -/
def Heap.CountsKept (heap heap' : Heap) : Prop :=
  (∀ h, heap'.arena.contains h = heap.arena.contains h) ∧ heap.Settles heap'

/-- What has become of the counts of a heap since it was new: the cells of removed bindings that
are still there, and the objects that lost a reference which was not due. -/
inductive Heap.Reckoned (countsKept : Heap → Heap → Prop) : List Handle → List Handle → Heap → Prop
  | new {heap : Heap} : heap.Born → Reckoned countsKept [] [] heap
  /-- A step that needs no entry. -/
  | settle {removed spoiled : List Handle} {heap heap' : Heap} : Reckoned countsKept removed spoiled heap →
      countsKept heap heap' → Reckoned countsKept removed spoiled heap'
  | claim {removed spoiled : List Handle} {heap heap' : Heap} {kind : Kind} {length chunks : Nat}
      {payload : Payload} {n : NodeClass} {h : Handle} : Reckoned countsKept removed spoiled heap →
      heap.Sound → kind ≠ .free → Payload.forKind? kind length = some payload →
      (HeapM.claimCell? n kind payload chunks).run heap = .ok (some h, heap') → ¬ heap.PermanentHolds h →
      Reckoned countsKept removed spoiled heap'
  /-- A permanent object still names the cell that is claimed. -/
  | reclaim {removed spoiled : List Handle} {heap heap' : Heap} {kind : Kind} {length chunks : Nat}
      {payload : Payload} {n : NodeClass} {h : Handle} : Reckoned countsKept removed spoiled heap →
      heap.Sound → kind ≠ .free → Payload.forKind? kind length = some payload →
      (HeapM.claimCell? n kind payload chunks).run heap = .ok (some h, heap') → heap.PermanentHolds h →
      Reckoned countsKept removed (h :: spoiled) heap'
  | collect {removed spoiled : List Handle} {heap heap' : Heap} {level : Level} {reason : Reason}
      {o : Outcome} : Reckoned countsKept removed spoiled heap → heap.Sound →
      (HeapM.collect level reason).run heap = .ok (o, heap') →
      Reckoned countsKept (removed.filter heap'.arena.contains) (spoiled.filter heap'.arena.contains) heap'
  /-- A binding is removed. -/
  | remove {removed spoiled : List Handle} {heap heap' : Heap} {env sym cell : Handle} :
      Reckoned countsKept removed spoiled heap →
      (HeapM.frameBinding env sym).run heap = .ok (some cell, heap) →
      (HeapM.removeVar env sym).run heap = .ok (true, heap') → cell ∉ removed →
      Reckoned countsKept (cell :: removed) spoiled heap'
  /-- A binding is removed whose cell is that of a removed binding. -/
  | removeAgain {removed spoiled : List Handle} {heap heap' : Heap} {env sym cell value : Handle} :
      Reckoned countsKept removed spoiled heap →
      (HeapM.frameBinding env sym).run heap = .ok (some cell, heap) →
      (HeapM.removeVar env sym).run heap = .ok (true, heap') → cell ∈ removed →
      (∀ v, heap'.PairHolds cell v → v = value) → Reckoned countsKept removed (value :: spoiled) heap'
  /-- The value of a pair is replaced. -/
  | write {removed spoiled : List Handle} {heap heap' : Heap} {cell value : Handle} :
      Reckoned countsKept removed spoiled heap → cell ∉ removed →
      (HeapM.setCar cell value).run heap = .ok ((), heap') → Reckoned countsKept removed spoiled heap'
  /-- The value of a removed binding is replaced in its cell. -/
  | rewrite {removed spoiled : List Handle} {heap heap' : Heap} {cell old value : Handle} :
      Reckoned countsKept removed spoiled heap → cell ∈ removed → heap.PairHolds cell old →
      (HeapM.setCar cell value).run heap = .ok ((), heap') →
      Reckoned countsKept (removed.filter (· ≠ cell)) (old :: spoiled) heap'
  /-- A reference is released outright. -/
  | release {removed spoiled : List Handle} {heap heap' : Heap} {h : Handle} :
      Reckoned countsKept removed spoiled heap → (HeapM.decrementRefCount h).run heap = .ok ((), heap') →
      Reckoned countsKept removed (h :: spoiled) heap'

namespace HeapM

open Arena

variable {heap mid heap' : Heap} {env sym : Handle}

theorem run_unbindFrom (fuel : Nat) {previous cell : Handle} {b : Bool}
    (hrun : (unbindFrom env sym previous cell fuel).run heap = .ok (b, heap')) :
    (b = false ∧ heap' = heap) ∨ ∃ found mid value, b = true ∧
      (searchFrame sym cell fuel).run heap = .ok (some found, heap) ∧ heap.Settles mid ∧
      (∀ h, mid.arena.contains h = heap.arena.contains h) ∧
      (car found).run mid = .ok (value, mid) ∧ (decrementRefCount value).run mid = .ok ((), heap') := by
  induction fuel generalizing previous cell with
  | zero => exact (run_throw.mp hrun).elim
  | succ fuel ih =>
    unfold unbindFrom at hrun
    unfold searchFrame
    split at hrun
    · obtain ⟨rfl, rfl⟩ := run_pure.mp hrun
      exact .inl ⟨rfl, rfl⟩
    · rename_i hnotNil
      rw [if_neg hnotNil]
      simp only [run_bind] at hrun
      obtain ⟨next, _, hnext, t, _, htag, hrun⟩ := hrun
      obtain rfl := (Reads.cdr _ _ _ hnext).symm
      obtain rfl := (Reads.tag _ _ _ htag).symm
      have hend : ∀ {start : Heap}, heap.Settles start →
          (∀ h, start.arena.contains h = heap.arena.contains h) → (do
            decrementRefCount (← car cell)
            return true).run start = .ok (b, heap') → ∃ mid value, b = true ∧ heap.Settles mid ∧
              (∀ h, mid.arena.contains h = heap.arena.contains h) ∧
              (car cell).run mid = .ok (value, mid) ∧
              (decrementRefCount value).run mid = .ok ((), heap') := by
        intro start hsettles hlive hrun
        simp only [run_bind, run_pure] at hrun
        obtain ⟨value, _, hcar, _, _, hrelease, rfl, rfl⟩ := hrun
        obtain rfl := Reads.car _ _ _ hcar
        exact ⟨_, value, rfl, hsettles, hlive, hcar, hrelease⟩
      split at hrun
      · rename_i hfound
        right
        have hsearch : (do
            if (← tag cell) = sym then return some cell
            searchFrame sym (← cdr cell) fuel).run heap = .ok (some cell, heap) :=
          run_bind.mpr ⟨t, heap, htag, by rw [if_pos hfound]; rfl⟩
        suffices hunlinked : ∃ mid value, b = true ∧ heap.Settles mid ∧
            (∀ h, mid.arena.contains h = heap.arena.contains h) ∧
            (car cell).run mid = .ok (value, mid) ∧
            (decrementRefCount value).run mid = .ok ((), heap') by
          obtain ⟨mid, value, hb, hsettles, hlive, hcar, hrelease⟩ := hunlinked
          exact ⟨cell, mid, value, hb, hsearch, hsettles, hlive, hcar, hrelease⟩
        split at hrun
        · obtain ⟨_, start, hframe, hrun⟩ := run_bind.mp hrun
          exact hend (Settles.setFrame _ _ _ hframe) (Retouches.setFrame _ _ _ hframe).contains hrun
        · obtain ⟨_, start, hcdr, hrun⟩ := run_bind.mp hrun
          exact hend (Settles.setCdr _ _ _ hcdr) (Retouches.setCdr _ _ _ hcdr).contains hrun
      · rename_i hother
        refine (ih hrun).imp_right ?_
        rintro ⟨found, mid, value, hb, hsearch, hrest⟩
        refine ⟨found, mid, value, hb, run_bind.mpr ⟨t, heap, htag, ?_⟩, hrest⟩
        rw [if_neg hother]
        exact run_bind.mpr ⟨next, heap, hnext, hsearch⟩

theorem run_removeVar {b : Bool} (hrun : (removeVar env sym).run heap = .ok (b, heap')) :
    (b = false ∧ heap' = heap) ∨ ∃ cell mid value, b = true ∧
      (frameBinding env sym).run heap = .ok (some cell, heap) ∧ heap.Settles mid ∧
      (∀ h, mid.arena.contains h = heap.arena.contains h) ∧
      (car cell).run mid = .ok (value, mid) ∧ (decrementRefCount value).run mid = .ok ((), heap') := by
  simp only [removeVar, run_bind] at hrun
  obtain ⟨frame, _, hframe, bound, _, hbound, hrun⟩ := hrun
  obtain rfl := (Reads.envFrame _ _ _ hframe).symm
  obtain rfl := (Reads.walkBound _ _ _ hbound).symm
  refine (run_unbindFrom bound hrun).imp_right ?_
  rintro ⟨cell, mid, value, hb, hsearch, hrest⟩
  exact ⟨cell, mid, value, hb, run_bind.mpr ⟨frame, _, hframe, run_bind.mpr ⟨bound, _, hbound, hsearch⟩⟩,
    hrest⟩

theorem run_car {h value : Handle} (hrun : (car h).run heap = .ok (value, heap)) :
    heap.PairHolds h value ∨ value = .nil := by
  simp only [car, pairFields, run_bind, run_payload, run_pure] at hrun
  obtain ⟨fields, _, ⟨p, _, ⟨c, hc, rfl, rfl⟩, hfields⟩, rfl, -⟩ := hrun
  cases hp : c.payload <;> rw [hp] at hfields
  case pair car cdr tag =>
    obtain ⟨rfl, -⟩ := run_pure.mp hfields
    exact .inl ⟨c, cdr, tag, hc, hp⟩
  case nil =>
    obtain ⟨rfl, -⟩ := run_pure.mp hfields
    exact .inr rfl
  all_goals exact (run_wrongKind.mp hfields).elim

end HeapM

namespace Heap

open Arena

variable {heap mid heap' : Heap} {removed spoiled : List Handle} {o h cell value : Handle}

theorem Settles.backs (hs : heap.Settles heap') (hnil : o ≠ .nil) (hunbound : o ≠ .unbound)
    {k : ℤ} (hb : heap.graph.Backs removed o k) : heap'.graph.Backs removed o k := by
  simpa using hs removed o k hnil hunbound hb

theorem holds_of_get? {c : Cell} (hc : heap.arena.get? h = some c) :
    heap.graph.holds removed o h = (c.counted (decide (h ∈ removed))).count o := by
  rw [Graph.holds_of_some (graph_of_get? hc), Cell.counted_seen]

theorem Sound.holds_dead (hs : heap.Sound) (hdead : heap.arena.get? o = none) (hfree : ¬ heap.PermanentHolds o)
    (p : Handle) : heap.graph.holds removed o p = 0 := by
  cases hc : heap.arena.get? p with
  | none => exact Graph.holds_of_none (graph_eq_none.mpr hc)
  | some c =>
    rw [holds_of_get? hc, List.count_eq_zero]
    intro hmem
    have hedge := (c.counted_sublist _).subset hmem
    cases hperm : c.flags.permanent with
    | true => exact hfree ⟨p, c, hc, hperm, hedge⟩
    | false =>
      obtain ⟨d, hd⟩ := hs.closed hc hperm hedge
      exact nomatch hdead.symm.trans hd

theorem Gains.holds_new {kind : Kind} {length : Nat} (hg : heap.Gains heap' kind length h)
    (hnil : o ≠ .nil) (hunbound : o ≠ .unbound) : heap'.graph.holds removed o h = 0 := by
  obtain ⟨payload, hp, hgraph⟩ := hg.graph
  rw [hgraph, Graph.holds_of_some Graph.add_self, List.count_eq_zero]
  intro hmem
  rcases List.mem_cons.mp (((Cell.blank kind payload).counted_sublist _).subset hmem) with ho | ho
  · exact hnil ho
  · exact (Payload.children_forKind? hp ho).elim hnil hunbound

theorem Gains.backs {kind : Kind} {length : Nat} (hg : heap.Gains heap' kind length h)
    (hnil : o ≠ .nil) (hunbound : o ≠ .unbound) (ho : o ≠ h)
    (hb : heap.graph.Backs removed o 0) : heap'.graph.Backs removed o 0 := by
  have hnew : heap'.graph.holds removed o h = 0 := hg.holds_new hnil hunbound
  obtain ⟨payload, -, hgraph⟩ := hg.graph
  refine hb.change (h := h) (e := 0) (fun c' hc' => ⟨c', ?_, rfl⟩) (fun p hp => ?_) ?_
  · rwa [hgraph, Graph.add_ne ho] at hc'
  · rw [Graph.holds, hgraph, Graph.add_ne hp, Graph.holds]
  · rw [hnew]
    omega

theorem Gains.backs_new {kind : Kind} {length : Nat} (hg : heap.Gains heap' kind length h)
    (hs : heap.Sound) (hfree : ¬ heap.PermanentHolds h) (hnil : h ≠ .nil) (hunbound : h ≠ .unbound) :
    heap'.graph.Backs removed h 0 := by
  have hnew : heap'.graph.holds removed h h = 0 := hg.holds_new hnil hunbound
  obtain ⟨payload, -, hgraph⟩ := hg.graph
  refine fun c hc => .inr fun ps => ?_
  have hnone : ∑ p ∈ ps, heap'.graph.holds removed h p = 0 := by
    refine Finset.sum_eq_zero fun p _ => ?_
    by_cases hp : p = h
    · rw [hp, hnew]
    · rw [Graph.holds, hgraph, Graph.add_ne hp, ← Graph.holds]
      exact hs.holds_dead (graph_eq_none.mp hg.dead) hfree p
  rw [hnone]
  omega

theorem backs_collect {level : Level} {records : List Handle} {out : Outcome}
    (hcol : Collected level records heap heap' out) (hb : heap.graph.Backs removed o 0) :
    heap'.graph.Backs (removed.filter heap'.arena.contains) o 0 := by
  have hholds : ∀ p, heap'.graph.holds (removed.filter heap'.arena.contains) o p ≤
      heap.graph.holds removed o p := by
    intro p
    cases hd : heap'.arena.get? p with
    | none => rw [Graph.holds_of_none (graph_eq_none.mpr hd)]; exact Nat.zero_le _
    | some d =>
      obtain ⟨c, hc, -⟩ := hcol.came hd
      have hmem : p ∈ removed.filter heap'.arena.contains ↔ p ∈ removed := by
        rw [List.mem_filter, and_iff_left (contains_of_get? hd)]
      rw [holds_of_get? hd, holds_of_get? hc, Cell.counted_of_lasting (hcol.same hc hd).lasting,
        decide_eq_decide.mpr hmem]
  refine hb.change (h := o) (e := 0) (fun c' hc' => ?_) (fun p _ => hholds p) ?_
  · obtain ⟨d, hd, rfl⟩ := graph_eq_some.mp hc'
    obtain ⟨c, hc, -⟩ := hcol.came hd
    have hsame : d.header.refcount = c.header.refcount :=
      Cell.refcount_of_lasting (hcol.same hc hd).lasting
    exact ⟨c.seen, graph_of_get? hc, hsame⟩
  · have := hholds o
    omega

theorem backs_remove (hnew : cell ∉ removed) (hbinds : heap.PairHolds cell value ∨ value = .nil)
    (hnil : o ≠ .nil) (hb : heap.graph.Backs removed o 0) :
    heap.graph.Backs (cell :: removed) o (-value.debt o) := by
  have hrest : ∀ p, p ≠ cell → heap.graph.holds (cell :: removed) o p ≤ heap.graph.holds removed o p := by
    intro p hp
    have hmem : p ∈ cell :: removed ↔ p ∈ removed := by simp [hp]
    rw [Graph.holds, decide_eq_decide.mpr hmem, Graph.holds]
  have hself : (heap.graph.holds (cell :: removed) o cell : ℤ) ≤
      heap.graph.holds removed o cell + -value.debt o := by
    rcases hbinds with ⟨c, cdr, tag, hc, hp⟩ | rfl
    · rw [holds_of_get? hc, holds_of_get? hc, decide_eq_true List.mem_cons_self, decide_eq_false hnew,
        Cell.counted, Cell.counted, hp, List.count_append, List.count_append]
      have := Handle.count_cons o value [cdr, tag]
      simp only [Payload.counted, if_true, if_false, Bool.false_eq_true]
      omega
    · have hdebt : Handle.nil.debt o = 0 := if_neg hnil
      rw [hdebt]
      cases hc : heap.arena.get? cell with
      | none =>
        rw [Graph.holds_of_none (graph_eq_none.mpr hc)]
        omega
      | some c =>
        rw [holds_of_get? hc, holds_of_get? hc, decide_eq_true List.mem_cons_self,
          decide_eq_false hnew]
        have hle := (c.counted_sublist true).count_le o
        rw [← Cell.counted_false] at hle
        omega
  simpa using hb.change (h := cell) (fun c hc => ⟨c, hc, rfl⟩) hrest hself

theorem backs_release {k : ℤ} {u : Unit} (hrun : (HeapM.decrementRefCount h).run heap = .ok (u, heap'))
    (hnil : o ≠ .nil) (hunbound : o ≠ .unbound) (hb : heap.graph.Backs removed o k) :
    heap'.graph.Backs removed o (k + h.debt o) := by
  rw [(HeapM.redrawn_decrementRefCount hrun).2.graph]
  exact Graph.owes_release h removed o k hnil hunbound hb

theorem PairHolds.unique {x : Handle} (hb : heap.PairHolds cell value) (hx : heap.PairHolds cell x) :
    x = value := by
  obtain ⟨c, cdr, tag, hc, hp⟩ := hb
  obtain ⟨d, cdr', tag', hd, hp'⟩ := hx
  obtain rfl := Option.some.inj (hc.symm.trans hd)
  rw [hp'] at hp
  injection hp

theorem PairHolds.released {u : Unit} (hb : heap.PairHolds cell value)
    (hrun : (HeapM.decrementRefCount h).run heap = .ok (u, heap')) : heap'.PairHolds cell value := by
  obtain ⟨c, cdr, tag, hc, hp⟩ := hb
  obtain ⟨-, rfl⟩ := HeapM.run_updateCell.mp hrun
  by_cases hcell : cell = h
  · subst hcell
    exact ⟨_, cdr, tag, get?_setCell_self hc (get?_eq_some.mp hc).2, hp⟩
  · exact ⟨c, cdr, tag, (get?_setCell_ne hcell).trans hc, hp⟩

theorem backs_setCar {s : List Handle} {old : Handle} {e : ℤ} {u : Unit}
    (hrun : (HeapM.setCar cell value).run heap = .ok (u, heap')) (hbinds : heap.PairHolds cell old)
    (hnil : o ≠ .nil) (hunbound : o ≠ .unbound) (hrest : ∀ p, p ≠ cell → (p ∈ s ↔ p ∈ removed))
    (hself : ∀ cdr tag, (((Payload.pair value cdr tag).counted (decide (cell ∈ s))).count o : ℤ) ≤
      ((Payload.pair old cdr tag).counted (decide (cell ∈ removed))).count o + e)
    (hb : heap.graph.Backs removed o 0) :
    heap'.graph.Backs s o (e + (old.debt o - value.debt o)) := by
  obtain ⟨c, car, cdr, tag, hc, hp, hlast⟩ := HeapM.redrawn_setCar hrun
  obtain ⟨d, cdr', tag', hd, hp'⟩ := hbinds
  obtain rfl := Option.some.inj (hc.symm.trans hd)
  obtain rfl : car = old := by
    rw [hp] at hp'
    injection hp'
  have hput : (heap.graph.edit cell fun c => { c with payload := .pair value cdr tag }).Backs
      s o (0 + e) := by
    refine hb.change (h := cell) (fun c' hc' => ?_) (fun p hp => ?_) ?_
    · by_cases hcell : o = cell
      · subst hcell
        obtain rfl := Option.some.inj ((Graph.edit_self (graph_of_get? hc)).symm.trans hc')
        exact ⟨c.seen, graph_of_get? hc, rfl⟩
      · exact ⟨c', (Graph.edit_ne hcell).symm.trans hc', rfl⟩
    · rw [Graph.holds, Graph.edit_ne hp, decide_eq_decide.mpr (hrest p hp), Graph.holds]
    · rw [Graph.holds_of_some (Graph.edit_self (graph_of_get? hc)),
        Graph.holds_of_some (graph_of_get? hc), Cell.counted_seen]
      change (((c.seen.attributes ++ (Payload.pair value cdr tag).counted _).count o : ℕ) : ℤ) ≤
        ((c.seen.attributes ++ c.payload.forgetting.counted _).count o : ℕ) + e
      have hslots := hself cdr tag
      rw [hp, List.count_append, List.count_append]
      change _ ≤ ((_ + ((Payload.pair car cdr tag).counted _).count o : ℕ) : ℤ) + e
      omega
  have hpaid := Graph.owes_replace car value s o _ hnil hunbound hput
  rw [hlast.graph]
  simpa using hpaid

theorem Reckoned.backs {countsKept : Heap → Heap → Prop}
    (hcountsKept : ∀ {heap heap' : Heap}, countsKept heap heap' → heap.Settles heap')
    (hr : heap.Reckoned countsKept removed spoiled) (ho : o ∉ spoiled) (hnil : o ≠ .nil)
    (hunbound : o ≠ .unbound) : heap.graph.Backs removed o 0 := by
  induction hr with
  | new hb =>
    intro c hc
    obtain ⟨d, hd, -⟩ := graph_eq_some.mp hc
    obtain ⟨config, hash, fresh, -, hbuild, hsame, -⟩ := hb
    rw [hsame] at hd
    have hpermanent := build_only hbuild hd
    simp only [List.mem_cons, List.not_mem_nil, or_false] at hpermanent
    exact absurd hpermanent (by simp [hnil, hunbound])
  | settle _ hstep ih => exact (hcountsKept hstep).backs hnil hunbound (ih ho)
  | @claim _ _ _ _ _ _ _ _ _ h _ hs hkind hp hrun hfree ih =>
    obtain ⟨hno, -⟩ | ⟨h', hh, hg⟩ := HeapM.gains_claimCell? hs hkind hp hrun
    · exact nomatch hno
    · obtain rfl := Option.some.inj hh
      by_cases hsame : o = h
      · subst hsame
        exact hg.backs_new hs hfree hnil hunbound
      · exact hg.backs hnil hunbound hsame (ih ho)
  | @reclaim _ _ _ _ _ _ _ _ _ h _ hs hkind hp hrun _ ih =>
    have hne := List.ne_of_not_mem_cons ho
    replace ho := List.not_mem_of_not_mem_cons ho
    obtain ⟨hno, -⟩ | ⟨h', hh, hg⟩ := HeapM.gains_claimCell? hs hkind hp hrun
    · exact nomatch hno
    · obtain rfl := Option.some.inj hh
      exact hg.backs hnil hunbound hne (ih ho)
  | collect _ hs hrun ih =>
    obtain ⟨records, hcol⟩ := HeapM.collect_collected hs hrun
    intro c hc
    obtain ⟨d, hd, -⟩ := graph_eq_some.mp hc
    refine backs_collect hcol (ih fun hmem => ho ?_) c hc
    exact List.mem_filter.mpr ⟨hmem, contains_of_get? hd⟩
  | remove _ hfind hrun hnew ih =>
    rcases HeapM.run_removeVar hrun with ⟨hno, -⟩ | ⟨cell, mid, value, -, hfound, hs, -, hcar, hrelease⟩
    · exact nomatch hno
    · obtain ⟨hsame, -⟩ := Prod.mk.inj (Except.ok.inj (hfind.symm.trans hfound))
      obtain rfl := Option.some.inj hsame
      have hmid := hs.backs hnil hunbound (ih ho)
      have hend := backs_release hrelease hnil hunbound
        (backs_remove hnew (HeapM.run_car hcar) hnil hmid)
      rwa [Int.add_left_neg] at hend
  | removeAgain _ hfind hrun _ hbinds ih =>
    have hne := List.ne_of_not_mem_cons ho
    replace ho := List.not_mem_of_not_mem_cons ho
    rcases HeapM.run_removeVar hrun with ⟨hno, -⟩ | ⟨cell, mid, value, -, hfound, hs, -, hcar, hrelease⟩
    · exact nomatch hno
    · obtain ⟨hsame, -⟩ := Prod.mk.inj (Except.ok.inj (hfind.symm.trans hfound))
      obtain rfl := Option.some.inj hsame
      have hend := backs_release hrelease hnil hunbound (hs.backs hnil hunbound (ih ho))
      have hdebt : value.debt o = 0 := by
        rcases HeapM.run_car hcar with hb | rfl
        · exact if_neg (hbinds _ (hb.released hrelease) ▸ hne)
        · exact if_neg hnil
      rwa [hdebt] at hend
  | @write _ _ _ _ cell value _ hnew hrun ih =>
    obtain ⟨c, old, cdr, tag, hc, hp, -⟩ := HeapM.redrawn_setCar hrun
    have hend := backs_setCar hrun ⟨c, cdr, tag, hc, hp⟩ hnil hunbound (fun _ _ => Iff.rfl)
      (e := value.debt o - old.debt o) (fun cdr tag => by
        rw [decide_eq_false hnew]
        simp only [Payload.counted, if_false, Bool.false_eq_true, Handle.count_cons]
        omega) (ih ho)
    exact hend.mono (by omega)
  | @rewrite removed _ _ _ cell old value _ hmem hbinds hrun ih =>
    have hne := List.ne_of_not_mem_cons ho
    replace ho := List.not_mem_of_not_mem_cons ho
    have hgone : cell ∉ removed.filter (· ≠ cell) := by simp
    have hend := backs_setCar (s := removed.filter (· ≠ cell)) hrun hbinds hnil hunbound
      (fun p hp => by simp [hp]) (e := value.debt o) (fun cdr tag => by
        rw [decide_eq_false hgone, decide_eq_true hmem]
        simp only [Payload.counted, if_true, if_false, Bool.false_eq_true, Handle.count_cons]
        omega) (ih ho)
    have hdebt : old.debt o = 0 := if_neg hne
    exact hend.mono (by omega)
  | @release _ _ _ _ h _ hrun ih =>
    have hne := List.ne_of_not_mem_cons ho
    replace ho := List.not_mem_of_not_mem_cons ho
    have hend := backs_release hrun hnil hunbound (ih ho)
    have hdebt : h.debt o = 0 := if_neg hne
    rwa [hdebt] at hend

/-- The counts of the heap have a history. -/
def Recorded (countsKept : Heap → Heap → Prop) (heap : Heap) : Prop :=
  ∃ removed spoiled, heap.Reckoned countsKept removed spoiled

namespace Recorded

variable {countsKept : Heap → Heap → Prop}

theorem settled (hr : heap.Recorded countsKept) (hstep : countsKept heap heap') : heap'.Recorded countsKept := by
  obtain ⟨removed, spoiled, hr⟩ := hr
  exact ⟨_, _, hr.settle hstep⟩

theorem claims {kind : Kind} {length chunks : Nat} {payload : Payload} {n : NodeClass}
    {claimed : Option Handle} (hr : heap.Recorded countsKept) (hs : heap.Sound) (hkind : kind ≠ .free)
    (hp : Payload.forKind? kind length = some payload)
    (hrun : (HeapM.claimCell? n kind payload chunks).run heap = .ok (claimed, heap')) :
    heap'.Recorded countsKept := by
  cases claimed with
  | none =>
    rcases HeapM.claimCell?_cases hrun with ⟨-, rfl⟩ | ⟨h, _, _, _, hsome, -⟩
    · exact hr
    · exact nomatch hsome
  | some h =>
    obtain ⟨removed, spoiled, hr⟩ := hr
    by_cases hpermanentHolds : heap.PermanentHolds h
    · exact ⟨_, _, hr.reclaim hs hkind hp hrun hpermanentHolds⟩
    · exact ⟨_, _, hr.claim hs hkind hp hrun hpermanentHolds⟩

theorem collected {level : Level} {reason : Reason} {out : Outcome} (hr : heap.Recorded countsKept)
    (hs : heap.Sound) (hrun : (HeapM.collect level reason).run heap = .ok (out, heap')) :
    heap'.Recorded countsKept := by
  obtain ⟨removed, spoiled, hr⟩ := hr
  exact ⟨_, _, hr.collect hs hrun⟩

theorem released {u : Unit} (hr : heap.Recorded countsKept)
    (hrun : (HeapM.decrementRefCount h).run heap = .ok (u, heap')) : heap'.Recorded countsKept := by
  obtain ⟨removed, spoiled, hr⟩ := hr
  exact ⟨_, _, hr.release hrun⟩

theorem rewritten {u : Unit} (hr : heap.Recorded countsKept)
    (hrun : (HeapM.setCar h value).run heap = .ok (u, heap')) : heap'.Recorded countsKept := by
  obtain ⟨removed, spoiled, hr⟩ := hr
  by_cases hmem : h ∈ removed
  · obtain ⟨c, car, cdr, tag, hc, hp, -⟩ := HeapM.redrawn_setCar hrun
    exact ⟨_, _, hr.rewrite hmem ⟨c, cdr, tag, hc, hp⟩ hrun⟩
  · exact ⟨_, _, hr.write hmem hrun⟩

theorem unbinds {env sym : Handle} {b : Bool} (hr : heap.Recorded countsKept)
    (hrun : (HeapM.removeVar env sym).run heap = .ok (b, heap')) : heap'.Recorded countsKept := by
  rcases HeapM.run_removeVar hrun with ⟨-, rfl⟩ | ⟨cell, -, -, rfl, hfind, -⟩
  · exact hr
  · obtain ⟨removed, spoiled, hr⟩ := hr
    by_cases hmem : cell ∈ removed
    · by_cases hbinds : ∃ value, heap'.PairHolds cell value
      · obtain ⟨value, hbinds⟩ := hbinds
        exact ⟨_, _, hr.removeAgain hfind hrun hmem fun _ hv => hbinds.unique hv⟩
      · exact ⟨_, .nil :: spoiled, hr.removeAgain hfind hrun hmem fun v hv => (hbinds ⟨v, hv⟩).elim⟩
    · exact ⟨_, _, hr.remove hfind hrun hmem⟩

end Recorded

end Heap

end ManagedHeap
