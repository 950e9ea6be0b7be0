import ManagedHeap.Proofs.LiveTotals

/-!
# The books of a heap

Three kinds of counters follow the live objects: the live cells of a segment, the usage of a
node class, and the objects and big chunks of a generation. The books are right if every counter
agrees with its total and every object lies in a segment of the class that serves it. Claiming
a cell, giving one back and promoting an object keep them right, and what they subtract from
a counter is there.
-/

namespace ManagedHeap

namespace Arena

variable {a b : Arena} {h : Handle} {n : NodeClass} {w : Handle → Footprint → Nat}

/-- The segments that serve a class. -/
def segmentsOf (a : Arena) (n : NodeClass) : List Segment :=
  a.segments.toList.filter (·.nodeClass == n)

/-- The live cells of a segment, as it counts them. -/
def liveAt (a : Arena) (i : Nat) : Option Nat := a.segments[i]?.map (·.live)

def inSegment (i : Nat) : Handle → Footprint → Nat := fun h _ => if h.segment = i then 1 else 0

def inClass (n : NodeClass) : Handle → Footprint → Nat := fun _ f => if f.nodeClass = n then 1 else 0

def each : Handle → Footprint → Nat := fun _ _ => 1

/-- The books of an arena are right. -/
structure CountersMatch (a : Arena) : Prop where
  placed : ∀ {h f}, a.footprint? h = some f → a.classAt? h = some f.nodeClass
  filled : ∀ {i m}, a.liveAt i = some m → m = a.total (inSegment i)
  segments : ∀ n, (a.usage n).segments = (a.segmentsOf n).length
  cells : ∀ n, (a.usage n).cells = ((a.segmentsOf n).map (·.cells.size)).sum
  live : ∀ n, (a.usage n).live = a.total (inClass n)

theorem sizes_of_shape (hs : b.shape = a.shape) (n : NodeClass) :
    (b.segmentsOf n).map (·.cells.size) = (a.segmentsOf n).map (·.cells.size) := by
  have hsizes : ∀ a : Arena, (a.segmentsOf n).map (·.cells.size) =
      (a.shape.1.toList.filter (·.1 == n)).map Prod.snd := by
    intro a
    simp only [segmentsOf, shape, Array.toList_map, List.filter_map, List.map_map]
    rfl
  rw [hsizes, hs, hsizes]

/-- The counters of one segment and its class change, and nothing else of the books. -/
structure Counts (a b : Arena) (i : Nat) (n : NodeClass) (g : Nat → Nat) : Prop where
  shape : b.shape = a.shape
  liveAt : ∀ j, b.liveAt j = (a.liveAt j).map fun m => if j = i then g m else m
  usage : ∀ m, b.usage m =
    if m = n then { a.usage n with live := g (a.usage n).live } else a.usage m

theorem counts_countLive {i : Nat} {g : Nat → Nat} : Counts a (a.countLive i n g) i n g := by
  refine ⟨shape_countLive, fun j => ?_, fun m => ?_⟩
  · simp only [liveAt, countLive, Array.getElem?_modify]
    cases a.segments[j]? with
    | none => split <;> rfl
    | some s => by_cases hj : i = j <;> simp [hj, eq_comm]
  · simp only [usage, countLive, Fin.getElem_fin, Vector.getElem_set]
    by_cases hm : m = n
    · simp [hm]
    · have hne : (n : Nat) ≠ m := fun e => hm (Fin.ext e.symm)
      simp [hm, hne]

theorem liveAt_of_books (hb : b.books = a.books) (i : Nat) : b.liveAt i = a.liveAt i := by
  have hlive := congrArg (fun p => (p.1[i]?).map (·.2.2)) hb
  simpa [books, liveAt, Function.comp_def] using hlive

theorem usage_of_books (hb : b.books = a.books) (n : NodeClass) : b.usage n = a.usage n := by
  have husages : b.usages = a.usages := congrArg (fun p => p.2.2.1) hb
  rw [usage, husages, usage]

theorem claim?_counts {header : Header} {payload : Payload}
    (hclaim : a.claim? n header payload = some (h, b)) : Counts a b h.segment n (· + 1) := by
  unfold claim? at hclaim
  split at hclaim
  · exact nomatch hclaim
  · rename_i g rest _
    rw [Option.some.injEq, Prod.mk.injEq] at hclaim
    obtain ⟨rfl, rfl⟩ := hclaim
    set mid : Arena := { a with freeLists := a.freeLists.set n rest }
    have hbooks : (mid.setCell g fun _ => { header, payload }).books = mid.books := books_setCell
    obtain ⟨hshape, hlive, husage⟩ := counts_countLive (a := mid.setCell g fun _ => { header, payload })
      (n := n) (i := g.segment) (g := (· + 1))
    refine ⟨hshape.trans shape_setCell, fun j => ?_, fun m => ?_⟩
    · rw [hlive, liveAt_of_books hbooks]
      rfl
    · rw [husage, usage_of_books hbooks, usage_of_books hbooks]
      rfl

theorem release_counts (hr : a.release h = .ok b) :
    ∃ n, a.classAt? h = some n ∧ Counts a b h.segment n (· - 1) := by
  unfold release at hr
  cases hs : a.segments[h.segment]? with
  | none => simp [hs] at hr
  | some s =>
    cases hc : s.cells[h.offset]? with
    | none => simp [hs, hc] at hr
    | some c =>
      simp only [hs, hc] at hr
      split at hr
      · exact nomatch hr
      · rw [Except.ok.injEq] at hr
        subst hr
        have hbooks : (a.setCell h fun _ => {}).books = a.books := books_setCell
        obtain ⟨hshape, hlive, husage⟩ := counts_countLive (a := a.setCell h fun _ => {})
          (n := s.nodeClass) (i := h.segment) (g := (· - 1))
        refine ⟨s.nodeClass, by rw [classAt?, hs]; rfl, hshape.trans shape_setCell, fun j => ?_,
          fun m => ?_⟩
        · change (Arena.countLive (a.setCell h fun _ => {}) h.segment s.nodeClass (· - 1)).liveAt j = _
          rw [hlive, liveAt_of_books hbooks]
        · change (Arena.countLive (a.setCell h fun _ => {}) h.segment s.nodeClass (· - 1)).usage m = _
          rw [husage, usage_of_books hbooks, usage_of_books hbooks]

theorem usage_addSegment {i : Nat} (hs : a.addSegment? n = some (i, b)) (m : NodeClass) :
    b.usage m = if m = n then
      { a.usage n with
        segments := (a.usage n).segments + 1, cells := (a.usage n).cells + a.segmentCells }
      else a.usage m := by
  simp only [addSegment?] at hs
  split at hs
  · cases hs
  · simp only [Option.some.injEq, Prod.mk.injEq] at hs
    obtain ⟨-, rfl⟩ := hs
    simp only [usage, Fin.getElem_fin, Vector.getElem_set]
    by_cases hm : m = n
    · simp [hm]
    · have hne : (n : Nat) ≠ m := fun e => hm (Fin.ext e.symm)
      simp [hm, hne]

theorem segmentsOf_addSegment {i : Nat} (hs : a.addSegment? n = some (i, b)) (m : NodeClass) :
    b.segmentsOf m = a.segmentsOf m ++
      if n = m then [⟨n, Array.replicate a.segmentCells {}, 0⟩] else [] := by
  obtain ⟨-, hsegments, -⟩ := addSegment?_eq_some hs
  simp only [segmentsOf, hsegments, Array.toList_push, List.filter_append, List.filter_cons,
    List.filter_nil, beq_iff_eq]

namespace CountersMatch

theorem congr (ha : a.CountersMatch) (hb : b.books = a.books) (hf : ∀ h,
      (b.footprint? h).map (fun f => (f.kind, f.length)) =
        (a.footprint? h).map fun f => (f.kind, f.length)) : b.CountersMatch := by
  have hs := shape_of_books hb
  have hclass : ∀ h, (b.footprint? h).map Footprint.nodeClass =
      (a.footprint? h).map Footprint.nodeClass := by
    intro h
    have hclass := congrArg (Option.map fun p : Kind × Nat => NodeClass.forRequest p.1 p.2) (hf h)
    rwa [Option.map_map, Option.map_map] at hclass
  have hin : ∀ n h, b.share (inClass n) h = a.share (inClass n) h := by
    intro n h
    have hone := congrArg (fun o : Option NodeClass => (o.map fun m => if m = n then 1 else 0).getD 0)
      (hclass h)
    rwa [Option.map_map, Option.map_map] at hone
  have hsegment : ∀ i h, b.share (inSegment i) h = a.share (inSegment i) h := by
    intro i h
    have hone := congrArg
      (fun o : Option (Kind × Nat) => (o.map fun _ => if h.segment = i then 1 else 0).getD 0) (hf h)
    rwa [Option.map_map, Option.map_map] at hone
  refine ⟨fun {h f} hh => ?_, fun {i m} hm => ?_, fun n => ?_, fun n => ?_, fun n => ?_⟩
  · have hsame := hclass h
    rw [hh, Option.map_some] at hsame
    obtain ⟨f', hf', hn⟩ := Option.map_eq_some_iff.mp hsame.symm
    rw [classAt?_eq_of_shape hs, ha.placed hf', hn]
  · rw [total_congr hs (hsegment i)]
    exact ha.filled ((liveAt_of_books hb i).symm.trans hm)
  · have hlength := congrArg List.length (sizes_of_shape hs n)
    rw [List.length_map, List.length_map] at hlength
    rw [usage_of_books hb, ha.segments, hlength]
  · rw [usage_of_books hb, ha.cells, sizes_of_shape hs]
  · rw [usage_of_books hb, ha.live, total_congr hs (hin n)]

theorem count {g : Nat → Nat} (ha : a.CountersMatch) (ht : a.Tidy) (hc : Counts a b h.segment n g)
    (hin : h ∈ a.positions) (hclass : a.classAt? h = some n)
    (hrest : ∀ k, k ≠ h → b.footprint? k = a.footprint? k)
    (hplaced : ∀ f, b.footprint? h = some f → f.nodeClass = n)
    (hg : ∀ m, a.share each h ≤ m → g m + a.share each h = m + b.share each h) : b.CountersMatch := by
  have hchange := fun w => total_change (w := w) ht hc.shape hin hrest
  have hshare : ∀ w, (∀ f, a.footprint? h = some f → w h f = 1) →
      a.share w h = a.share each h := by
    intro w hw
    unfold share
    cases hf : a.footprint? h with
    | none => rfl
    | some f => exact hw f hf
  have hshare' : ∀ w, (∀ f, b.footprint? h = some f → w h f = 1) →
      b.share w h = b.share each h := by
    intro w hw
    unfold share
    cases hf : b.footprint? h with
    | none => rfl
    | some f => exact hw f hf
  have hzero : ∀ (a : Arena) w, (∀ f, a.footprint? h = some f → w h f = 0) → a.share w h = 0 := by
    intro a w hw
    unfold share
    cases hf : a.footprint? h with
    | none => rfl
    | some f => exact hw f hf
  -- the class of the cell, as the object in it says it
  have hold : ∀ f, a.footprint? h = some f → f.nodeClass = n := fun f hf =>
    Option.some.inj ((ha.placed hf).symm.trans hclass)
  refine ⟨fun {k f} hf => ?_, fun {i m} hm => ?_, fun m => ?_, fun m => ?_, fun m => ?_⟩
  · rw [classAt?_eq_of_shape hc.shape]
    by_cases hk : k = h
    · subst hk
      rw [hclass, hplaced f hf]
    · exact ha.placed ((hrest k hk).symm.trans hf)
  · rw [hc.liveAt] at hm
    obtain ⟨m', hm', rfl⟩ := Option.map_eq_some_iff.mp hm
    have htotal := ha.filled hm'
    have hboth := hchange (inSegment i)
    by_cases hi : i = h.segment
    · subst hi
      rw [hshare _ fun _ _ => if_pos rfl, hshare' _ fun _ _ => if_pos rfl] at hboth
      have hle : a.share each h ≤ m' := by
        rw [htotal, ← hshare (inSegment h.segment) fun _ _ => if_pos rfl]
        exact share_le_total ht
      have hstep := hg m' hle
      rw [if_pos rfl]
      omega
    · rw [hzero a _ fun _ _ => if_neg (Ne.symm hi), hzero b _ fun _ _ => if_neg (Ne.symm hi)] at hboth
      rw [if_neg hi]
      omega
  · have hlength := congrArg List.length (sizes_of_shape hc.shape m)
    rw [List.length_map, List.length_map] at hlength
    rw [hc.usage, hlength, ← ha.segments]
    split
    · rename_i hm
      rw [hm]
    · rfl
  · rw [hc.usage, sizes_of_shape hc.shape, ← ha.cells]
    split
    · rename_i hm
      rw [hm]
    · rfl
  · have hboth := hchange (inClass m)
    rw [hc.usage]
    by_cases hm : m = n
    · subst hm
      rw [hshare _ fun f hf => if_pos (hold f hf), hshare' _ fun f hf => if_pos (hplaced f hf)] at hboth
      have hle : a.share each h ≤ (a.usage m).live := by
        rw [ha.live, ← hshare (inClass m) fun f hf => if_pos (hold f hf)]
        exact share_le_total ht
      have hstep := hg _ hle
      rw [if_pos rfl]
      have hlive := ha.live m
      change g (a.usage m).live = _
      omega
    · rw [hzero a _ fun f hf => if_neg fun e => hm (e.symm.trans (hold f hf)),
        hzero b _ fun f hf => if_neg fun e => hm (e.symm.trans (hplaced f hf))] at hboth
      rw [if_neg hm, ha.live]
      omega

theorem addSegment {i : Nat} (ha : a.CountersMatch) (hs : a.addSegment? n = some (i, b)) : b.CountersMatch := by
  obtain ⟨-, hsegments, -⟩ := addSegment?_eq_some hs
  have husage := usage_addSegment hs
  have hof := segmentsOf_addSegment hs
  have hfootprint : ∀ k, b.footprint? k = a.footprint? k := fun k => by
    rw [footprint?, get?_addSegment hs, footprint?]
  refine ⟨fun {h f} hf => ?_, fun {j m} hm => ?_, fun m => ?_, fun m => ?_, fun m => ?_⟩
  · have hold := ha.placed ((hfootprint h).symm.trans hf)
    obtain ⟨s, hs', -⟩ := Option.map_eq_some_iff.mp hold
    have hlt := (Array.getElem?_eq_some_iff.mp hs').1
    rw [← hold, classAt?, hsegments, Array.getElem?_push, if_neg (Nat.ne_of_lt hlt), classAt?]
  · rw [total_addSegment hs]
    rw [liveAt, hsegments, Array.getElem?_push] at hm
    split at hm
    · rename_i hj
      obtain rfl : 0 = m := Option.some.inj hm
      refine (List.sum_eq_zero fun x hx => ?_).symm
      obtain ⟨k, hk, rfl⟩ := List.mem_map.mp hx
      unfold share
      cases hf : a.footprint? k with
      | none => rfl
      | some f =>
        obtain ⟨s, hs', -⟩ := Option.map_eq_some_iff.mp (ha.placed hf)
        have hlt := (Array.getElem?_eq_some_iff.mp hs').1
        exact if_neg (hj ▸ Nat.ne_of_lt hlt)
    · exact ha.filled hm
  · rw [husage, hof, List.length_append, ← ha.segments]
    by_cases hm : m = n
    · simp [hm]
    · simp [hm, Ne.symm hm]
  · rw [husage, hof, List.map_append, List.sum_append, ← ha.cells]
    by_cases hm : m = n
    · simp [hm]
    · simp [hm, Ne.symm hm]
  · rw [husage, total_addSegment hs, ← ha.live]
    split
    · rename_i hm
      rw [hm]
    · rfl

end CountersMatch

end Arena

end ManagedHeap
