import Mathlib.Algebra.BigOperators.Group.Finset.Piecewise
import ManagedHeap.Proofs.StructuralCopies

/-!
# Objects that are made beside what is there

A computation makes objects and fills their slots. What could be reached before is kept, is
none of the new objects, and is referenced once more for each new slot that holds it; so is each
new object. Allocations and parts of the computation compose, and so does a write that puts
references into empty slots of a new object.
-/

namespace ManagedHeap

/-- The slots of an object, its attribute among them. -/
def Heap.slotsAt (heap : Heap) (h : Handle) : List Handle :=
  ((heap.arena.get? h).map fun c => c.edges true).getD []

/-- How many slots of the objects in `cells` hold `k`. -/
def Heap.holds (heap : Heap) (cells : Finset Handle) (k : Handle) : Nat :=
  ∑ t ∈ cells, (heap.slotsAt t).count k

/-- The objects in `cells` were made between two heaps. They refer to each other and to what
`source` reaches; what `start` reaches is kept. The permanent empty object is not counted. -/
structure Heap.CreatesBeside (heap heap' : Heap) (source start : Handle → Prop) (cells : Finset Handle) :
    Prop where
  claims : ∃ es, heap.Lives es heap' ∧ ∀ t ∈ cells, ∃ kind, Entry.claimed t kind ∈ es
  ne_nil : ∀ t ∈ cells, t ≠ .nil
  fresh : ∀ t ∈ cells, ¬ heap.ReachedFrom start t
  made : ∀ t ∈ cells, ∃ d, heap'.arena.get? t = some d ∧ d.flags.permanent = false ∧
    d.isShared = false ∧ d.header.refcount = RefCount.increment^[heap'.holds cells t] .zero
  within : ∀ t ∈ cells, ∀ k ∈ heap'.slotsAt t,
    k = .nil ∨ k ∈ cells ∨ heap.ReachedFrom source k
  keeps : ∀ k c, heap.ReachedFrom start k → heap.arena.get? k = some c →
    ∃ d, heap'.arena.get? k = some d ∧ c.Lasts d ∧ (k ≠ .nil →
      d.header.refcount = RefCount.increment^[heap'.holds cells k] c.header.refcount)

theorem Cell.Takes.isShared {c d : Cell} {news : List Handle} (ht : c.Takes d news) :
    d.isShared = c.isShared := by
  unfold Cell.isShared
  rw [ht.kind, ht.cached]

theorem Payload.children_blank {kind : Kind} {length : Nat} {payload : Payload} {k : Handle}
    (hp : forKind? kind length = some payload) (hcopied : (Cell.blank kind payload).isShared = false)
    (hk : k ∈ payload.children true) : k = .nil := by
  unfold forKind? at hp
  split at hp
  · exact nomatch hp
  · rw [Option.some.injEq] at hp
    subst hp
    cases kind <;> simp_all [children, Cell.isShared, Cell.blank, Cell.kind]

namespace Heap

variable {heap mid heap' : Heap} {source source' start start' : Handle → Prop}
  {cells more : Finset Handle} {t k : Handle} {c d : Cell} {f : Cell → Cell} {news : List Handle}

theorem slotsAt_of_content (hd : heap.arena.get? t = some d) (he : d.content = c.content) :
    heap.slotsAt t = c.edges true := by
  rw [slotsAt, hd, Option.map_some, Option.getD_some, ← Cell.edges_content d, he, Cell.edges_content]

theorem slotsAt_of_lasts (hc : heap.arena.get? t = some c) (hd : heap'.arena.get? t = some d)
    (hl : c.Lasts d) : heap'.slotsAt t = heap.slotsAt t := by
  rw [slotsAt_of_content hd rfl, slotsAt_of_content hc rfl, hl.edges]

theorem holds_congr (hsame : ∀ t ∈ cells, heap'.slotsAt t = heap.slotsAt t) :
    heap'.holds cells k = heap.holds cells k :=
  Finset.sum_congr rfl fun t ht => congrArg _ (hsame t ht)

theorem holds_eq_zero (hnone : ∀ t ∈ cells, k ∉ heap.slotsAt t) : heap.holds cells k = 0 :=
  Finset.sum_eq_zero fun t ht => List.count_eq_zero.mpr (hnone t ht)

theorem holds_union (hd : Disjoint cells more) :
    heap.holds (cells ∪ more) k = heap.holds cells k + heap.holds more k := Finset.sum_union hd

namespace CreatesBeside

theorem beside (harena : heap'.arena = heap.arena)
    (hgenerations : heap'.generations = heap.generations)
    (hcells : heap'.journal.ofCells = heap.journal.ofCells) :
    heap.CreatesBeside heap' source start ∅ := by
  refine ⟨⟨[], .aside harena hgenerations hcells, by simp⟩, by simp, by simp, by simp, by simp,
    fun k c _ hc => ?_⟩
  exact ⟨c, harena ▸ hc, .refl c, fun _ => by simp [holds]⟩

theorem carries (hw : heap.CreatesBeside heap' source start cells) : heap.Carries heap' start := by
  intro k c hr hc
  obtain ⟨d, hd, hlasts, -⟩ := hw.keeps k c hr hc
  exact ⟨d, hd, hlasts⟩

theorem mono (hw : heap.CreatesBeside heap' source start cells)
    (hsource : ∀ k, heap.ReachedFrom source k → heap.ReachedFrom source' k)
    (hsub : ∀ k, heap.ReachedFrom start' k → heap.ReachedFrom start k) :
    heap.CreatesBeside heap' source' start' cells :=
  ⟨hw.claims, hw.ne_nil, fun t ht hr => hw.fresh t ht (hsub t hr), hw.made,
    fun t ht k hk => (hw.within t ht k hk).imp_right (Or.imp_right (hsource k)),
    fun k c hr => hw.keeps k c (hsub k hr)⟩

theorem trans (hfirst : heap.CreatesBeside mid source start cells)
    (hlast : mid.CreatesBeside heap' source' start' more)
    (hstart : ∀ p, start p → start' p) (hcells : ∀ t ∈ cells, mid.ReachedFrom start' t)
    (hsource : ∀ k, heap.ReachedFrom source k → heap.ReachedFrom start k)
    (hsource' : ∀ k, mid.ReachedFrom source' k → k ∈ cells ∨ heap.ReachedFrom source k) :
    heap.CreatesBeside heap' source start (cells ∪ more) := by
  have hcarried : ∀ {k}, heap.ReachedFrom start k → mid.ReachedFrom start' k :=
    fun hr => (hfirst.carries.reached hr).mono hstart
  have hdisjoint : Disjoint cells more :=
    Finset.disjoint_left.mpr fun t ht hmore => hlast.fresh t hmore (hcells t ht)
  have hslots : ∀ t ∈ cells, heap'.slotsAt t = mid.slotsAt t := by
    intro t ht
    obtain ⟨d, hd, -⟩ := hfirst.made t ht
    obtain ⟨e, he, hlasts, -⟩ := hlast.keeps t d (hcells t ht) hd
    exact slotsAt_of_lasts hd he hlasts
  -- no object of the first part refers to one of the second
  have hapart : ∀ k ∈ more, heap'.holds cells k = 0 := by
    intro k hk
    refine holds_eq_zero fun t ht hmem => ?_
    rw [hslots t ht] at hmem
    rcases hfirst.within t ht k hmem with hnil | hcell | hreached
    · exact hlast.ne_nil k hk hnil
    · exact Finset.disjoint_left.mp hdisjoint hcell hk
    · exact hlast.fresh k hk (hcarried (hsource k hreached))
  obtain ⟨es, hes, hclaims⟩ := hfirst.claims
  obtain ⟨fs, hfs, hclaims'⟩ := hlast.claims
  refine ⟨⟨es ++ fs, hes.trans hfs, fun t ht => ?_⟩, fun t ht => ?_, fun t ht hr => ?_,
    fun t ht => ?_, fun t ht k hk => ?_, fun k c hr hc => ?_⟩
  · rcases Finset.mem_union.mp ht with ht | ht
    · exact (hclaims t ht).imp fun _ => List.mem_append_left fs
    · exact (hclaims' t ht).imp fun _ => List.mem_append_right es
  · exact (Finset.mem_union.mp ht).elim (hfirst.ne_nil t) (hlast.ne_nil t)
  · rcases Finset.mem_union.mp ht with ht | ht
    · exact hfirst.fresh t ht hr
    · exact hlast.fresh t ht (hcarried hr)
  · rw [holds_union hdisjoint]
    rcases Finset.mem_union.mp ht with hcell | hmore
    · obtain ⟨d, hd, hperm, hcopied, hcount⟩ := hfirst.made t hcell
      obtain ⟨e, he, hlasts, hcount'⟩ := hlast.keeps t d (hcells t hcell) hd
      refine ⟨e, he, hlasts.permanent.trans hperm, hlasts.isShared.trans hcopied, ?_⟩
      rw [hcount' (hfirst.ne_nil t hcell), hcount, holds_congr hslots, Nat.add_comm,
        Function.iterate_add_apply]
    · obtain ⟨d, hd, hperm, hcopied, hcount⟩ := hlast.made t hmore
      exact ⟨d, hd, hperm, hcopied, by rw [hcount, hapart t hmore, Nat.zero_add]⟩
  · rcases Finset.mem_union.mp ht with hcell | hmore
    · rw [hslots t hcell] at hk
      exact (hfirst.within t hcell k hk).imp_right (Or.imp_left (Finset.mem_union_left more))
    · refine (hlast.within t hmore k hk).imp_right fun hin => ?_
      rcases hin with hin | hreached
      · exact .inl (Finset.mem_union_right cells hin)
      · exact (hsource' k hreached).imp_left (Finset.mem_union_left more)
  · obtain ⟨d, hd, hlasts, hcount⟩ := hfirst.keeps k c hr hc
    obtain ⟨e, he, hlasts', hcount'⟩ := hlast.keeps k d (hcarried hr) hd
    refine ⟨e, he, hlasts.trans hlasts', fun hk => ?_⟩
    rw [hcount' hk, hcount hk, holds_union hdisjoint, holds_congr hslots, Nat.add_comm,
      Function.iterate_add_apply]

end CreatesBeside

theorem CreatesBeside.written (hw : heap.CreatesBeside mid source start cells) (hr : mid.Refers heap' t f news)
    (ht : t ∈ cells) (hnews : ∀ k ∈ news, k = .nil ∨ k ∈ cells ∨ heap.ReachedFrom source k) :
    heap.CreatesBeside heap' source start cells := by
  have hslots : ∀ s ∈ cells, ∀ k, k ≠ .nil →
      (heap'.slotsAt s).count k = (mid.slotsAt s).count k + if s = t then news.count k else 0 := by
    intro s hs k hk
    obtain ⟨d, hd, -⟩ := hw.made s hs
    obtain ⟨e, he, htakes⟩ := hr.takes_any hd
    rw [slotsAt_of_content he rfl, slotsAt_of_content hd rfl, htakes.edges k hk]
    split <;> simp
  have hholds : ∀ k, k ≠ .nil → heap'.holds cells k = mid.holds cells k + news.count k := by
    intro k hk
    rw [holds, Finset.sum_congr rfl fun s hs => hslots s hs k hk, Finset.sum_add_distrib,
      Finset.sum_ite_eq' cells t, if_pos ht]
    rfl
  have hraised : ∀ k, k ≠ .nil → ∀ r, RefCount.increment^[news.count k]
      (RefCount.increment^[mid.holds cells k] r) = RefCount.increment^[heap'.holds cells k] r := by
    intro k hk r
    rw [hholds k hk, Nat.add_comm, Function.iterate_add_apply]
  obtain ⟨es, hes, hclaims⟩ := hw.claims
  obtain ⟨fs, hfs⟩ := hr.lives
  refine ⟨⟨es ++ fs, hes.trans hfs, fun s hs => (hclaims s hs).imp fun _ => List.mem_append_left fs⟩,
    hw.ne_nil, hw.fresh, fun s hs => ?_, fun s hs k hk => ?_, fun k c hreached hc => ?_⟩
  · obtain ⟨d, hd, hperm, hcopied, hcount⟩ := hw.made s hs
    obtain ⟨e, he, -, hcount'⟩ := hr.counts s d hd
    obtain ⟨e', he', htakes⟩ := hr.takes_any hd
    rw [he, Option.some.injEq] at he'
    subst he'
    have hs' := hw.ne_nil s hs
    exact ⟨e, he, htakes.permanent.trans hperm, htakes.isShared.trans hcopied,
      by rw [hcount' hs', hcount, hraised s hs']⟩
  · by_cases hnil : k = .nil
    · exact .inl hnil
    · have hpos := List.count_pos_iff.mpr hk
      rw [hslots s hs k hnil] at hpos
      by_cases hold : k ∈ mid.slotsAt s
      · exact hw.within s hs k hold
      · rw [List.count_eq_zero.mpr hold] at hpos
        split at hpos
        · exact hnews k (List.count_pos_iff.mp (by omega))
        · omega
  · obtain ⟨d, hd, hlasts, hcount⟩ := hw.keeps k c hreached hc
    obtain ⟨e, he, -, hcount'⟩ := hr.counts k d hd
    obtain ⟨e', he', hsame⟩ := hr.other (fun hkt => hw.fresh t ht (hkt ▸ hreached)) hd
    rw [he, Option.some.injEq] at he'
    subst he'
    exact ⟨e, he, hlasts.trans (.of_content hsame), fun hk => by
      rw [hcount' hk, hcount hk, hraised k hk]⟩

theorem Provides.slots_nil {kind : Kind} {length : Nat} {kept : List Handle}
    (hp : heap.Provides heap' kind length kept t)
    (hcopied : ∀ payload, (Cell.blank kind payload).isShared = false) :
    ∀ k ∈ heap'.slotsAt t, k = .nil := by
  obtain ⟨payload, hpayload, hblank⟩ := hp.blank
  obtain ⟨d, hd, hseen⟩ := graph_eq_some.mp hblank
  intro k hk
  rw [slotsAt_of_content (c := .blank kind payload) hd (by rw [← Cell.content_seen d, hseen])] at hk
  rcases List.mem_cons.mp hk with hnil | hchild
  · exact hnil
  · exact Payload.children_blank hpayload (hcopied payload) hchild

theorem Provides.createsBeside {kind : Kind} {length : Nat} {kept : List Handle}
    (hp : heap.Provides heap' kind length kept t) (hnil : t ≠ .nil)
    (hcopied : ∀ payload, (Cell.blank kind payload).isShared = false)
    (hstart : ∀ p, start p → heap.Rooted p ∨ p ∈ kept) : heap.CreatesBeside heap' source start {t} := by
  have hslots := hp.slots_nil hcopied
  obtain ⟨payload, -, hblank⟩ := hp.blank
  obtain ⟨d, hd, hseen⟩ := graph_eq_some.mp hblank
  have hperm : d.flags.permanent = false :=
    (congrArg (fun c : Cell => c.header.flags.permanent) hseen :)
  have hsame : d.content = (Cell.blank kind payload).content := by
    rw [← Cell.content_seen d, hseen]
  have hholds : ∀ k, k ≠ .nil → heap'.holds {t} k = 0 := fun k hk => holds_eq_zero fun s hs hmem =>
    hk (hslots k (Finset.mem_singleton.mp hs ▸ hmem))
  obtain ⟨es, hlives, hmem⟩ := hp.claims
  refine ⟨⟨es, hlives, fun s hs => ⟨kind, Finset.mem_singleton.mp hs ▸ hmem⟩⟩,
    fun s hs => Finset.mem_singleton.mp hs ▸ hnil, fun s hs => ?_, fun s hs => ?_,
    fun s hs k hk => ?_, fun k c hr hc => ?_⟩
  · obtain rfl := Finset.mem_singleton.mp hs
    exact hp.unrooted start hstart
  · obtain rfl := Finset.mem_singleton.mp hs
    refine ⟨d, hd, hperm, (Cell.Lasts.of_content hsame).isShared.trans (hcopied payload), ?_⟩
    rw [hholds s hnil]
    exact (congrArg (fun c : Cell => c.header.refcount) hseen :)
  · obtain rfl := Finset.mem_singleton.mp hs
    exact .inl (hslots k hk)
  · obtain ⟨e, he, hlasts, hcount⟩ := hp.conserves start hstart k c hr hc
    exact ⟨e, he, hlasts, fun hk => by rw [hholds k hk]; exact hcount⟩

/-- The heaps differ beside the objects. -/
structure SameObjectsAside (heap heap' : Heap) : Prop where
  arena : heap'.arena = heap.arena
  generations : heap'.generations = heap.generations
  cells : heap'.journal.ofCells = heap.journal.ofCells

namespace SameObjectsAside

theorem refl : heap.SameObjectsAside heap := ⟨rfl, rfl, rfl⟩

theorem get? (hl : heap.SameObjectsAside heap') (k : Handle) : heap'.arena.get? k = heap.arena.get? k := by
  rw [hl.arena]

theorem reached (hl : heap.SameObjectsAside heap') : heap'.ReachedFrom start k ↔ heap.ReachedFrom start k := by
  constructor
  · intro hr
    induction hr with
    | start hs hc => exact .start hs (hl.get? _ ▸ hc)
    | edge _ hc hperm hk hd ih => exact .edge ih (hl.get? _ ▸ hc) hperm hk (hl.get? _ ▸ hd)
  · intro hr
    induction hr with
    | start hs hc => exact .start hs ((hl.get? _).trans hc)
    | edge _ hc hperm hk hd ih =>
      exact .edge ih ((hl.get? _).trans hc) hperm hk ((hl.get? _).trans hd)

theorem slotsAt (hl : heap.SameObjectsAside heap') (t : Handle) : heap'.slotsAt t = heap.slotsAt t := by
  unfold Heap.slotsAt
  rw [hl.get?]

theorem lives (hl : heap.SameObjectsAside heap') : heap.Lives [] heap' := .aside hl.arena hl.generations hl.cells

end SameObjectsAside

theorem CreatesBeside.around {first last : Heap} (hbefore : first.SameObjectsAside heap)
    (hw : heap.CreatesBeside heap' source start cells) (hafter : heap'.SameObjectsAside last) :
    first.CreatesBeside last source start cells := by
  have hholds : ∀ k, last.holds cells k = heap'.holds cells k :=
    fun k => holds_congr fun t _ => hafter.slotsAt t
  obtain ⟨es, hes, hclaims⟩ := hw.claims
  refine ⟨⟨es, ?_, hclaims⟩, hw.ne_nil, fun t ht hr => hw.fresh t ht (hbefore.reached.mpr hr),
    fun t ht => ?_, fun t ht k hk => ?_, fun k c hr hc => ?_⟩
  · simpa using (hbefore.lives.trans hes).trans hafter.lives
  · rw [hholds, hafter.get?]
    exact hw.made t ht
  · rw [hafter.slotsAt] at hk
    exact (hw.within t ht k hk).imp_right (Or.imp_right hbefore.reached.mp)
  · rw [hholds, hafter.get?]
    exact hw.keeps k c (hbefore.reached.mpr hr) ((hbefore.get? k).trans hc)

end Heap

namespace Cell

theorem visible_classed (flags : Flags) : Visible (classed flags) := by
  refine ⟨fun c d he => ?_, fun _ => rfl⟩
  exact congrArg (fun c : Cell => (c.mapFlags fun fs => { fs with
    object := fs.object || flags.object, s4Object := fs.s4Object || flags.s4Object })) he

theorem takes_classed (flags : Flags) (c : Cell) : c.Takes (c.classed flags) [] :=
  ⟨rfl, rfl, rfl, fun _ _ => rfl⟩

end Cell

namespace HeapM

variable {heap heap' : Heap} {t : Handle} {u : PUnit}

theorem refers_classed {flags : Flags}
    (hrun : (updateCell t (Cell.classed flags)).run heap = .ok (u, heap')) :
    heap.Refers heap' t (Cell.classed flags) [] := by
  obtain ⟨-, hr⟩ := redrawn_updateCell (Cell.classed flags) (fun _ => rfl)
    (Cell.seen_classed flags) hrun
  have hretouches : Retouches (updateCell t (Cell.classed flags)) :=
    .updateCell fun _ _ => .header rfl rfl rfl rfl rfl rfl
  exact .of_counts hr ⟨[], (hretouches _ _ _ hrun).act.lives⟩
    (Cell.visible_classed flags) .refl fun c _ => Cell.takes_classed flags c

end HeapM

end ManagedHeap
