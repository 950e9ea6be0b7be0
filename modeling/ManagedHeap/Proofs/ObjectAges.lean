import ManagedHeap.Proofs.SessionHistories
import ManagedHeap.Proofs.QuietComputations
import ManagedHeap.Proofs.ReachedObjects

/-!
# The age of objects

A collection moves what it covers on to the next generation and leaves the rest where it is, as
it is. So an object only ever grows older, over the whole history of a heap, and the mark that
a collection sets on what it reaches is gone when it returns.
-/

namespace ManagedHeap

namespace Heap

/-- No object carries the mark of a collection. -/
def Unmarked (heap : Heap) : Prop :=
  ∀ {h c}, heap.arena.get? h = some c → c.flags.marked = false

/-- What a collection does to the generations: what is alive afterwards was alive before and has
not grown younger, the covered objects are moved on, and what is older than that, or permanent,
stays where it is and as it is. -/
structure Promotes (level : Level) (heap heap' : Heap) : Prop where
  came : ∀ {h d}, heap'.arena.get? h = some d →
    ∃ c, heap.arena.get? h = some c ∧ c.header.generation.index ≤ d.header.generation.index
  covered : ∀ {h c d}, heap.arena.get? h = some c → heap'.arena.get? h = some d →
    c.flags.permanent = false → level.covers c.header.generation = true →
    d.header.generation.index = min (level.index + 1) 2
  older : ∀ {h c}, heap.arena.get? h = some c →
    h ∈ [Handle.nil, .unbound] ∨ level.covers c.header.generation = false →
    ∃ d, heap'.arena.get? h = some d ∧ d.header.generation = c.header.generation ∧ c.Endures d

theorem Sound.unmarked {heap : Heap} (hs : heap.Sound) : heap.Unmarked :=
  fun hc => (hs.proper hc).unmarked

theorem Sound.permanent_of_mem {heap : Heap} {h : Handle} {c : Cell} (hs : heap.Sound)
    (hc : heap.arena.get? h = some c) (hh : h ∈ [Handle.nil, .unbound]) :
    c.flags.permanent = true := by
  simp only [List.mem_cons, List.not_mem_nil, or_false] at hh
  rcases hh with rfl | rfl
  · obtain ⟨d, hd, hperm⟩ := hs.nilLive
    exact Option.some.inj (hd.symm.trans hc) ▸ hperm
  · obtain ⟨d, hd, hperm⟩ := hs.unboundLive
    exact Option.some.inj (hd.symm.trans hc) ▸ hperm

end Heap

namespace Collected

variable {level : Level} {records : List Handle} {heap heap' : Heap} {o : Outcome} {h : Handle}
  {c d : Cell}

theorem endures_of_not_sweeps (hcol : Collected level records heap heap' o)
    (hc : heap.arena.get? h = some c) (hsweeps : level.sweeps c = false) :
    ∃ d, heap'.arena.get? h = some d ∧ d.header.generation = c.header.generation ∧
      c.Endures d := by
  obtain ⟨d, hd⟩ := hcol.stayed hc (.inl hsweeps)
  have hsurvives := hcol.same hc hd
  refine ⟨d, hd, ?_, hsurvives.endures⟩
  rw [hsurvives.generation, hsweeps, if_neg Bool.false_ne_true]

theorem promotes (hcol : Collected level records heap heap' o) (hs : heap.Sound) :
    heap.Promotes level heap' where
  came hd := by
    obtain ⟨c, hc, -⟩ := hcol.came hd
    exact ⟨c, hc, index_le (hcol.same hc hd)⟩
  covered {h c d} hc hd hperm hcovers := by
    have hlive := (Arena.get?_eq_some.mp hc).2
    have hsweeps : level.sweeps c = true := by
      rw [Level.sweeps, hlive, hperm, hcovers]
      rfl
    rw [(hcol.same hc hd).generation, if_pos hsweeps, Level.index_promotionTarget]
  older {h c} hc hold := by
    refine hcol.endures_of_not_sweeps hc ?_
    rcases hold with hh | hcovers
    · rw [Level.sweeps, hs.permanent_of_mem hc hh, Bool.not_true, Bool.and_false, Bool.false_and]
    · rw [Level.sweeps, hcovers, Bool.and_false]

theorem unmarked (hcol : Collected level records heap heap' o) : heap'.Unmarked := by
  intro h d hd
  obtain ⟨c, hc, -⟩ := hcol.came hd
  exact (hcol.same hc hd).unmarked

end Collected

namespace Heap

open Arena

variable {heap heap' : Heap} {es : List Entry} {h : Handle} {c : Cell}

theorem Act.ages (ha : Act es heap heap') (hc : heap.arena.get? h = some c)
    (hkept : ∀ kind, Entry.freed h kind ∉ es) :
    ∃ d, heap'.arena.get? h = some d ∧
      c.header.generation.index ≤ d.header.generation.index := by
  cases ha with
  | retouch hr =>
    have hfootprint := hr.footprints h
    rw [footprint?_of_get? hc, footprint?, Option.map_eq_some_iff] at hfootprint
    obtain ⟨d, hd, hsame⟩ := hfootprint
    have hgeneration : d.header.generation = c.header.generation :=
      congrArg Footprint.generation hsame
    exact ⟨d, hd, Nat.le_of_eq (by rw [hgeneration])⟩
  | grow hrun => exact ⟨c, by rw [(HeapM.beside_grow hrun).1.cells, hc], Nat.le_refl _⟩
  | @claim _ _ _ _ _ k hs hkind _ hrun =>
    obtain ⟨hdead, hcells⟩ := claimed hs hkind hrun
    have hk : h ≠ k := by
      rintro rfl
      cases hdead.symm.trans hc
    exact ⟨c, by rw [hcells, if_neg hk, hc], Nat.le_refl _⟩
  | collect hs hrun =>
    obtain ⟨records, hcol⟩ := HeapM.collect_collected hs hrun
    cases hd : heap'.arena.get? h with
    | some d => exact ⟨d, rfl, Collected.index_le (hcol.same hc hd)⟩
    | none =>
      have hmem : Entry.freed h c.kind ∈ Entry.about h ((heap.losses heap').map .loss) := by
        rw [about_losses hs.tidy, hc, Option.filter_some, contains, hd]
        exact List.mem_singleton.mpr rfl
      exact absurd (List.mem_append_left _ (List.mem_of_mem_filter hmem)) (hkept c.kind)

theorem Lives.ages (hl : heap.Lives es heap') (hc : heap.arena.get? h = some c)
    (hkept : ∀ kind, Entry.freed h kind ∉ es) :
    ∃ d, heap'.arena.get? h = some d ∧
      c.header.generation.index ≤ d.header.generation.index := by
  induction hl with
  | refl => exact ⟨c, hc, Nat.le_refl _⟩
  | tail _ hlast ih =>
    obtain ⟨e, he, hfirst⟩ := ih hc fun kind hm => hkept kind (List.mem_append_left _ hm)
    obtain ⟨d, hd, hnext⟩ := hlast.ages he fun kind hm => hkept kind (List.mem_append_right _ hm)
    exact ⟨d, hd, Nat.le_trans hfirst hnext⟩

end Heap

namespace Session

/-- In every state of a session no object carries a mark, and commands keep that at any depth of
scripts. Every collection promotes what it covers, leaves older objects alone, and leaves no mark.
Over the history of a heap no object grows younger before it is freed. -/
theorem collections_promote :
    (∀ {state heap}, Reachable state heap → heap.Unmarked ∧ heap.Traced) ∧
    (∀ {levels step state state' heap heap' reply}, Heap.Sound heap →
      ((runStep (hostWithin levels) step).run state).run heap = .ok ((reply, state'), heap') →
        heap'.Sound ∧ heap'.Unmarked) ∧
    (∀ {heap heap' level reason o}, Heap.Sound heap →
      (HeapM.collect level reason).run heap = .ok (o, heap') →
        heap.Promotes level heap' ∧ heap'.Unmarked) ∧
    ∀ {heap heap' es h c}, Heap.Lives es heap heap' → heap.arena.get? h = some c →
      (∀ kind, Entry.freed h kind ∉ es) → ∃ d, heap'.arena.get? h = some d ∧
        c.header.generation.index ≤ d.header.generation.index := by
  refine ⟨fun hr => ⟨hr.sound.unmarked, hr.traced⟩, fun hs hrun => ?_, fun hs hrun => ?_,
    fun hl hc hkept => hl.ages hc hkept⟩
  · have hafter := runStep_safe (hostWithin_safe _) _ _ _ _ _ hs hrun
    exact ⟨hafter, hafter.unmarked⟩
  · obtain ⟨records, hcol⟩ := HeapM.collect_collected hs hrun
    exact ⟨hcol.promotes hs, hcol.unmarked⟩

/-- A pair that a collection has moved on, and one that is new. -/
def pairsOfTwoAges : List Step :=
  let pair := .request (.cons (.handle .nil) (.handle .nil))
  [.command pair none, .command (.preserve (.handle ⟨2⟩)) none, .command (.collect .minor) none,
    .command pair none, .command (.preserve (.handle ⟨3⟩)) none]

/-- A minor collection moves the new pair on, and the older one stays where it is. -/
theorem collections_promote_pairs : ∃ heap o heap' c d e f,
    collected { segmentCells := 4 } pairsOfTwoAges .minor = .ok (heap, o, heap') ∧
    heap.arena.get? ⟨2⟩ = some c ∧ c.header.generation = .middle ∧
    heap'.arena.get? ⟨2⟩ = some d ∧ d.header.generation = .middle ∧ c.Endures d ∧
    heap.arena.get? ⟨3⟩ = some e ∧ e.header.generation = .young ∧
    heap'.arena.get? ⟨3⟩ = some f ∧ f.header.generation.index = 1 ∧
    heap.Unmarked ∧ heap'.Unmarked := by
  obtain ⟨⟨heap, o, heap'⟩, hcollected, htest⟩ := except_of_test
    (x := collected { segmentCells := 4 } pairsOfTwoAges .minor)
    (p := fun p : Heap × Outcome × Heap =>
      ((p.1.arena.get? ⟨2⟩).any fun c : Cell => decide (c.header.generation = .middle)) &&
      ((p.1.arena.get? ⟨3⟩).any fun c : Cell =>
        decide (c.header.generation = .young) && !c.flags.permanent) &&
      decide (p.1.losses p.2.2 = []))
    (by decide +kernel)
  obtain ⟨ho, hrun⟩ := collected_eq_ok hcollected
  obtain ⟨state, hr⟩ := reachable_of_opened rfl ho
  simp only [Bool.and_eq_true, decide_eq_true_eq, Option.any_eq_true, Bool.not_eq_true'] at htest
  obtain ⟨⟨⟨c, hc, hmiddle⟩, e, he, hyoung, hperm⟩, hlost⟩ := htest
  obtain ⟨hstates, -, hcollects, hhistories⟩ := collections_promote
  obtain ⟨hpromotes, hafter⟩ := hcollects hr.sound hrun
  obtain ⟨d, hd, hsame, hendures⟩ := hpromotes.older hc (.inr (by rw [hmiddle]; rfl))
  have hlives := (Heap.Act.collect hr.sound hrun).lives
  rw [hlost] at hlives
  obtain ⟨f, hf, -⟩ := hhistories hlives he (by simp)
  have hmoved := hpromotes.covered he hf hperm (by rw [hyoung]; rfl)
  exact ⟨heap, o, heap', c, d, e, f, hcollected, hc, hmiddle, hd, hsame.trans hmiddle, hendures, he,
    hyoung, hf, hmoved, (hstates hr).1, hafter⟩

end Session

end ManagedHeap
