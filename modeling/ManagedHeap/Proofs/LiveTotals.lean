import Mathlib.Algebra.BigOperators.Group.List.Basic
import ManagedHeap.Proofs.Collection

/-!
# Totals over the live objects

The counters of a heap see three things of an object: its kind, its generation and its length.
A total adds up a weight over all live objects. One changed cell changes a total by what the
weights of that cell differ, so a counter that follows the cell keeps agreeing with its total.
-/

namespace ManagedHeap

/-- What the counters see of an object. -/
structure Footprint where
  kind : Kind
  generation : Generation
  length : Nat
deriving DecidableEq

namespace Footprint

def nodeClass (f : Footprint) : NodeClass := .forRequest f.kind f.length

def chunks (f : Footprint) : Nat := if f.nodeClass.isLarge then vectorChunks f.kind f.length else 0

end Footprint

namespace Cell

def footprint (c : Cell) : Footprint := ⟨c.kind, c.header.generation, c.payload.length⟩

theorem length_forgetting (p : Payload) : p.forgetting.length = p.length := by cases p <;> rfl

theorem footprint_unlinked (c : Cell) : c.unlinked.footprint = c.footprint := by
  unfold unlinked
  split <;> rfl

theorem footprint_of_unlinked {c d : Cell} (he : d.unlinked = c.unlinked) :
    d.footprint = c.footprint := by
  rw [← footprint_unlinked d, he, footprint_unlinked]

end Cell

namespace Arena

variable {a b : Arena} {h k : Handle} {w : Handle → Footprint → Nat}

/-- The footprint of the live object that a handle names. -/
def footprint? (a : Arena) (h : Handle) : Option Footprint := (a.get? h).map Cell.footprint

def share (a : Arena) (w : Handle → Footprint → Nat) (h : Handle) : Nat :=
  ((a.footprint? h).map (w h)).getD 0

def total (a : Arena) (w : Handle → Footprint → Nat) : Nat := (a.positions.map (a.share w)).sum

theorem footprint?_of_get? {c : Cell} (hc : a.get? h = some c) : a.footprint? h = some c.footprint := by
  rw [footprint?, hc, Option.map_some]

theorem footprint?_of_none (hc : a.get? h = none) : a.footprint? h = none := by
  rw [footprint?, hc, Option.map_none]

theorem share_of_footprint? {f : Footprint} (hf : a.footprint? h = some f) : a.share w h = w h f := by
  rw [share, hf, Option.map_some, Option.getD_some]

theorem share_of_get? {c : Cell} (hc : a.get? h = some c) : a.share w h = w h c.footprint :=
  share_of_footprint? (footprint?_of_get? hc)

theorem share_of_none (hc : a.get? h = none) : a.share w h = 0 := by
  rw [share, footprint?_of_none hc]
  rfl

theorem share_congr (hf : b.footprint? h = a.footprint? h) : b.share w h = a.share w h := by
  rw [share, hf, share]

theorem total_congr (hs : b.shape = a.shape) (hw : ∀ h, b.share w h = a.share w h) :
    b.total w = a.total w := by
  rw [total, positions_of_shape hs, funext hw]
  rfl

theorem total_change (ht : a.Tidy) (hs : b.shape = a.shape) (hin : h ∈ a.positions)
    (hrest : ∀ k, k ≠ h → b.footprint? k = a.footprint? k) :
    b.total w + a.share w h = a.total w + b.share w h := by
  have hnew : h ∉ a.positions.erase h := (positions_nodup ht).not_mem_erase
  have hothers : (a.positions.erase h).map (b.share w) = (a.positions.erase h).map (a.share w) :=
    List.map_congr_left fun k hk => share_congr (hrest k fun e => hnew (e ▸ hk))
  have hbefore := List.sum_map_erase (a.share w) hin
  have hafter := List.sum_map_erase (b.share w) hin
  rw [hothers] at hafter
  rw [total, total, positions_of_shape hs, ← hbefore, ← hafter]
  omega

theorem share_le_total (ht : a.Tidy) : a.share w h ≤ a.total w := by
  by_cases hin : h ∈ a.positions
  · exact Nat.le.intro (List.sum_map_erase (a.share w) hin)
  · have hnone : a.get? h = none := by
      by_contra hsome
      obtain ⟨c, hc⟩ := Option.ne_none_iff_exists'.mp hsome
      exact hin ((mem_positions ht).mpr ⟨c, (get?_eq_some.mp hc).1⟩)
    rw [share_of_none hnone]
    exact Nat.zero_le _

theorem total_addSegment {n : NodeClass} {i : Nat}
    (hs : a.addSegment? n = some (i, b)) : b.total w = a.total w := by
  obtain ⟨hfew, hsegments, -⟩ := addSegment?_eq_some hs
  have hshare : b.share w = a.share w :=
    funext fun k => share_congr (by rw [footprint?, get?_addSegment hs, footprint?])
  have hcolumn : ∀ j ∈ List.range a.segments.size, b.column j = a.column j := by
    intro j hj
    have hne : j ≠ a.segments.size := Nat.ne_of_lt (List.mem_range.mp hj)
    simp only [column, hsegments, Array.getElem?_push, if_neg hne]
  have hpositions : b.positions = a.positions ++ b.column a.segments.size := by
    change (List.range b.segments.size).flatMap b.column = _
    rw [hsegments, Array.size_push, List.range_succ, List.flatMap_append, List.flatMap_singleton,
      List.flatMap_congr hcolumn]
    rfl
  have hfree : ∀ x ∈ (b.column a.segments.size).map (a.share w), x = 0 := by
    intro x hx
    obtain ⟨h, hh, rfl⟩ := List.mem_map.mp hx
    obtain ⟨o, -, rfl⟩ := List.mem_map.mp hh
    refine share_of_none ?_
    have hseg : (Handle.pack a.segments.size o).segment = a.segments.size := by
      apply Handle.segment_pack
      simp only [maxSegments] at hfew
      omega
    by_contra hsome
    obtain ⟨c, hc⟩ := Option.ne_none_iff_exists'.mp hsome
    exact Nat.lt_irrefl _ (hseg ▸ segment_lt (get?_eq_some.mp hc).1)
  rw [total, hshare, hpositions, List.map_append, List.sum_append, List.sum_eq_zero hfree]
  rfl

end Arena

end ManagedHeap
