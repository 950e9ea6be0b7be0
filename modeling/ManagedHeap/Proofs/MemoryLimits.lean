import Mathlib.Algebra.Order.BigOperators.Group.List
import Mathlib.Algebra.Order.Group.Nat
import ManagedHeap.Proofs.HeapHistories

/-!
# Limits on memory

A configuration may limit the cells of the arena and the big chunks of the live objects. Two acts
take up more of either: the arena grows, right after the limit on cells was tested, and a cell is
claimed for a request whose chunks were tested before. A collection leaves the arena as large as
it is and can only give back chunks. So a heap that starts within its limits never exceeds them.
-/

namespace ManagedHeap

/-- The heap has no more cells and no more big chunks than its configuration allows. -/
structure Heap.Bounded (heap : Heap) : Prop where
  cells : ∀ limit, heap.config.maxCells = some limit → heap.arena.capacity ≤ limit
  chunks : ∀ limit, heap.config.maxVectorChunks = some limit → heap.bigChunksLive ≤ limit

/-- The heap is bounded, and so was every heap since it was new: after each act of its history,
under one configuration. -/
inductive Heap.Contained : Heap → Prop
  | born {heap : Heap} : heap.Born → heap.Bounded → Contained heap
  | act {es : List Entry} {heap heap' : Heap} : Contained heap → Act es heap heap' →
      heap'.config = heap.config → heap'.Bounded → Contained heap'

theorem Heap.Contained.bounded {heap : Heap} (hc : heap.Contained) : heap.Bounded := by
  cases hc with
  | born _ hb => exact hb
  | act _ _ _ hb => exact hb

namespace Arena

variable {a b : Arena} {w v : Handle → Footprint → Nat}

theorem share_add (h : Handle) :
    a.share (fun h f => w h f + v h f) h = a.share w h + a.share v h := by
  unfold share
  cases a.footprint? h <;> rfl

theorem total_add : a.total (fun h f => w h f + v h f) = a.total w + a.total v := by
  rw [total, funext share_add, List.sum_map_add, total, total]

theorem total_le (hs : b.shape = a.shape) (hw : ∀ h, b.share w h ≤ a.share w h) :
    b.total w ≤ a.total w := by
  rw [total, positions_of_shape hs]
  exact List.sum_le_sum fun h _ => hw h

end Arena

theorem Heap.CountersMatch.bigChunksLive {heap : Heap} (hb : heap.CountersMatch) :
    heap.bigChunksLive = heap.arena.total fun _ f => f.chunks := by
  have hsplit : (fun (_ : Handle) (f : Footprint) => f.chunks) = fun h f =>
      Arena.chunksIn .young h f + Arena.chunksIn .middle h f + Arena.chunksIn .old h f := by
    funext h f
    unfold Arena.chunksIn
    cases f.generation <;> simp
  rw [hsplit, Arena.total_add, Arena.total_add, ← hb.bigChunks .young, ← hb.bigChunks .middle,
    ← hb.bigChunks .old]
  rfl

namespace Collected

open Arena

variable {level : Level} {records : List Handle} {heap heap' : Heap} {o : Outcome}

theorem config (hcol : Collected level records heap heap' o) : heap'.config = heap.config := by
  obtain ⟨_, _, _, _, _, _, _, rfl⟩ := hcol.rest
  rfl

theorem share_chunks_le (hcol : Collected level records heap heap' o) (h : Handle) :
    heap'.arena.share (fun _ f => f.chunks) h ≤ heap.arena.share (fun _ f => f.chunks) h := by
  cases hd : heap'.arena.get? h with
  | none => exact (share_of_none hd).trans_le (Nat.zero_le _)
  | some d =>
    obtain ⟨c, hc, -⟩ := hcol.came hd
    have hsame := (hcol.same hc hd).lasting
    have hlength : d.payload.length = c.payload.length := by
      rw [← Cell.length_forgetting d.payload, Cell.forgetting_of_lasting hsame,
        Cell.length_forgetting]
    have hchunks : d.footprint.chunks = c.footprint.chunks :=
      congrArg₂ (fun kind length => Footprint.chunks ⟨kind, .young, length⟩)
        (Cell.kind_of_lasting hsame) hlength
    rw [share_of_get? hc, share_of_get? hd, hchunks]

end Collected

namespace Heap.Bounded

variable {heap heap' : Heap}

theorem amended (hb : heap.Bounded) (hr : heap.Amends heap') : heap'.Bounded where
  cells := by
    rw [hr.config, Arena.capacity_of_shape (Arena.shape_of_books hr.books)]
    exact hb.cells
  chunks := by
    rw [hr.config, bigChunksLive, hr.generations]
    exact hb.chunks

theorem grown {n : NodeClass} {room : Bool} (hb : heap.Bounded)
    (hrun : (HeapM.grow n).run heap = .ok (room, heap')) :
    heap'.config = heap.config ∧ heap'.bigChunksLive = heap.bigChunksLive ∧ heap'.Bounded := by
  rcases HeapM.run_growth hrun with ⟨-, rfl⟩ | ⟨⟨-, hroom⟩, i, arena, event, hsegment, rfl⟩
  · exact ⟨rfl, rfl, hb⟩
  · obtain ⟨-, hsegments, hcells, -⟩ := Arena.addSegment?_eq_some hsegment
    refine ⟨rfl, rfl, fun limit hlimit => ?_, hb.chunks⟩
    have hlarger : arena.capacity = heap.arena.capacity + heap.arena.segmentCells := by
      rw [Arena.capacity, hsegments, hcells, Array.size_push, Nat.succ_mul, Arena.capacity]
    exact hlarger.trans_le (hroom limit hlimit)

theorem claimed {n : NodeClass} {kind : Kind} {payload : Payload} {chunks : Nat}
    {claimed : Option Handle} (hb : heap.Bounded)
    (hspare : ∀ limit, heap.config.maxVectorChunks = some limit →
      chunks = 0 ∨ heap.bigChunksLive + chunks ≤ limit)
    (hrun : (HeapM.claimCell? n kind payload chunks).run heap = .ok (claimed, heap')) :
    heap'.config = heap.config ∧ heap'.Bounded := by
  rcases HeapM.run_claim hrun with ⟨-, rfl⟩ | ⟨h, arena, -, hclaim, rfl⟩
  · exact ⟨rfl, hb⟩
  · obtain ⟨-, hshape, -⟩ := Arena.claim?_eq_some hclaim
    refine ⟨rfl, fun limit hlimit => ?_, fun limit hlimit => ?_⟩
    · exact (Arena.capacity_of_shape hshape).trans_le (hb.cells limit hlimit)
    · have hlive := hb.chunks limit hlimit
      have hnow := hspare limit hlimit
      simp only [Heap.bigChunksLive, PerGeneration.modify] at hlive hnow ⊢
      omega

theorem collected {level : Level} {reason : Reason} {o : Outcome} (hb : heap.Bounded)
    (hs : heap.Sound) (hcountersMatch : heap.CountersMatch)
    (hrun : (HeapM.collect level reason).run heap = .ok (o, heap')) :
    heap'.config = heap.config ∧ heap'.Bounded := by
  obtain ⟨records, hcol⟩ := HeapM.collect_collected hs hrun
  have hshape := HeapM.collect_shape hs hrun
  have hconfig := hcol.config
  refine ⟨hconfig, fun limit hlimit => ?_, fun limit hlimit => ?_⟩
  · rw [Arena.capacity_of_shape hshape]
    exact hb.cells limit (hconfig ▸ hlimit)
  · rw [(HeapM.collect_countersMatch hs hcountersMatch hrun).bigChunksLive]
    refine (Arena.total_le hshape hcol.share_chunks_le).trans ?_
    rw [← hcountersMatch.bigChunksLive]
    exact hb.chunks limit (hconfig ▸ hlimit)

theorem of_born (hborn : heap.Born) : heap.Bounded := by
  obtain ⟨config, hash, fresh, hvalid, hbuild, hsame, -⟩ := hborn
  obtain ⟨arena, hcapacity, rfl⟩ := Heap.build_eq_ok hbuild
  rw [hsame]
  refine ⟨fun limit hlimit => ?_, fun limit _ => Nat.zero_le limit⟩
  exact hcapacity.trans_le (hvalid.room hlimit)

end Heap.Bounded

end ManagedHeap
