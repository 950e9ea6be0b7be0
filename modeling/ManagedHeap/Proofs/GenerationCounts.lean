import ManagedHeap.Proofs.AllocationInvariant
import ManagedHeap.Proofs.ArenaCounters

/-!
# The accounts of the generations

A generation counts its objects and their big chunks. The counters move with the objects: a
claim adds to the young generation, a promotion moves from one generation to another, and
a reclaimed cell is taken off. Over a collection the sweep does all of that one position at
a time, and at every position there is as much on the account as it takes off.
-/

namespace ManagedHeap

namespace Arena

def inGeneration (g : Generation) : Handle → Footprint → Nat :=
  fun _ f => if f.generation = g then 1 else 0

def chunksIn (g : Generation) : Handle → Footprint → Nat :=
  fun _ f => if f.generation = g then f.chunks else 0

end Arena

/-- The books of the arena and the accounts of the generations are right. -/
structure Heap.CountersMatch (heap : Heap) : Prop where
  arena : heap.arena.CountersMatch
  objects : ∀ g, (heap.generations.get g).objects = heap.arena.total (Arena.inGeneration g)
  bigChunks : ∀ g, (heap.generations.get g).bigChunks = heap.arena.total (Arena.chunksIn g)

/-- What is taken off the counters if the object of a handle goes is there. -/
structure Heap.CountersCover (heap : Heap) (h : Handle) (c : Cell) (large : Bool) : Prop where
  objects : 1 ≤ (heap.generations.get c.header.generation).objects
  bigChunks : HeapM.bigChunksOf large c ≤ (heap.generations.get c.header.generation).bigChunks
  segment : ∀ m, heap.arena.liveAt h.segment = some m → 1 ≤ m
  usage : ∀ n, heap.arena.classAt? h = some n → 1 ≤ (heap.arena.usage n).live

/-- The position lies in a segment for large objects. -/
def Arena.largeAt (a : Arena) (h : Handle) : Bool := (a.classAt? h).any NodeClass.isLarge

namespace Heap.CountersMatch

open Arena

variable {heap heap' mid : Heap} {h : Handle} {c d : Cell} {level : Level}

theorem congr (hb : heap.CountersMatch) (hbooks : heap'.arena.books = heap.arena.books)
    (hf : ∀ h, heap'.arena.footprint? h = heap.arena.footprint? h)
    (hg : heap'.generations = heap.generations) : heap'.CountersMatch := by
  have htotal : ∀ w, heap'.arena.total w = heap.arena.total w := fun w =>
    total_congr (shape_of_books hbooks) fun h => share_congr (hf h)
  refine ⟨hb.arena.congr hbooks fun h => by rw [hf], fun g => ?_, fun g => ?_⟩
  · rw [hg, htotal, hb.objects]
  · rw [hg, htotal, hb.bigChunks]

theorem aside (hb : heap.CountersMatch) (harena : heap'.arena = heap.arena)
    (hg : heap'.generations = heap.generations) : heap'.CountersMatch :=
  hb.congr (by rw [harena]) (fun h => by rw [harena]) hg

theorem sameBut {norm : Cell → Cell} (hb : heap.CountersMatch)
    (hab : SameBut norm heap.arena heap'.arena) (hn : ∀ c, (norm c).footprint = c.footprint)
    (hg : heap'.generations = heap.generations) : heap'.CountersMatch := by
  have hfree : ∀ c, (norm c).isFree = c.isFree := by
    intro c
    simp only [Cell.isFree, Header.isFree, show (norm c).header.kind = c.header.kind from
      congrArg Footprint.kind (hn c)]
  refine hb.congr hab.books (fun h => ?_) hg
  cases hc : heap.arena.get? h with
  | some c =>
    obtain ⟨d, hd, hdc⟩ := hab.get? hfree hc
    rw [footprint?_of_get? hc, footprint?_of_get? hd, ← hn d, hdc, hn]
  | none =>
    refine (footprint?_of_none ?_).trans (footprint?_of_none hc).symm
    by_contra hsome
    obtain ⟨d, hd⟩ := Option.ne_none_iff_exists'.mp hsome
    obtain ⟨c, hc', -⟩ := hab.symm.get? hfree hd
    cases hc.symm.trans hc'

theorem account (hb : heap.CountersMatch) (ht : heap.arena.Tidy)
    (hs : heap'.arena.shape = heap.arena.shape) (hin : h ∈ heap.arena.positions)
    (hrest : ∀ k, k ≠ h → heap'.arena.footprint? k = heap.arena.footprint? k)
    (hbooks : heap'.arena.CountersMatch)
    (hobjects : ∀ g, (heap'.generations.get g).objects + heap.arena.share (inGeneration g) h =
      (heap.generations.get g).objects + heap'.arena.share (inGeneration g) h)
    (hchunks : ∀ g, (heap'.generations.get g).bigChunks + heap.arena.share (chunksIn g) h =
      (heap.generations.get g).bigChunks + heap'.arena.share (chunksIn g) h) : heap'.CountersMatch := by
  have hchange := fun w => total_change (w := w) ht hs hin hrest
  refine ⟨hbooks, fun g => ?_, fun g => ?_⟩
  · have h₁ := hchange (inGeneration g)
    have h₂ := hobjects g
    have h₃ := hb.objects g
    omega
  · have h₁ := hchange (chunksIn g)
    have h₂ := hchunks g
    have h₃ := hb.bigChunks g
    omega

theorem chunks_eq (hb : heap.CountersMatch) (hc : heap.arena.get? h = some c) :
    HeapM.bigChunksOf (heap.arena.largeAt h) c = c.footprint.chunks := by
  rw [largeAt, hb.arena.placed (footprint?_of_get? hc)]
  rfl

theorem countersCover (hb : heap.CountersMatch) (ht : heap.arena.Tidy) (hc : heap.arena.get? h = some c) :
    heap.CountersCover h c (heap.arena.largeAt h) := by
  have hle := fun w => share_le_total (a := heap.arena) (w := w) (h := h) ht
  simp only [share_of_get? hc] at hle
  refine ⟨?_, ?_, fun m hm => ?_, fun n hn => ?_⟩
  · rw [hb.objects]
    exact (if_pos rfl).symm.trans_le (hle (inGeneration c.header.generation))
  · rw [hb.bigChunks, hb.chunks_eq hc]
    exact (if_pos rfl).symm.trans_le (hle (chunksIn c.header.generation))
  · rw [hb.arena.filled hm]
    exact (if_pos rfl).symm.trans_le (hle (inSegment h.segment))
  · rw [hb.arena.live]
    have hclass := (hb.arena.placed (footprint?_of_get? hc)).symm.trans hn
    exact (if_pos (Option.some.inj hclass)).symm.trans_le (hle (inClass n))

theorem grow {n : NodeClass} {room : Bool} (hb : heap.CountersMatch)
    (hrun : (HeapM.grow n).run heap = .ok (room, heap')) : heap'.CountersMatch := by
  rcases HeapM.grow_cases hrun with rfl | ⟨i, arena, event, hsegment, rfl⟩
  · exact hb
  · refine ⟨hb.arena.addSegment hsegment, fun g => ?_, fun g => ?_⟩
    · exact (hb.objects g).trans (total_addSegment hsegment).symm
    · exact (hb.bigChunks g).trans (total_addSegment hsegment).symm

end Heap.CountersMatch

namespace Payload

theorem forRequest_of_forKind? {kind : Kind} {length : Nat} {payload : Payload}
    (hp : forKind? kind length = some payload) :
    (kind.isVector = true → payload.length = length) ∧
      NodeClass.forRequest kind payload.length = NodeClass.forRequest kind length := by
  have hlength : kind.isVector = true → payload.length = length := by
    unfold forKind? at hp
    split at hp
    · exact nomatch hp
    · rw [Option.some.injEq] at hp
      subst hp
      cases kind <;> simp [Kind.isVector, Payload.length]
  refine ⟨hlength, ?_⟩
  unfold NodeClass.forRequest
  split
  · rename_i hvector
    rw [hlength hvector]
  · rfl

theorem chunksFor_of_forKind? {kind : Kind} {length : Nat} {payload : Payload} {g : Generation}
    (hp : forKind? kind length = some payload) :
    Footprint.chunks ⟨kind, g, payload.length⟩ = HeapM.chunksFor kind length := by
  obtain ⟨hlength, hclass⟩ := forRequest_of_forKind? hp
  simp only [Footprint.chunks, Footprint.nodeClass, HeapM.chunksFor, hclass]
  split
  · rename_i hlarge
    unfold NodeClass.forRequest at hlarge
    split at hlarge
    · rename_i hvector
      rw [hlength hvector]
    · exact nomatch hlarge
  · rfl

end Payload

namespace Heap.CountersMatch

open Arena

variable {heap heap' mid : Heap} {h : Handle} {c d : Cell} {level : Level}

theorem given {n : NodeClass} {header : Header} {payload : Payload} {arena : Arena}
    {f : Footprint} (hb : heap.CountersMatch) (ht : heap.arena.Tidy) (hkind : header.kind ≠ .free)
    (hf : f = ⟨header.kind, header.generation, payload.length⟩) (hclass : f.nodeClass = n)
    (hclaim : heap.arena.claim? n header payload = some (h, arena)) (harena : heap'.arena = arena)
    (hg : heap'.generations = heap.generations.modify f.generation fun u =>
      { objects := u.objects + 1, bigChunks := u.bigChunks + f.chunks }) : heap'.CountersMatch := by
  subst hf harena
  obtain ⟨free, hfree, hisFree⟩ := ht.claim_free hclaim
  obtain ⟨⟨rest, hhead, -⟩, hshape, hcells⟩ := claim?_eq_some hclaim
  have hin : h ∈ heap.arena.positions := (mem_positions ht).mpr ⟨free, hfree⟩
  have hdead : heap.arena.get? h = none := by simp [get?, hfree, hisFree]
  have hrest : ∀ k, k ≠ h → heap'.arena.footprint? k = heap.arena.footprint? k := by
    intro k hk
    rw [footprint?, get?, hcells, if_neg hk, footprint?, get?]
  have hnew : heap'.arena.footprint? h = some ⟨header.kind, header.generation, payload.length⟩ := by
    refine footprint?_of_get? (c := { header, payload }) (get?_eq_some.mpr ⟨?_, ?_⟩)
    · rw [hcells, if_pos rfl, hfree, Option.map_some]
    · simpa [Cell.isFree, Header.isFree] using hkind
  have hbooks : heap'.arena.CountersMatch := by
    refine hb.arena.count ht (claim?_counts hclaim) hin ?_ hrest (fun f hf => ?_) fun m _ => ?_
    · exact (ht.free _ h (hhead ▸ List.mem_cons_self)).1
    · obtain rfl := Option.some.inj (hnew.symm.trans hf)
      exact hclass
    · rw [share_of_none hdead, share_of_footprint? hnew]
      rfl
  refine hb.account ht hshape hin hrest hbooks (fun g => ?_) fun g => ?_
  · rw [hg, share_of_none hdead, share_of_footprint? hnew, PerGeneration.get_modify, inGeneration]
    by_cases hsame : g = header.generation
    · simp [hsame]
    · simp [hsame, Ne.symm hsame]
  · rw [hg, share_of_none hdead, share_of_footprint? hnew, PerGeneration.get_modify, chunksIn]
    by_cases hsame : g = header.generation
    · simp [hsame]
    · simp [hsame, Ne.symm hsame]

theorem claim {kind : Kind} {length chunks : Nat} {payload : Payload} {claimed : Option Handle}
    (hb : heap.CountersMatch) (ht : heap.arena.Tidy) (hkind : kind ≠ .free)
    (hp : Payload.forKind? kind length = some payload)
    (hchunks : chunks = HeapM.chunksFor kind length)
    (hrun : (HeapM.claimCell? (NodeClass.forRequest kind length) kind payload chunks).run heap =
      .ok (claimed, heap')) : heap'.CountersMatch := by
  rcases HeapM.run_claim hrun with ⟨-, rfl⟩ | ⟨h, arena, -, hclaim, rfl⟩
  · exact hb
  · refine hb.given (f := ⟨kind, .young, payload.length⟩) ht hkind rfl
      (Payload.forRequest_of_forKind? hp).2 hclaim rfl ?_
    rw [Payload.chunksFor_of_forKind? hp, ← hchunks]

theorem transferred {n : Generation → Nat} {x : Nat} {source target : Generation}
    (hx : x ≤ n source) (g : Generation) :
    (if g = target then (if g = source then n g - x else n g) + x
      else if g = source then n g - x else n g) + (if source = g then x else 0) =
      n g + if target = g then x else 0 := by
  by_cases hsource : g = source <;> by_cases htarget : g = target
  · subst hsource htarget
    simp only [if_true]
    omega
  · subst hsource
    simp only [if_true, if_neg htarget, if_neg (Ne.symm htarget)]
    omega
  · subst htarget
    simp only [if_true, if_neg hsource, if_neg (Ne.symm hsource)]
    omega
  · simp only [if_neg hsource, if_neg htarget, if_neg (Ne.symm hsource), if_neg (Ne.symm htarget)]

theorem taken {n : Generation → Nat} {x : Nat} {source : Generation} (hx : x ≤ n source)
    (g : Generation) :
    (if g = source then n g - x else n g) + (if source = g then x else 0) = n g := by
  by_cases hsource : g = source
  · subst hsource
    simp only [if_true]
    omega
  · simp only [if_neg hsource, if_neg (Ne.symm hsource), Nat.add_zero]

theorem promote {target : Generation} {chunks : Nat} {u : PUnit} (hb : heap.CountersMatch)
    (ht : heap.arena.Tidy) (hc : heap.arena.get? h = some c)
    (hchunks : chunks = c.footprint.chunks)
    (hrun : (HeapM.promote h c.header.generation target chunks).run heap = .ok (u, heap')) :
    heap'.CountersMatch := by
  have hpaid := hb.countersCover ht hc
  have hobjects := hpaid.objects
  have hbig := hpaid.bigChunks
  rw [hb.chunks_eq hc, ← hchunks] at hbig
  obtain ⟨-, rfl⟩ := HeapM.run_promote hrun
  have hself : (heap.arena.setCell h (Cell.promoted heap.tasks target h)).get? h =
      some (c.promoted heap.tasks target h) := get?_setCell_self hc (get?_eq_some.mp hc).2
  have hnew := footprint?_of_get? hself
  have hrest : ∀ k, k ≠ h → (heap.arena.setCell h (Cell.promoted heap.tasks target h)).footprint? k =
      heap.arena.footprint? k := by
    intro k hk
    rw [footprint?, get?_setCell_ne hk, footprint?]
  refine hb.account ht shape_setCell ((mem_positions ht).mpr ⟨c, (get?_eq_some.mp hc).1⟩) hrest
    (hb.arena.congr books_setCell fun k => ?_) (fun g => ?_) fun g => ?_
  · by_cases hk : k = h
    · subst hk
      rw [hnew, footprint?_of_get? hc]
      rfl
    · rw [hrest k hk]
  · rw [share_of_get? hc, share_of_footprint? hnew]
    simp only [PerGeneration.get_modify, apply_ite GenerationUsage.objects]
    exact transferred (n := fun g => (heap.generations.get g).objects) hobjects g
  · rw [share_of_get? hc, share_of_footprint? hnew]
    simp only [PerGeneration.get_modify, apply_ite GenerationUsage.bigChunks]
    subst hchunks
    exact transferred (n := fun g => (heap.generations.get g).bigChunks) hbig g

theorem reclaim {chunks : Nat} {u : PUnit} (hb : heap.CountersMatch) (ht : heap.arena.Tidy)
    (hc : heap.arena.get? h = some c) (hchunks : chunks = c.footprint.chunks)
    (hrun : (HeapM.reclaim h c.header.kind c.header.generation chunks).run heap = .ok (u, heap')) :
    heap'.CountersMatch := by
  have hpaid := hb.countersCover ht hc
  have hobjects := hpaid.objects
  have hbig := hpaid.bigChunks
  rw [hb.chunks_eq hc, ← hchunks] at hbig
  obtain ⟨arena, hrelease, rfl⟩ := HeapM.run_reclaim hrun
  obtain ⟨n, hclass, hcounts⟩ := release_counts hrelease
  obtain ⟨-, -, hshape, hcells⟩ := release_eq_ok hrelease
  have hdead : arena.get? h = none := by
    rw [get?, hcells, if_pos rfl, (get?_eq_some.mp hc).1]
    rfl
  have hrest : ∀ k, k ≠ h → arena.footprint? k = heap.arena.footprint? k := by
    intro k hk
    rw [footprint?, get?, hcells, if_neg hk, footprint?, get?]
  have hin : h ∈ heap.arena.positions := (mem_positions ht).mpr ⟨c, (get?_eq_some.mp hc).1⟩
  have hbooks : arena.CountersMatch := by
    refine hb.arena.count ht hcounts hin hclass hrest (fun f hf => ?_) fun m hm => ?_
    · cases (footprint?_of_none hdead).symm.trans hf
    · rw [share_of_get? hc] at hm ⊢
      rw [share_of_none hdead]
      exact Nat.sub_add_cancel hm
  refine hb.account ht hshape hin hrest hbooks (fun g => ?_) fun g => ?_
  · rw [share_of_get? hc, share_of_none hdead]
    simp only [PerGeneration.get_modify, apply_ite GenerationUsage.objects]
    exact taken (n := fun g => (heap.generations.get g).objects) hobjects g
  · rw [share_of_get? hc, share_of_none hdead]
    simp only [PerGeneration.get_modify, apply_ite GenerationUsage.bigChunks]
    subst hchunks
    exact taken (n := fun g => (heap.generations.get g).bigChunks) hbig g

end Heap.CountersMatch

end ManagedHeap
