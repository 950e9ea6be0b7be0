import ManagedHeap.Proofs.SessionEffects
import ManagedHeap.Proofs.TasksAcrossCollections
import ManagedHeap.Proofs.PermanentObjects

/-!
# Sharing is not under-reported

An object that more than one slot holds has a count that says so, unless it lost a reference that
was not due. Operations that pay for the slots they fill need no entry in the history of the counts;
of the others it tells what they did to which object.
-/

namespace ManagedHeap

open Arena

namespace Heap

variable {heap mid heap' : Heap}

/-- An operation that pays for the slots it fills, or a new segment. -/
def Pays (heap heap' : Heap) : Prop :=
  heap.SoundWithHistory ∧ (heap.Effect true heap' ∨ ∃ n room, (HeapM.grow n).run heap = .ok (room, heap'))

/-- How many slots of an object hold another one. The links of cached strings are none. -/
def slotsOf (heap : Heap) (o p : Handle) : Nat :=
  ((heap.arena.get? p).map fun c => (c.edges true).count o).getD 0

namespace CountsKept

theorem trans (hfirst : heap.CountsKept mid) (hlast : mid.CountsKept heap') : heap.CountsKept heap' :=
  ⟨fun h => (hlast.1 h).trans (hfirst.1 h), hfirst.2.trans hlast.2⟩

theorem beside (harena : heap'.arena = heap.arena) : heap.CountsKept heap' :=
  ⟨fun h => by rw [harena], .aside harena⟩

end CountsKept

end Heap

namespace HeapM

variable {heap heap' : Heap}

theorem Basic.countsKept {α : Type} {act : HeapM α} {a : α} (hb : act.Basic true) (hs : heap.Sound)
    (hrun : act.run heap = .ok (a, heap')) : heap.CountsKept heap' := by
  have hcountsKept : Retouches act → Settles act → heap.CountsKept heap' :=
    fun hr hsettles => ⟨(hr _ _ _ hrun).contains, hsettles _ _ _ hrun⟩
  cases hb
  case setCdr => exact hcountsKept .setCdr .setCdr
  case setTag => exact hcountsKept .setTag .setTag
  case setFrame => exact hcountsKept .setFrame .setFrame
  case setAttrib => exact hcountsKept .setAttrib .setAttrib
  case setPromiseValue => exact hcountsKept .setPromiseValue .setPromiseValue
  case setSymbolValue => exact hcountsKept .setSymbolValue .setSymbolValue
  case setVectorElt => exact hcountsKept .setVectorElt .setVectorElt
  case setObjectBit => exact hcountsKept .setObjectBit .setObjectBit
  case addClassBits =>
    exact hcountsKept (.updateCell fun _ _ => .mapFlags rfl rfl) (.mapFlags (fun _ => rfl) fun _ => rfl)
  case touch => exact hcountsKept .touch .touch
  case setRealData => exact hcountsKept .setRealData .setRealData
  case setIntegerData => exact hcountsKept .setIntegerData .setIntegerData
  case setRawData => exact hcountsKept .setRawData .setRawData
  case incrementRefCount => exact hcountsKept .incrementRefCount .incrementRefCount
  case findVar => exact hcountsKept .findVar .findVar
  case flagOnExit records => exact hcountsKept (.flagOnExit records) (.flagOnExit records)
  case unlinkWeakRef =>
    exact ⟨(Retouches.unlinkWeakRef hs hrun).contains, Settles.unlinkWeakRef _ _ _ hrun⟩

end HeapM

namespace Heap

variable {heap heap' : Heap} {removed spoiled : List Handle} {o : Handle} {c : Cell}

theorem Settles.paid {payload : Payload} {slots : List Handle} {d : Handle → ℤ}
    (hcovered : payload.Covered slots) (hd : ∀ o, d o = (payload.children true).count o - slots.count o)
    (howes : Graph.Owes d heap.graph heap'.graph) : heap.Settles heap' :=
  howes.mono fun o hnil hunbound => by
    have hle := hcovered o hnil hunbound
    rw [hd, Pi.zero_apply]
    omega

theorem Effect.countsKept (he : heap.Effect true heap') (hv : heap.SoundWithHistory) : heap.CountsKept heap' := by
  cases he with
  | beside hb =>
    obtain ⟨-, _, _, _, _, _, _, _, rfl⟩ := hb
    exact .beside rfl
  | basic hb hrun => exact hb.countsKept hv.1 hrun
  | fill hsized hfits hcovered hfill hcount =>
    have hamends := HeapM.Retouches.setPayload (hsized.roomy hfits.suits) hfill
    refine ⟨(hamends.trans (HeapM.Retouches.countReferences _ _ _ _ hcount)).contains, ?_⟩
    exact .paid hcovered (fun _ => rfl)
      ((HeapM.owes_setPayload hfill).trans (HeapM.owes_countReferences _ hcount))
  | fillCounted hsized hfits hcovered hcount hfill =>
    have hroomy := HeapM.Retouches.roomy_countReferences _ _ _ _ (hsized.roomy hfits.suits) hcount
    have hamends := HeapM.Retouches.countReferences _ _ _ _ hcount
    refine ⟨(hamends.trans (HeapM.Retouches.setPayload hroomy hfill)).contains, ?_⟩
    exact .paid hcovered (fun _ => Int.add_comm _ _)
      ((HeapM.owes_countReferences _ hcount).trans (HeapM.owes_setPayload hfill))
  | link hsized hrun =>
    exact ⟨(HeapM.Retouches.linkWeakRef hsized hrun).contains, HeapM.Settles.linkWeakRef _ _ _ hrun⟩
  | cache hsized hrun =>
    exact ⟨(HeapM.Retouches.cacheString hv.1 hsized hrun).contains,
      HeapM.Settles.cacheString hv.1 hsized.fresh hrun⟩
  | enter hsized hrun =>
    have hcountsKept : heap.CountsKept _ :=
      ⟨(HeapM.Retouches.nameSymbol hsized hrun).contains, HeapM.Settles.nameSymbol _ _ _ hrun⟩
    exact hcountsKept.trans (.beside rfl)

theorem Pays.settles (hp : heap.Pays heap') : heap.Settles heap' := by
  obtain ⟨hv, he | ⟨n, room, hgrow⟩⟩ := hp
  · exact (he.countsKept hv).2
  · exact HeapM.Settles.grow _ _ _ hgrow

theorem slotsOf_eq_holds {p : Handle} (hp : p ∈ removed → ¬ heap.PairHolds p o) :
    heap.slotsOf o p = heap.graph.holds removed o p := by
  unfold slotsOf
  cases hc : heap.arena.get? p with
  | none => rw [Graph.holds_of_none (graph_eq_none.mpr hc)]; rfl
  | some c =>
    rw [holds_of_get? hc, Option.map_some, Option.getD_some, ← Cell.counted_false]
    by_cases hmem : p ∈ removed
    · rw [decide_eq_true hmem, Cell.counted, Cell.counted, List.count_append, List.count_append]
      congr 1
      cases hpayload : c.payload with
      | pair car cdr tag =>
        have hcar : car ≠ o := fun heq => hp hmem ⟨c, cdr, tag, hc, heq ▸ hpayload⟩
        simp [Payload.counted, List.count_cons_of_ne hcar]
      | _ => rfl
    · rw [decide_eq_false hmem]

theorem Reckoned.counted (hr : heap.Reckoned Pays removed spoiled) (hc : heap.arena.get? o = some c)
    (ho : o ∉ spoiled) (hnil : o ≠ .nil) (hunbound : o ≠ .unbound) {ps : Finset Handle}
    (hps : ∀ p ∈ ps, p ∈ removed → ¬ heap.PairHolds p o) :
    min (∑ p ∈ ps, heap.slotsOf o p) 2 ≤ c.header.refcount.number := by
  have hbacks := hr.backs Pays.settles ho hnil hunbound c.seen (graph_of_get? hc)
  have hsum : ∑ p ∈ ps, heap.slotsOf o p = ∑ p ∈ ps, heap.graph.holds removed o p :=
    Finset.sum_congr rfl fun p hp => slotsOf_eq_holds (hps p hp)
  rw [hsum]
  rcases hbacks with hmany | hall
  · have htwo : c.header.refcount = .many := hmany
    rw [htwo]
    exact Nat.min_le_right _ _
  · have hle := hall ps
    rw [Int.add_zero] at hle
    exact (Nat.min_le_left _ _).trans (Int.ofNat_le.mp hle)

end Heap

namespace Session

end Session

end ManagedHeap
