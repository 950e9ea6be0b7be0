import ManagedHeap.Proofs.CopiedData

/-!
# Structural copies

What it takes for an object to be a structural copy of another one, said of the heap that the
original is in and of the heap that the copy is in. The relation follows the structure of the
original; it goes on to hold as long as neither the original nor the copied objects change.
-/

namespace ManagedHeap

/-- A copy shares the object with the original. -/
def Cell.isShared (c : Cell) : Bool :=
  match c.kind with
  | .pair | .language | .list | .expression | .stringVector | .logicalVector | .integerVector
  | .realVector | .rawVector | .closure => false
  | .charString => c.flags.cached
  | _ => true

/-- Objects whose copy has the very same payload. -/
def Kind.isFlat : Kind → Bool
  | .stringVector | .charString | .logicalVector | .integerVector | .realVector | .rawVector
  | .closure => true
  | _ => false

/-- What a copy reproduces: an object with its attribute and its class bits, the kind and the
payload alone, or what follows a pair in a pairlist. -/
inductive Part
  | object
  | body
  | tail

/-- In the second heap `r` is a structural copy of what `h` is in the first one, and the objects
that were copied for it have the property `made`. A pair after the first one of a pairlist is
copied without its attribute and its class bits. -/
inductive Heap.Mirrors (heap heap' : Heap) (made : Handle → Prop) : Part → Handle → Handle → Prop
  | shared {h : Handle} {c : Cell} : heap.arena.get? h = some c → c.isShared = true →
      Mirrors heap heap' made .object h h
  | object {h r : Handle} {c d : Cell} : heap.arena.get? h = some c → c.isShared = false →
      heap'.arena.get? r = some d → d.flags.object = c.flags.object →
      d.flags.s4Object = c.flags.s4Object → Mirrors heap heap' made .object c.attached d.attached →
      Mirrors heap heap' made .body h r → Mirrors heap heap' made .object h r
  | flat {h r : Handle} {c d : Cell} : heap.arena.get? h = some c → c.kind.isFlat = true →
      c.isShared = false → made r → heap'.arena.get? r = some d → d.kind = c.kind →
      d.payload = c.payload → Mirrors heap heap' made .body h r
  | vector {h r : Handle} {c d : Cell} {es fs : Array Handle} : heap.arena.get? h = some c →
      c.kind = .list ∨ c.kind = .expression → c.payload = .handles es → made r →
      heap'.arena.get? r = some d → d.kind = c.kind → d.payload = .handles fs →
      fs.size = es.size → (∀ (i : Nat) (e f : Handle), es[i]? = some e → fs[i]? = some f →
        Mirrors heap heap' made .object e f) → Mirrors heap heap' made .body h r
  | pair {h r : Handle} {c d : Cell} {car cdr tag car' cdr' : Handle} :
      heap.arena.get? h = some c → c.kind.isPairLike = true → c.payload = .pair car cdr tag →
      made r → heap'.arena.get? r = some d → d.kind = c.kind → d.payload = .pair car' cdr' tag →
      Mirrors heap heap' made .object car car' → Mirrors heap heap' made .tail cdr cdr' →
      Mirrors heap heap' made .body h r
  | cell {h r : Handle} {c d : Cell} : heap.arena.get? h = some c → c.kind.isPairLike = true →
      heap'.arena.get? r = some d → d.attached = .nil → d.flags.object = false →
      d.flags.s4Object = false → Mirrors heap heap' made .body h r → Mirrors heap heap' made .tail h r
  | last {h r : Handle} {c : Cell} : heap.arena.get? h = some c → c.kind.isPairLike = false →
      Mirrors heap heap' made .object h r → Mirrors heap heap' made .tail h r

def Heap.Copyable (heap : Heap) : Prop :=
  ∀ {k c}, heap.arena.get? k = some c → c.flags.permanent = true → c.kind = .nil ∨ c.kind = .symbol

namespace Cell

variable {c d : Cell}

theorem Lasts.isShared (hl : c.Lasts d) : d.isShared = c.isShared := by
  unfold Cell.isShared
  rw [hl.kind, hl.cached]

theorem Proper.plain (hc : c.Proper) (hcopied : c.isShared = false) : c.payload.Plain := by
  refine Payload.suits_plain hc.suits ?_ ?_ <;>
  · intro hkind
    simp [Cell.isShared, hkind] at hcopied

theorem isShared_of_isPairLike (hc : c.kind.isPairLike = true) : c.isShared = false := by
  unfold Cell.isShared
  cases hkind : c.kind <;> simp_all [Kind.isPairLike]

theorem isShared_of_vector (hc : c.kind = .list ∨ c.kind = .expression) : c.isShared = false := by
  unfold Cell.isShared
  rcases hc with hkind | hkind <;> rw [hkind]

theorem cached_of_not_isShared (hc : c.Proper) (hcopied : c.isShared = false) :
    c.flags.cached = false := by
  by_contra hcached
  replace hcached : c.flags.cached = true := by simpa using hcached
  rw [Cell.isShared, hc.cached hcached] at hcopied
  exact nomatch hcached.symm.trans hcopied

theorem attached_mem_edges (hcached : c.flags.cached = false) (withNames : Bool) :
    c.attached ∈ c.edges withNames := by
  simp [attached, edges, hcached]

end Cell

namespace Heap

variable {heap mid heap' : Heap} {start made made' : Handle → Prop} {part : Part} {h r k : Handle}
  {c d : Cell}

namespace Copyable

theorem isShared (hcopy : heap.Copyable) (hc : heap.arena.get? h = some c)
    (hperm : c.flags.permanent = true) : c.isShared = true := by
  unfold Cell.isShared
  rcases hcopy hc hperm with hkind | hkind <;> rw [hkind]

theorem permanent (hcopy : heap.Copyable) (hc : heap.arena.get? h = some c)
    (hcopied : c.isShared = false) : c.flags.permanent = false := by
  by_contra hperm
  exact nomatch hcopied.symm.trans (hcopy.isShared hc (by simpa using hperm))

theorem act {es : List Entry} (hcopy : heap.Copyable) (ha : Act es heap heap') : heap'.Copyable := by
  intro k d hd hperm
  cases ha with
  | retouch hr =>
    obtain ⟨c, hc, hperm', -⟩ := hr.permanent hd hperm
    have hkind := congrArg (Option.map Footprint.kind) (hr.footprints k)
    rw [Arena.footprint?, hd, Arena.footprint?, hc] at hkind
    exact (Option.some.inj hkind : d.kind = c.kind) ▸ hcopy hc hperm'
  | grow hrun =>
    rw [(HeapM.beside_grow hrun).1.cells] at hd
    exact hcopy hd hperm
  | claim hs hkind hp hrun =>
    rw [(Act.claimed hs hkind hrun).2] at hd
    split at hd
    · obtain rfl := Option.some.inj hd
      cases hperm
    · exact hcopy hd hperm
  | collect hs hrun =>
    obtain ⟨records, hcol⟩ := HeapM.collect_collected hs hrun
    obtain ⟨c, hc, -⟩ := hcol.came hd
    have hlasting := (hcol.same hc hd).lasting
    rw [Cell.kind_of_lasting hlasting]
    exact hcopy hc ((Cell.permanent_of_lasting hlasting).symm.trans hperm)

theorem lives {es : List Entry} (hcopy : heap.Copyable) (hl : heap.Lives es heap') :
    heap'.Copyable := by
  induction hl with
  | refl => exact hcopy
  | tail _ hlast ih => exact act (ih hcopy) hlast

theorem born (hb : heap.Born) : heap.Copyable := by
  obtain ⟨config, hash, fresh, -, hbuild, hsame, -⟩ := hb
  intro k c hc _
  rw [hsame] at hc
  obtain ⟨kind, payload, rfl, ⟨rfl, -⟩ | ⟨rfl, -⟩⟩ := build_cells hbuild hc
  · exact .inl rfl
  · exact .inr rfl

end Copyable

theorem ReachedFrom.slot (hs : heap.Sound) (hcopy : heap.Copyable)
    (hr : heap.ReachedFrom start h) (hc : heap.arena.get? h = some c) (hcopied : c.isShared = false)
    (hk : k ∈ c.edges true) : heap.ReachedFrom start k := by
  have hperm := hcopy.permanent hc hcopied
  obtain ⟨d, hd⟩ := hs.closed hc hperm hk
  exact .edge hr hc hperm hk hd

namespace Mirrors

theorem mono (hm : heap.Mirrors heap' made part h r) (hsub : ∀ t, made t → made' t) :
    heap.Mirrors heap' made' part h r := by
  induction hm with
  | shared hc hshared => exact .shared hc hshared
  | object hc hcopied hd hobject hs4 _ _ ihattrib ihbody =>
    exact .object hc hcopied hd hobject hs4 ihattrib ihbody
  | flat hc hflat hcopied hmade hd hkind hp => exact .flat hc hflat hcopied (hsub _ hmade) hd hkind hp
  | vector hc hkind hp hmade hd hdkind hdp hsize _ ih =>
    exact .vector hc hkind hp (hsub _ hmade) hd hdkind hdp hsize ih
  | pair hc hpair hp hmade hd hkind hdp _ _ ihcar ihcdr =>
    exact .pair hc hpair hp (hsub _ hmade) hd hkind hdp ihcar ihcdr
  | cell hc hpair hd hattrib hobject hs4 _ ih => exact .cell hc hpair hd hattrib hobject hs4 ih
  | last hc hlast _ ih => exact .last hc hlast ih

theorem made_of_body (hm : heap.Mirrors heap' made .body h r) : made r := by
  cases hm with
  | flat _ _ _ hmade => exact hmade
  | vector _ _ _ hmade => exact hmade
  | pair _ _ _ hmade => exact hmade

end Mirrors

def KeepsMade (heap heap' : Heap) (made : Handle → Prop) : Prop :=
  ∀ t d, made t → heap.arena.get? t = some d →
    ∃ e, heap'.arena.get? t = some e ∧ e.content = d.content

/-- The objects that were made are copies and are what they were, but for the attributes and the
class bits of the `bare` ones, which none of them refers to. -/
structure AttributesCopied (heap heap' : Heap) (made bare : Handle → Prop) : Prop where
  copied : ∀ t d, made t → heap.arena.get? t = some d → d.isShared = false
  others : heap.KeepsMade heap' fun t => made t ∧ ¬ bare t
  self : ∀ t d, bare t → heap.arena.get? t = some d →
    ∃ e, heap'.arena.get? t = some e ∧ e.kind = d.kind ∧ e.payload = d.payload
  unheld : ∀ t d k, made t → heap.arena.get? t = some d → k ∈ d.edges true → ¬ bare k

theorem AttributesCopied.keeps {bare : Handle → Prop} (hd : heap.AttributesCopied heap' made bare) (hs : heap.Sound)
    {t : Handle} (ht : made t) (hget : heap.arena.get? t = some d) :
    ∃ e, heap'.arena.get? t = some e ∧ e.kind = d.kind ∧ e.payload = d.payload := by
  by_cases htr : bare t
  · exact hd.self t d htr hget
  · obtain ⟨e, he, hsame⟩ := hd.others t d ⟨ht, htr⟩ hget
    exact ⟨e, he, Cell.kind_of_content hsame,
      Cell.payload_of_plain hsame ((hs.proper hget).plain (hd.copied t d ht hget))⟩

theorem Mirrors.dressed {bare : Handle → Prop} (hmid : mid.Sound)
    (hm : heap.Mirrors mid made part h r) (hd : mid.AttributesCopied heap' made bare)
    (hpart : ¬ bare r ∨ part = .body) : heap.Mirrors heap' made part h r := by
  induction hm with
  | shared hc hshared => exact .shared hc hshared
  | object hc hshared hget hobject hs4 _ hbody ihattrib ihbody =>
    have hne := hpart.resolve_right (by simp)
    have hmade := hbody.made_of_body
    obtain ⟨e, he, hsame⟩ := hd.others _ _ ⟨hmade, hne⟩ hget
    have huncached := Cell.cached_of_not_isShared (hmid.proper hget) (hd.copied _ _ hmade hget)
    exact .object hc hshared he ((Cell.object_of_content hsame).trans hobject)
      ((Cell.s4Object_of_content hsame).trans hs4)
      (Cell.attached_of_content hsame ▸
        ihattrib (.inl (hd.unheld _ _ _ hmade hget (Cell.attached_mem_edges huncached true))))
      (ihbody (.inr rfl))
  | flat hc hflat hshared hmade hget hkind hp =>
    obtain ⟨e, he, hkind', hp'⟩ := hd.keeps hmid hmade hget
    exact .flat hc hflat hshared hmade he (hkind'.trans hkind) (hp'.trans hp)
  | vector hc hvector hp hmade hget hkind hdp hsize _ ih =>
    obtain ⟨e, he, hkind', hp'⟩ := hd.keeps hmid hmade hget
    refine .vector hc hvector hp hmade he (hkind'.trans hkind) (hp'.trans hdp) hsize
      fun i x y hx hy => ih i x y hx hy (.inl (hd.unheld _ _ _ hmade hget (Cell.mem_edges_of_children ?_)))
    simpa [hdp, Payload.children] using Array.mem_of_getElem? hy
  | pair hc hpair hp hmade hget hkind hdp _ _ ihcar ihcdr =>
    obtain ⟨e, he, hkind', hp'⟩ := hd.keeps hmid hmade hget
    have hin := fun {k} => hd.unheld _ _ k hmade hget
    exact .pair hc hpair hp hmade he (hkind'.trans hkind) (hp'.trans hdp)
      (ihcar (.inl (hin (Cell.mem_edges_of_children (by simp [hdp, Payload.children])))))
      (ihcdr (.inl (hin (Cell.mem_edges_of_children (by simp [hdp, Payload.children])))))
  | cell hc hpair hget hattrib hobject hs4 hbody ih =>
    have hne := hpart.resolve_right (by simp)
    obtain ⟨e, he, hsame⟩ := hd.others _ _ ⟨hbody.made_of_body, hne⟩ hget
    exact .cell hc hpair he ((Cell.attached_of_content hsame).trans hattrib)
      ((Cell.object_of_content hsame).trans hobject) ((Cell.s4Object_of_content hsame).trans hs4)
      (ih (.inr rfl))
  | last hc hlast _ ih => exact .last hc hlast (ih (.inl (hpart.resolve_right (by simp))))

theorem Mirrors.sustained (hmid : mid.Sound) (hm : heap.Mirrors mid made part h r)
    (hkeep : mid.KeepsMade heap' made)
    (hcopied : ∀ t d, made t → mid.arena.get? t = some d → d.isShared = false) :
    heap.Mirrors heap' made part h r := by
  have hattributesCopied : mid.AttributesCopied heap' made fun _ => False :=
    ⟨hcopied, fun t d ht => hkeep t d ht.1, fun _ _ hno => hno.elim, fun _ _ _ _ _ _ => id⟩
  exact hm.dressed hmid hattributesCopied (.inl id)

theorem Mirrors.source (hs : heap.Sound) (hcopy : heap.Copyable)
    (hcarries : heap.Carries mid start) (hm : mid.Mirrors heap' made part h r)
    (hr : heap.ReachedFrom start h) : heap.Mirrors heap' made part h r := by
  -- what stands at a handle in reach was there before, the same in kind and payload
  have hback : ∀ {h d}, heap.ReachedFrom start h → mid.arena.get? h = some d →
      ∃ c, heap.arena.get? h = some c ∧ c.Lasts d := by
    intro h d hr hd
    obtain ⟨c, hc⟩ := hr.live
    obtain ⟨e, he, hlasts⟩ := hcarries h c hr hc
    rw [hd, Option.some.injEq] at he
    exact ⟨c, hc, he ▸ hlasts⟩
  have hsame : ∀ {h c d}, heap.arena.get? h = some c → c.Lasts d → d.isShared = false →
      c.isShared = false ∧ d.content = c.content ∧ d.payload = c.payload := by
    intro h c d hc hlasts hcopied
    rw [hlasts.isShared] at hcopied
    have hplain := (hs.proper hc).plain hcopied
    exact ⟨hcopied, hlasts.content hplain, Cell.payload_of_plain (hlasts.content hplain) hplain⟩
  induction hm with
  | shared hd hshared =>
    obtain ⟨c, hc, hlasts⟩ := hback hr hd
    exact .shared hc (hlasts.isShared.symm.trans hshared)
  | object hd hcopied he hobject hs4 _ _ ihattrib ihbody =>
    obtain ⟨c, hc, hlasts⟩ := hback hr hd
    obtain ⟨hcopied, hcontent, -⟩ := hsame hc hlasts hcopied
    have hattached := Cell.attached_of_content hcontent
    have hattrib := hr.slot hs hcopy hc hcopied
      (Cell.attached_mem_edges (Cell.cached_of_not_isShared (hs.proper hc) hcopied) true)
    exact .object hc hcopied he (hobject.trans (Cell.object_of_content hcontent))
      (hs4.trans (Cell.s4Object_of_content hcontent)) (hattached ▸ ihattrib (hattached ▸ hattrib))
      (ihbody hr)
  | flat hd hflat hcopied hmade he hkind hp =>
    obtain ⟨c, hc, hlasts⟩ := hback hr hd
    obtain ⟨hcopied, -, hpayload⟩ := hsame hc hlasts hcopied
    exact .flat hc (hlasts.kind ▸ hflat) hcopied hmade he (hkind.trans hlasts.kind) (hp.trans hpayload)
  | vector hd hvector hp hmade he hkind hep hsize _ ih =>
    obtain ⟨c, hc, hlasts⟩ := hback hr hd
    obtain ⟨hcopied, -, hpayload⟩ := hsame hc hlasts (Cell.isShared_of_vector hvector)
    rw [hpayload] at hp
    refine .vector hc (hlasts.kind ▸ hvector) hp hmade he (hkind.trans hlasts.kind) hep hsize
      fun i e f hi hf => ih i e f hi hf (hr.slot hs hcopy hc hcopied (Cell.mem_edges_of_children ?_))
    simpa [hp, Payload.children] using Array.mem_of_getElem? hi
  | pair hd hpair hp hmade he hkind hep _ _ ihcar ihcdr =>
    obtain ⟨c, hc, hlasts⟩ := hback hr hd
    obtain ⟨hcopied, -, hpayload⟩ := hsame hc hlasts (Cell.isShared_of_isPairLike hpair)
    rw [hpayload] at hp
    have hslots : ∀ {k}, k ∈ c.payload.children true → heap.ReachedFrom start k := fun hk =>
      hr.slot hs hcopy hc hcopied (Cell.mem_edges_of_children hk)
    exact .pair hc (hlasts.kind ▸ hpair) hp hmade he (hkind.trans hlasts.kind) hep
      (ihcar (hslots (by simp [hp, Payload.children])))
      (ihcdr (hslots (by simp [hp, Payload.children])))
  | cell hd hpair he hattrib hobject hs4 _ ih =>
    obtain ⟨c, hc, hlasts⟩ := hback hr hd
    exact .cell hc (hlasts.kind ▸ hpair) he hattrib hobject hs4 (ih hr)
  | last hd hlast _ ih =>
    obtain ⟨c, hc, hlasts⟩ := hback hr hd
    exact .last hc (hlasts.kind ▸ hlast) (ih hr)

end Heap

end ManagedHeap
