import ManagedHeap.Proofs.ArenaCells

/-!
# Chains of cached strings

Every bucket of the string cache starts a chain that runs through the attribute
slots of cached strings and ends at the empty object. No string is on two chains
or twice on one, so taking a string off its chain takes it off all of them.
-/

namespace ManagedHeap

/-- The chain from a handle on visits these cached strings. -/
inductive Linked (a : Arena) : Handle → List Handle → Prop
  | nil : Linked a .nil []
  | cons {h : Handle} {c : Cell} {hs : List Handle} : h ≠ .nil → a.get? h = some c →
      c.flags.cached = true → Linked a c.attrib hs → Linked a h (h :: hs)

namespace Linked

variable {a b : Arena} {x h : Handle} {hs : List Handle}

theorem cached (hl : Linked a x hs) (hm : h ∈ hs) :
    h ≠ .nil ∧ ∃ c, a.get? h = some c ∧ c.flags.cached = true := by
  induction hl with
  | nil => exact absurd hm List.not_mem_nil
  | cons hne hc hcached _ ih =>
    rcases List.mem_cons.mp hm with rfl | hm
    · exact ⟨hne, _, hc, hcached⟩
    · exact ih hm

theorem congr (hl : Linked a x hs)
    (hkeep : ∀ h ∈ hs, ∀ c, a.get? h = some c → c.flags.cached = true →
      ∃ d, b.get? h = some d ∧ d.flags.cached = true ∧ d.attrib = c.attrib) :
    Linked b x hs := by
  induction hl with
  | nil => exact .nil
  | cons hne hc hcached _ ih =>
    obtain ⟨d, hd, hdcached, hattrib⟩ := hkeep _ List.mem_cons_self _ hc hcached
    refine .cons hne hd hdcached (hattrib ▸ ih ?_)
    intro g hg
    exact hkeep g (List.mem_cons_of_mem _ hg)

theorem of_ne_nil (hl : Linked a x hs) (hx : x ≠ .nil) :
    ∃ c rest, hs = x :: rest ∧ a.get? x = some c ∧ Linked a c.attrib rest := by
  cases hl with
  | nil => exact absurd rfl hx
  | cons _ hc _ hrest => exact ⟨_, _, rfl, hc, hrest⟩

theorem unique {hs' : List Handle} (hl : Linked a x hs) (hl' : Linked a x hs') : hs = hs' := by
  induction hl generalizing hs' with
  | nil =>
    cases hl' with
    | nil => rfl
    | cons hne => exact absurd rfl hne
  | cons hne hc _ _ ih =>
    cases hl' with
    | nil => exact absurd rfl hne
    | cons _ hd _ hrest =>
      rw [hc, Option.some.injEq] at hd
      rw [ih (hd ▸ hrest)]

theorem of_nil (hl : Linked a .nil hs) : hs = [] := by
  cases hl with
  | nil => rfl
  | cons hne => exact absurd rfl hne

theorem setCell {f : Cell → Cell} (hl : Linked a x hs) (hh : h ∉ hs) :
    Linked (a.setCell h f) x hs := by
  refine hl.congr ?_
  intro g hg c hc hcached
  have hne : g ≠ h := fun e => hh (e ▸ hg)
  exact ⟨c, by rw [Arena.get?_setCell_ne hne, hc], hcached, rfl⟩

end Linked

/-- Chains from all of these heads, which together visit just the strings `on` them, and
none of these twice. -/
def Chained (a : Arena) (heads : List Handle) (on : Handle → Prop) : Prop :=
  ∃ chains : List (Handle × List Handle),
    chains.map Prod.fst = heads ∧ (∀ p ∈ chains, Linked a p.1 p.2) ∧
    (chains.flatMap Prod.snd).Nodup ∧ ∀ h, on h ↔ h ∈ chains.flatMap Prod.snd

namespace Chained

variable {a b : Arena} {x h : Handle} {front back heads : List Handle} {on : Handle → Prop}

theorem cached (hc : Chained a heads on) (hh : on h) :
    h ≠ .nil ∧ ∃ c, a.get? h = some c ∧ c.flags.cached = true := by
  obtain ⟨chains, -, hlinked, -, hon⟩ := hc
  obtain ⟨p, hp, hmem⟩ := List.mem_flatMap.mp ((hon h).mp hh)
  exact (hlinked p hp).cached hmem

theorem congr (hc : Chained a heads on)
    (hkeep : ∀ h, on h → ∀ c, a.get? h = some c → c.flags.cached = true →
      ∃ d, b.get? h = some d ∧ d.flags.cached = true ∧ d.attrib = c.attrib) :
    Chained b heads on := by
  obtain ⟨chains, hheads, hlinked, honce, hon⟩ := hc
  refine ⟨chains, hheads, ?_, honce, hon⟩
  intro p hp
  refine (hlinked p hp).congr ?_
  intro g hg
  exact hkeep g ((hon g).mpr (List.mem_flatMap.mpr ⟨p, hp, hg⟩))

theorem setCell {f : Cell → Cell} (hc : Chained a heads on) (hh : ¬ on h) :
    Chained (a.setCell h f) heads on := by
  refine hc.congr ?_
  intro g hg c hget hcached
  have hne : g ≠ h := fun e => hh (e ▸ hg)
  exact ⟨c, by rw [Arena.get?_setCell_ne hne, hget], hcached, rfl⟩

theorem split (hc : Chained a (front ++ x :: back) on) :
    ∃ (left : List (Handle × List Handle)) (hs : List Handle) (right : List (Handle × List Handle)),
      left.map Prod.fst = front ∧ right.map Prod.fst = back ∧
      (∀ p ∈ left ++ right, Linked a p.1 p.2) ∧ Linked a x hs ∧
      (left.flatMap Prod.snd ++ (hs ++ right.flatMap Prod.snd)).Nodup ∧
      ∀ h, on h ↔ h ∈ hs ∨ h ∈ left.flatMap Prod.snd ++ right.flatMap Prod.snd := by
  obtain ⟨chains, hheads, hlinked, honce, hon⟩ := hc
  obtain ⟨left, rest, rfl, hleft, hrest⟩ := List.map_eq_append_iff.mp hheads
  obtain ⟨⟨y, hs⟩, right, rfl, rfl, hright⟩ := List.map_eq_cons_iff.mp hrest
  refine ⟨left, hs, right, hleft, hright, ?_, hlinked _ (by simp), ?_, ?_⟩
  · intro p hp
    refine hlinked p ?_
    rcases List.mem_append.mp hp with hp | hp <;> simp [hp]
  · simpa using honce
  · intro h
    rw [hon h]
    simp only [List.flatMap_append, List.flatMap_cons, List.mem_append]
    tauto

theorem chain (hc : Chained a (front ++ x :: back) on) :
    ∃ hs, Linked a x hs ∧ hs.Nodup ∧ ∀ h ∈ hs, on h := by
  obtain ⟨left, hs, right, -, -, -, hx, honce, hon⟩ := hc.split
  exact ⟨hs, hx, (List.nodup_append.mp (List.nodup_append.mp honce).2.1).1,
    fun h hh => (hon h).mpr (.inl hh)⟩

theorem join {left right : List (Handle × List Handle)} {hs : List Handle}
    (hothers : ∀ p ∈ left ++ right, Linked a p.1 p.2) (hx : Linked a x hs)
    (honce : (left.flatMap Prod.snd ++ (hs ++ right.flatMap Prod.snd)).Nodup)
    (hon : ∀ h, on h ↔ h ∈ hs ∨ h ∈ left.flatMap Prod.snd ++ right.flatMap Prod.snd) :
    Chained a (left.map Prod.fst ++ x :: right.map Prod.fst) on := by
  refine ⟨left ++ (x, hs) :: right, by simp, ?_, by simpa using honce, ?_⟩
  · intro p hp
    rcases List.mem_append.mp hp with hp | hp
    · exact hothers p (List.mem_append_left _ hp)
    · rcases List.mem_cons.mp hp with rfl | hp
      · exact hx
      · exact hothers p (List.mem_append_right _ hp)
  · intro h
    rw [hon h]
    simp only [List.flatMap_append, List.flatMap_cons, List.mem_append]
    tauto

theorem pop {c : Cell} (hc : Chained a (front ++ h :: back) on) (hne : h ≠ .nil)
    (hget : a.get? h = some c) :
    Chained a (front ++ c.attrib :: back) fun k => on k ∧ k ≠ h := by
  obtain ⟨left, hs, right, rfl, rfl, hothers, hx, honce, hon⟩ := hc.split
  obtain ⟨d, rest, rfl, hd, hrest⟩ := hx.of_ne_nil hne
  rw [hget, Option.some.injEq] at hd
  subst hd
  have hperm : (left.flatMap Prod.snd ++ (h :: rest ++ right.flatMap Prod.snd)).Perm
      (h :: (left.flatMap Prod.snd ++ (rest ++ right.flatMap Prod.snd))) := by
    rw [List.cons_append]
    exact List.perm_middle
  rw [hperm.nodup_iff, List.nodup_cons] at honce
  refine join hothers hrest honce.2 ?_
  intro k
  rw [hon k]
  have hout := honce.1
  simp only [List.mem_append, List.mem_cons] at hout ⊢
  constructor
  · rintro ⟨(rfl | hk) | hk, hkh⟩
    · exact absurd rfl hkh
    · exact .inl hk
    · exact .inr hk
  · intro hk
    refine ⟨by tauto, ?_⟩
    rintro rfl
    tauto

theorem push {c : Cell} (hc : Chained a (front ++ x :: back) on) (hne : h ≠ .nil)
    (hget : a.get? h = some c) (hcached : c.flags.cached = true) (hlive : c.isFree = false)
    (hh : ¬ on h) :
    Chained (a.setCell h fun c => { c with attrib := x }) (front ++ h :: back)
      fun k => k = h ∨ on k := by
  have hset : Chained (a.setCell h fun c => { c with attrib := x }) (front ++ x :: back) on :=
    hc.setCell hh
  obtain ⟨left, hs, right, rfl, rfl, hothers, hx, honce, hon⟩ := hset.split
  have hout := mt (hon h).mpr hh
  refine join hothers (.cons hne (Arena.get?_setCell_self hget hlive) hcached hx) ?_ ?_
  · have hperm : (left.flatMap Prod.snd ++ (h :: hs ++ right.flatMap Prod.snd)).Perm
        (h :: (left.flatMap Prod.snd ++ (hs ++ right.flatMap Prod.snd))) := by
      rw [List.cons_append]
      exact List.perm_middle
    rw [hperm.nodup_iff, List.nodup_cons]
    simp only [List.mem_append] at hout ⊢
    exact ⟨by tauto, honce⟩
  · intro k
    rw [hon k]
    simp only [List.mem_cons]
    tauto

theorem drop_nil (hc : Chained a (front ++ .nil :: back) on) : Chained a (front ++ back) on := by
  obtain ⟨left, hs, right, rfl, rfl, hothers, hx, honce, hon⟩ := hc.split
  obtain rfl := hx.of_nil
  refine ⟨left ++ right, by simp, hothers, by simpa using honce, ?_⟩
  intro h
  rw [hon h]
  simp

theorem add_nils (hc : Chained a heads on) (n : Nat) :
    Chained a (List.replicate n .nil ++ heads) on := by
  obtain ⟨chains, rfl, hlinked, honce, hon⟩ := hc
  have hflat : (List.replicate n ((.nil, []) : Handle × List Handle)).flatMap Prod.snd = [] := by
    rw [List.flatMap_eq_nil_iff]
    intro p hp
    rw [List.eq_of_mem_replicate hp]
  refine ⟨List.replicate n (.nil, []) ++ chains, by simp, ?_, ?_, ?_⟩
  · intro p hp
    rcases List.mem_append.mp hp with hp | hp
    · rw [List.eq_of_mem_replicate hp]
      exact .nil
    · exact hlinked p hp
  · rw [List.flatMap_append, hflat]
    exact honce
  · intro h
    rw [List.flatMap_append, hflat, hon h]
    rfl

theorem shorten {f : Cell → Cell} {p : Handle} {hs : List Handle}
    (hc : Chained a (front ++ x :: back) on) (hx : Linked a x hs) (hp : p ∈ hs) (hh : h ∈ hs)
    (hafter : Linked (a.setCell p f) x (hs.erase h)) :
    Chained (a.setCell p f) (front ++ x :: back) fun k => on k ∧ k ≠ h := by
  obtain ⟨left, hs', right, rfl, rfl, hothers, hx', honce, hon⟩ := hc.split
  obtain rfl := hx.unique hx'
  obtain ⟨honceL, honceR, hapart⟩ := List.nodup_append.mp honce
  obtain ⟨honceX, honceR, hapartR⟩ := List.nodup_append.mp honceR
  have hother : ∀ k ∈ hs, ∀ q ∈ left ++ right, k ∉ q.2 := by
    intro k hk q hq hkq
    rcases List.mem_append.mp hq with hq | hq
    · exact hapart k (List.mem_flatMap.mpr ⟨q, hq, hkq⟩) k (List.mem_append_left _ hk) rfl
    · exact hapartR k hk k (List.mem_flatMap.mpr ⟨q, hq, hkq⟩) rfl
  have hsub : ((left.flatMap Prod.snd) ++ (hs.erase h ++ right.flatMap Prod.snd)).Sublist
      ((left.flatMap Prod.snd) ++ (hs ++ right.flatMap Prod.snd)) :=
    (List.erase_sublist.append_right _).append_left _
  refine join ?_ hafter (hsub.nodup honce) ?_
  · intro q hq
    exact (hothers q hq).setCell (hother p hp q hq)
  · intro k
    rw [hon k, honceX.mem_erase_iff]
    constructor
    · rintro ⟨hk | hk, hne⟩
      · exact .inl ⟨hne, hk⟩
      · exact .inr hk
    · rintro (⟨hne, hk⟩ | hk)
      · exact ⟨.inl hk, hne⟩
      · refine ⟨.inr hk, ?_⟩
        rintro rfl
        rw [← List.flatMap_append] at hk
        obtain ⟨q, hq, hkq⟩ := List.mem_flatMap.mp hk
        exact hother k hh q hq hkq

end Chained

def Cell.unlinked (c : Cell) : Cell := if c.flags.cached then { c with attrib := .nil } else c

abbrev Relinks : Arena → Arena → Prop := Arena.SameBut Cell.unlinked

def Cell.interned (bytes : Bytes) (encoding : Encoding) (hash : UInt32) (ascii : Bool)
    (c : Cell) : Cell :=
  { c.mapFlags fun fs => { fs with cached := true, ascii := fs.ascii || ascii } with
    payload := .charString bytes encoding hash }

namespace Cell

variable {c d : Cell}

theorem header_of_unlinked (he : d.unlinked = c.unlinked) : d.header = c.header := by
  have hheader : ∀ c : Cell, c.unlinked.header = c.header := by
    intro c
    unfold unlinked
    split <;> rfl
  rw [← hheader d, he, hheader c]

theorem payload_of_unlinked (he : d.unlinked = c.unlinked) : d.payload = c.payload := by
  have hpayload : ∀ c : Cell, c.unlinked.payload = c.payload := by
    intro c
    unfold unlinked
    split <;> rfl
  rw [← hpayload d, he, hpayload c]

theorem eq_of_unlinked (he : d.unlinked = c.unlinked) (hc : c.flags.cached = false) : d = c := by
  have hd : d.flags.cached = false := by
    rw [flags, header_of_unlinked he]
    exact hc
  unfold unlinked at he
  rwa [if_neg (by simp [hd]), if_neg (by simp [hc])] at he

end Cell

theorem Cell.isFree_unlinked (c : Cell) : c.unlinked.isFree = c.isFree := by
  unfold unlinked
  split <;> rfl

namespace Arena.SameBut

variable {a b : Arena} {h : Handle} {d : Cell}

theorem unlinked (hr : Relinks a b) (hd : a.get? h = some d) :
    ∃ e, b.get? h = some e ∧ e.unlinked = d.unlinked :=
  hr.get? Cell.isFree_unlinked hd

theorem relink (x : Handle) (hd : a.get? h = some d) (hcached : d.flags.cached = true) :
    Relinks a (a.setCell h fun c => { c with attrib := x }) := by
  refine .setCell hd ?_
  have hflags : ({ d with attrib := x } : Cell).flags.cached = true := hcached
  rw [Cell.unlinked, Cell.unlinked, if_pos hcached, if_pos hflags]

end Arena.SameBut

namespace HeapM

open Arena

variable {heap heap' : Heap} {h next : Handle}

theorem run_unlinkString {ch : Cell} {u : PUnit} (hne : h ≠ .nil)
    (hch : heap.arena.get? h = some ch) (hnext : next = ch.attrib) :
    ∀ (fuel : Nat) (cursor : Handle) (hs : List Handle), Linked heap.arena cursor hs → hs.Nodup →
      cursor ≠ h → (unlinkString h next cursor fuel).run heap = .ok (u, heap') →
      ∃ p ∈ hs, p ≠ h ∧ h ∈ hs ∧
        heap' = { heap with arena := heap.arena.setCell p fun c => { c with attrib := next } } ∧
        Linked heap'.arena cursor (hs.erase h) := by
  intro fuel
  induction fuel with
  | zero =>
    intro cursor hs _ _ _ hrun
    rw [unlinkString, run_throw] at hrun
    exact hrun.elim
  | succ fuel ih =>
    intro cursor hs hlinked honce hcursor hrun
    simp only [unlinkString] at hrun
    split at hrun
    · simp only [run_bind, run_throw, false_and, exists_false] at hrun
    · rename_i hnil
      have hnonnil : cursor ≠ .nil := by simpa [Handle.isNil] using hnil
      obtain ⟨c, rest, rfl, hc, hrest⟩ := hlinked.of_ne_nil hnonnil
      obtain ⟨hout, honce⟩ := List.nodup_cons.mp honce
      simp only [run_bind, run_cell] at hrun
      obtain ⟨d, _, ⟨hd, rfl⟩, hrun⟩ := hrun
      rw [hc, Option.some.injEq] at hd
      subst hd
      obtain ⟨-, e, he, hcached⟩ := hlinked.cached List.mem_cons_self
      rw [hc, Option.some.injEq] at he
      subst he
      have herase : (cursor :: rest).erase h = cursor :: rest.erase h := by
        rw [List.erase_cons_tail (by simpa using hcursor)]
      rw [herase]
      split at hrun
      · rename_i hlink
        rw [run_updateCell] at hrun
        obtain ⟨-, rfl⟩ := hrun
        rw [hlink] at hrest
        obtain ⟨ch', tail, rfl, hch', htail⟩ := hrest.of_ne_nil hne
        rw [hch, Option.some.injEq] at hch'
        subst hch'
        have hset : (heap.arena.setCell cursor fun c => { c with attrib := next }).get? cursor =
            some { c with attrib := next } := get?_setCell_self hc (get?_eq_some.mp hc).2
        refine ⟨cursor, List.mem_cons_self, hcursor, List.mem_cons_of_mem _ List.mem_cons_self,
          rfl, ?_⟩
        rw [List.erase_cons_head]
        refine .cons hnonnil hset hcached ?_
        rw [hnext]
        exact htail.setCell fun hmem => hout (List.mem_cons_of_mem _ hmem)
      · rename_i hlink
        obtain ⟨p, hp, hph, hh, rfl, hafter⟩ := ih c.attrib rest hrest honce hlink hrun
        have hpc : cursor ≠ p := fun e => hout (e ▸ hp)
        refine ⟨p, List.mem_cons_of_mem _ hp, hph, List.mem_cons_of_mem _ hh, rfl, ?_⟩
        exact .cons hnonnil ((get?_setCell_ne hpc).trans hc) hcached hafter

theorem buckets_split {bs : Array Handle} {i : Nat} {x : Handle} (hx : bs[i]? = some x) :
    ∃ front back, bs.toList = front ++ x :: back ∧
      ∀ y, (bs.setIfInBounds i y).toList = front ++ y :: back := by
  obtain ⟨hi, rfl⟩ := Array.getElem?_eq_some_iff.mp hx
  refine ⟨bs.toList.take i, bs.toList.drop (i + 1), ?_, ?_⟩
  · have hdrop := List.drop_eq_getElem_cons (l := bs.toList) hi
    rw [Array.getElem_toList] at hdrop
    rw [← hdrop, List.take_append_drop]
  · intro y
    rw [Array.toList_setIfInBounds, List.set_eq_take_append_cons_drop, Array.length_toList,
      if_pos hi]

theorem run_evictString {c : Cell} {fs : Flags} {released : Bool} {on : Handle → Prop}
    (hne : h ≠ .nil) (hget : heap.arena.get? h = some c)
    (hchained : Chained heap.arena heap.strings.buckets.toList on)
    (hrun : (evictString h fs).run heap = .ok (released, heap')) :
    (fs.symbolName = true ∧ released = false ∧ heap' = heap) ∨
    (fs.symbolName = false ∧ released = true ∧ ∃ arena strings,
      heap' = { heap with arena, strings } ∧ Relinks heap.arena arena ∧
      Chained arena strings.buckets.toList fun k => on k ∧ k ≠ h) := by
  simp only [evictString] at hrun
  split at hrun
  · rename_i hsym
    rw [run_pure] at hrun
    exact .inl ⟨hsym, hrun.1.symm, hrun.2.symm⟩
  · rename_i hsym
    right
    simp only [run_bind, run_cell, run_get] at hrun
    obtain ⟨hash, _, hhash, _, _, ⟨rfl, rfl⟩, d, _, ⟨hd, rfl⟩, hrun⟩ := hrun
    obtain rfl := run_cachedHash hhash
    rw [hget, Option.some.injEq] at hd
    subst hd
    refine ⟨by simpa using hsym, ?_⟩
    split at hrun
    · rename_i hhead
      simp only [run_bind, run_modifyStrings, run_pure] at hrun
      obtain ⟨_, _, rfl, _, _, rfl, rfl, rfl⟩ := hrun
      refine ⟨rfl, heap.arena, _, rfl, .refl _ _, ?_⟩
      have hbucket : heap.strings.buckets[heap.strings.bucketOf hash]? = some h := by
        unfold StringCache.head at hhead
        cases hb : heap.strings.buckets[heap.strings.bucketOf hash]? with
        | none => exact absurd (by simpa [hb] using hhead.symm) hne
        | some x => simpa [hb] using hhead
      obtain ⟨front, back, hold, hnew⟩ := buckets_split hbucket
      rw [hold] at hchained
      have hpop := hchained.pop hne hget
      rw [← hnew] at hpop
      exact hpop
    · rename_i hhead
      simp only [run_bind, run_walkBound, run_modifyStrings, run_pure] at hrun
      obtain ⟨_, _, ⟨rfl, rfl⟩, _, _, hunlink, _, _, rfl, rfl, rfl⟩ := hrun
      cases hb : heap.strings.buckets[heap.strings.bucketOf hash]? with
      | none =>
        have hnil : heap.strings.head (heap.strings.bucketOf hash) = .nil := by
          simp [StringCache.head, hb]
        rw [hnil] at hunlink hhead
        obtain ⟨p, hp, -⟩ := run_unlinkString hne hget rfl _ _ [] .nil List.nodup_nil hhead hunlink
        exact absurd hp List.not_mem_nil
      | some x =>
        have hx : heap.strings.head (heap.strings.bucketOf hash) = x := by
          simp [StringCache.head, hb]
        rw [hx] at hunlink hhead
        obtain ⟨front, back, hold, -⟩ := buckets_split hb
        rw [hold] at hchained
        obtain ⟨hs, hlinked, honce, -⟩ := hchained.chain
        obtain ⟨p, hp, hph, hh, rfl, hafter⟩ :=
          run_unlinkString hne hget rfl _ _ hs hlinked honce hhead hunlink
        obtain ⟨-, e, he, hcached⟩ := hlinked.cached hp
        refine ⟨rfl, _, _, rfl, .relink c.attrib he hcached, ?_⟩
        have hshort := hchained.shorten hlinked hp hh hafter
        rw [← hold] at hshort
        exact hshort

theorem run_linkString {c : Cell} {hash : UInt32} {loose : List Handle} {on : Handle → Prop}
    {u : PUnit} (hne : h ≠ .nil) (hget : heap.arena.get? h = some c)
    (hcached : c.flags.cached = true)
    (hchained : Chained heap.arena (heap.strings.buckets.toList ++ loose) on) (hfresh : ¬ on h)
    (hrun : (linkString h hash).run heap = .ok (u, heap')) :
    ∃ arena strings on', heap' = { heap with arena, strings } ∧ Relinks heap.arena arena ∧
      Chained arena (strings.buckets.toList ++ loose) on' ∧ ∀ k, on' k → k = h ∨ on k := by
  simp only [linkString, run_bind, run_get, run_updateCell, run_modifyStrings] at hrun
  obtain ⟨_, _, ⟨rfl, rfl⟩, _, _, ⟨-, rfl⟩, rfl⟩ := hrun
  have hlive := (get?_eq_some.mp hget).2
  have hrelinks := Arena.SameBut.relink (heap.strings.head (heap.strings.bucketOf hash)) hget hcached
  cases hb : heap.strings.buckets[heap.strings.bucketOf hash]? with
  | none =>
    have hsame : heap.strings.setHead (heap.strings.bucketOf hash) h = heap.strings := by
      have hsize := Array.getElem?_eq_none_iff.mp hb
      rw [StringCache.setHead, Array.setIfInBounds_eq_of_size_le hsize]
    refine ⟨_, _, on, rfl, hrelinks, ?_, fun k hk => .inr hk⟩
    rw [hsame]
    exact hchained.setCell hfresh
  | some x =>
    have hx : heap.strings.head (heap.strings.bucketOf hash) = x := by
      simp [StringCache.head, hb]
    rw [hx] at hrelinks ⊢
    obtain ⟨front, back, hold, hnew⟩ := buckets_split hb
    refine ⟨_, _, _, rfl, hrelinks, ?_, fun k hk => hk⟩
    rw [hold, List.append_assoc, List.cons_append] at hchained
    have hpush := hchained.push hne hget hcached hlive hfresh
    rw [← List.cons_append, ← List.append_assoc, ← hnew] at hpush
    exact hpush

theorem run_relinkChain {u : PUnit} {loose : List Handle} :
    ∀ (fuel : Nat) (cursor : Handle) (heap : Heap) (on : Handle → Prop),
      Chained heap.arena (heap.strings.buckets.toList ++ cursor :: loose) on →
      (relinkChain cursor fuel).run heap = .ok (u, heap') →
      ∃ arena strings on', heap' = { heap with arena, strings } ∧ Relinks heap.arena arena ∧
        Chained arena (strings.buckets.toList ++ loose) on' ∧ ∀ k, on' k → on k := by
  intro fuel
  induction fuel with
  | zero =>
    intro cursor heap on _ hrun
    rw [relinkChain, run_throw] at hrun
    exact hrun.elim
  | succ fuel ih =>
    intro cursor heap on hchained hrun
    simp only [relinkChain] at hrun
    split at hrun
    · rename_i hnil
      have hcursor : cursor = .nil := by simpa [Handle.isNil] using hnil
      subst hcursor
      obtain ⟨-, rfl⟩ := run_pure.mp hrun
      exact ⟨_, _, on, rfl, .refl _ _, hchained.drop_nil, fun k hk => hk⟩
    · rename_i hnil
      have hne : cursor ≠ .nil := by simpa [Handle.isNil] using hnil
      simp only [run_bind, run_cell] at hrun
      obtain ⟨c, _, ⟨hget, rfl⟩, hash, _, hhash, _, mid, hlink, hrun⟩ := hrun
      obtain rfl := run_cachedHash hhash
      obtain ⟨hs, hlinked, -, hon⟩ := hchained.chain
      obtain ⟨_, _, rfl, _, _⟩ := hlinked.of_ne_nil hne
      obtain ⟨-, d, hd, hcached⟩ := hlinked.cached List.mem_cons_self
      rw [hget, Option.some.injEq] at hd
      subst hd
      have hpop := hchained.pop hne hget
      obtain ⟨arena, strings, on', rfl, hrelinks, hchained', hsub⟩ :=
        run_linkString hne hget hcached hpop (fun hon => hon.2 rfl) hlink
      obtain ⟨arena', strings', on'', rfl, hrelinks', hchained'', hsub'⟩ := ih _ _ on' hchained' hrun
      refine ⟨arena', strings', on'', rfl, hrelinks.trans hrelinks', hchained'', ?_⟩
      intro k hk
      rcases hsub k (hsub' k hk) with rfl | ⟨hold, -⟩
      · exact hon k List.mem_cons_self
      · exact hold

theorem run_relinkChains {u : PUnit} (fuel : Nat) :
    ∀ (heads : List Handle) (heap : Heap) (on : Handle → Prop),
      Chained heap.arena (heap.strings.buckets.toList ++ heads) on →
      (relinkChains fuel heads).run heap = .ok (u, heap') →
      ∃ arena strings on', heap' = { heap with arena, strings } ∧ Relinks heap.arena arena ∧
        Chained arena strings.buckets.toList on' ∧ ∀ k, on' k → on k := by
  intro heads
  induction heads with
  | nil =>
    intro heap on hchained hrun
    rw [List.append_nil] at hchained
    obtain ⟨-, rfl⟩ := run_pure.mp hrun
    exact ⟨_, _, on, rfl, .refl _ _, hchained, fun k hk => hk⟩
  | cons head heads ih =>
    intro heap on hchained hrun
    simp only [relinkChains, run_bind] at hrun
    obtain ⟨_, mid, hhead, hrun⟩ := hrun
    obtain ⟨arena, strings, on', rfl, hrelinks, hchained', hsub⟩ :=
      run_relinkChain fuel head heap on hchained hhead
    obtain ⟨arena', strings', on'', rfl, hrelinks', hchained'', hsub'⟩ := ih _ on' hchained' hrun
    exact ⟨arena', strings', on'', rfl, hrelinks.trans hrelinks', hchained'',
      fun k hk => hsub k (hsub' k hk)⟩

theorem run_growStrings {u : PUnit} {on : Handle → Prop}
    (hchained : Chained heap.arena heap.strings.buckets.toList on)
    (hrun : growStrings.run heap = .ok (u, heap')) :
    ∃ arena strings events on',
      heap' = { heap with arena, strings, journal := { heap.journal with events } } ∧
      Relinks heap.arena arena ∧ Chained arena strings.buckets.toList on' ∧
      ∀ k, on' k → on k := by
  simp only [growStrings, run_bind, run_get, run_modifyStrings, run_walkBound, note,
    run_modify] at hrun
  obtain ⟨_, _, ⟨rfl, rfl⟩, _, _, rfl, _, _, ⟨rfl, rfl⟩, _, _, hrelink, rfl⟩ := hrun
  have hnils := hchained.add_nils (min (heap.strings.buckets.size * 2) heap.strings.maxSize)
  rw [← Array.toList_replicate] at hnils
  obtain ⟨arena, strings, on', rfl, hrelinks, hchained', hsub⟩ :=
    run_relinkChains _ _ _ on hnils hrelink
  exact ⟨arena, strings, _, on', rfl, hrelinks, hchained', hsub⟩

theorem run_cacheString {c : Cell} {bytes : Bytes} {encoding : Encoding} {hash : UInt32}
    {ascii : Bool} {u : PUnit} {on : Handle → Prop} (hne : h ≠ .nil)
    (hget : heap.arena.get? h = some c) (huncached : c.flags.cached = false)
    (hchained : Chained heap.arena heap.strings.buckets.toList on)
    (hrun : (cacheString h bytes encoding hash ascii).run heap = .ok (u, heap')) :
    ∃ arena strings events on',
      heap' = { heap with arena, strings, journal := { heap.journal with events } } ∧
      Relinks (heap.arena.setCell h (Cell.interned bytes encoding hash ascii)) arena ∧
      Chained arena strings.buckets.toList on' := by
  have hfresh : ¬ on h := by
    intro hon
    obtain ⟨-, d, hd, hcached⟩ := hchained.cached hon
    rw [hget, Option.some.injEq] at hd
    rw [← hd, huncached] at hcached
    exact nomatch hcached
  have hlive := (get?_eq_some.mp hget).2
  have hset : Chained (heap.arena.setCell h (Cell.interned bytes encoding hash ascii))
      heap.strings.buckets.toList on := hchained.setCell hfresh
  have hself : (heap.arena.setCell h (Cell.interned bytes encoding hash ascii)).get? h =
      some (Cell.interned bytes encoding hash ascii c) := get?_setCell_self hget hlive
  simp only [cacheString, run_bind, run_updateCell, run_get] at hrun
  obtain ⟨_, mid, ⟨-, hmid⟩, _, _, ⟨rfl, rfl⟩, hrun⟩ := hrun
  change mid = { heap with
    arena := heap.arena.setCell h (Cell.interned bytes encoding hash ascii) } at hmid
  subst hmid
  have hlast : ∀ (start : Heap) (on : Handle → Prop) (d : Cell), ¬ on h →
      start.arena.get? h = some d → d.flags.cached = true →
      Chained start.arena start.strings.buckets.toList on →
      (do linkString h hash
          modifyStrings fun strings => { strings with entries := strings.entries + 1 } :
        HeapM PUnit).run start = .ok (u, heap') →
      ∃ arena strings on', heap' = { start with arena, strings } ∧ Relinks start.arena arena ∧
        Chained arena strings.buckets.toList on' := by
    intro start on d hfresh hd hcached hchained hrun
    simp only [run_bind, run_modifyStrings] at hrun
    obtain ⟨_, _, hlink, rfl⟩ := hrun
    rw [← List.append_nil start.strings.buckets.toList] at hchained
    obtain ⟨arena, strings, on', rfl, hrelinks, hchained', -⟩ :=
      run_linkString hne hd hcached hchained hfresh hlink
    rw [List.append_nil] at hchained'
    exact ⟨arena, _, on', rfl, hrelinks, hchained'⟩
  split at hrun
  · rw [run_bind] at hrun
    obtain ⟨_, _, hgrow, hrun⟩ := hrun
    obtain ⟨arena, strings, events, on', rfl, hrelinks, hchained', hsub⟩ :=
      run_growStrings hset hgrow
    obtain ⟨d, hd, hdc⟩ := hrelinks.unlinked hself
    have hcached : d.flags.cached = true := by
      rw [Cell.flags, Cell.header_of_unlinked hdc]
      rfl
    obtain ⟨arena', strings', on'', rfl, hrelinks', hchained''⟩ :=
      hlast _ on' d (fun hon => hfresh (hsub h hon)) hd hcached hchained' hrun
    exact ⟨arena', strings', events, on'', rfl, hrelinks.trans hrelinks', hchained''⟩
  · obtain ⟨arena, strings, on', rfl, hrelinks, hchained'⟩ :=
      hlast _ on _ hfresh hself rfl hset hrun
    exact ⟨arena, strings, _, on', rfl, hrelinks, hchained'⟩

end HeapM

end ManagedHeap
