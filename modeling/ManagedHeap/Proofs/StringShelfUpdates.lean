import ManagedHeap.Proofs.StringShelves

/-!
# Work on the shelves

A search along a chain finds the string that it is after, if it is there. Linking puts a
string on the shelf of its hash, growing puts every string on the shelf of its hash in the
larger cache, and evicting finds the string wherever it stands on its shelf.
-/

namespace ManagedHeap

def StringCache.rebucket (c : StringCache) (buckets : Array Handle) : StringCache :=
  { c with buckets }

namespace HeapM

open Arena

variable {heap heap' : Heap} {h next : Handle} {shelf : Nat → List Handle} {on : Handle → Prop}

theorem run_cachedHash_of_text {t : Text} (ht : heap.arena.textAt h = some t) :
    (cachedHash h).run heap = .ok (t.hash, heap) := by
  obtain ⟨c, hc, hct⟩ := textAt_eq_some.mp ht
  simp only [cachedHash, run_bind, run_payload]
  refine ⟨_, heap, ⟨c, hc, rfl, rfl⟩, ?_⟩
  rw [(Cell.text?_eq_some.mp hct).2]
  rfl

theorem ends_searchChain {bytes : Bytes} {encoding : Encoding} {hash : UInt32} :
    ∀ (fuel : Nat) (cursor : Handle) (hs : List Handle), Linked heap.arena cursor hs →
      (∀ h ∈ hs, ∃ t, heap.arena.textAt h = some t) → hs.length < fuel →
      (searchChain bytes encoding hash cursor fuel).run heap =
        .ok (hs.find? (heap.arena.shows ⟨bytes, encoding, hash⟩), heap) := by
  intro fuel
  induction fuel with
  | zero =>
    intro cursor hs _ _ hlt
    exact absurd hlt (Nat.not_lt_zero _)
  | succ fuel ih =>
    intro cursor hs hlinked htexts hlt
    unfold searchChain
    split
    · rename_i hnil
      obtain rfl : cursor = .nil := by simpa [Handle.isNil] using hnil
      rw [hlinked.of_nil]
      rfl
    · rename_i hnil
      have hne : cursor ≠ .nil := by simpa [Handle.isNil] using hnil
      obtain ⟨c, rest, rfl, hc, hrest⟩ := hlinked.of_ne_nil hne
      obtain ⟨t, ht⟩ := htexts cursor List.mem_cons_self
      have hct := (textAt_of_get? hc).symm.trans ht
      have hpayload := (Cell.text?_eq_some.mp hct).2
      rw [run_bind]
      refine ⟨c, heap, run_cell.mpr ⟨hc, rfl⟩, ?_⟩
      rw [hpayload]
      dsimp only
      split
      · rename_i hfound
        obtain ⟨rfl, rfl, rfl⟩ := hfound
        rw [List.find?_cons_of_pos (shows_iff.mpr ht)]
        rfl
      · rename_i hother
        have hdiffers : ¬ heap.arena.shows ⟨bytes, encoding, hash⟩ cursor = true := by
          rw [shows_iff, ht, Option.some.injEq]
          rintro rfl
          exact hother ⟨rfl, rfl, rfl⟩
        rw [List.find?_cons_of_neg hdiffers]
        refine ih c.attrib rest hrest (fun h hh => htexts h (List.mem_cons_of_mem _ hh)) ?_
        rw [List.length_cons] at hlt
        omega

theorem ends_findCached (bytes : Bytes) (encoding : Encoding) (hash : UInt32)
    (hs : Shelved heap.arena heap.strings shelf on) (ht : heap.arena.Tidy) :
    ∃ found, (findCached bytes encoding hash).run heap = .ok (found, heap) ∧
      (∀ h, found = some h → on h ∧ heap.arena.textAt h = some ⟨bytes, encoding, hash⟩) ∧
      (found = none → ∀ h, on h → heap.arena.textAt h ≠ some ⟨bytes, encoding, hash⟩) := by
  have hlinked := hs.linked (heap.strings.bucketOf hash)
  refine ⟨(shelf (heap.strings.bucketOf hash)).find? (heap.arena.shows ⟨bytes, encoding, hash⟩),
    ?_, ?_, ?_⟩
  · simp only [findCached, run_bind, run_get, run_walkBound]
    refine ⟨heap, heap, ⟨rfl, rfl⟩, _, heap, ⟨rfl, rfl⟩, ?_⟩
    refine ends_searchChain _ _ _ hlinked (fun h hh => hs.texts (hs.placed.mp hh).1) ?_
    exact Nat.lt_succ_of_le (hlinked.length_le ht)
  · intro h hfound
    have hmem := List.mem_of_find?_eq_some hfound
    exact ⟨(hs.placed.mp hmem).1, shows_iff.mp (List.find?_some hfound)⟩
  · intro hnone h hh htext
    have hmem := hs.mem hh htext
    exact List.find?_eq_none.mp hnone h hmem (shows_iff.mpr htext)

theorem shelved_linkString {t : Text} {c : Cell} {u : PUnit}
    (hs : Shelved heap.arena heap.strings shelf on) (hne : h ≠ .nil)
    (hc : heap.arena.get? h = some c) (ht : c.text? = some t) (hout : ¬ on h)
    (hrun : (linkString h t.hash).run heap = .ok (u, heap')) :
    ∃ arena buckets shelf', heap' =
        { heap with arena, strings := heap.strings.rebucket buckets } ∧
      buckets.size = heap.strings.buckets.size ∧
      arena = heap.arena.setCell h (fun c =>
        { c with attrib := heap.strings.head (heap.strings.bucketOf t.hash) }) ∧
      Shelved arena (heap.strings.rebucket buckets) shelf' fun k => k = h ∨ on k := by
  simp only [linkString, run_bind, run_get, run_updateCell, run_modifyStrings] at hrun
  obtain ⟨_, _, ⟨rfl, rfl⟩, _, _, ⟨-, rfl⟩, rfl⟩ := hrun
  exact ⟨_, _, _, rfl, heap.strings.size_setHead, rfl, hs.put hne hc ht hout⟩

theorem shelved_relinkChain {heads : List Handle} {u : PUnit} :
    ∀ (fuel : Nat) (cursor : Handle) (heap : Heap) (shelf : Nat → List Handle)
      (on loose : Handle → Prop), Shelved heap.arena heap.strings shelf on →
      Chained heap.arena (cursor :: heads) loose → (∀ h, loose h → ¬ on h) →
      (∀ h, loose h → ∃ t, heap.arena.textAt h = some t) →
      (relinkChain cursor fuel).run heap = .ok (u, heap') →
      ∃ arena buckets shelf', ∃ taken : Handle → Prop,
        heap' = { heap with arena, strings := heap.strings.rebucket buckets } ∧
        buckets.size = heap.strings.buckets.size ∧ Relinks heap.arena arena ∧
        Shelved arena (heap.strings.rebucket buckets) shelf' (fun h => on h ∨ taken h) ∧
        Chained arena heads (fun h => loose h ∧ ¬ taken h) ∧ ∀ h, taken h → loose h := by
  intro fuel
  induction fuel with
  | zero =>
    intro cursor heap shelf on loose _ _ _ _ hrun
    rw [relinkChain, run_throw] at hrun
    exact hrun.elim
  | succ fuel ih =>
    intro cursor heap shelf on loose hs hloose hapart htexts hrun
    replace hloose : Chained heap.arena ([] ++ cursor :: heads) loose := hloose
    simp only [relinkChain] at hrun
    split at hrun
    · rename_i hnil
      obtain rfl : cursor = .nil := by simpa [Handle.isNil] using hnil
      obtain ⟨-, rfl⟩ := run_pure.mp hrun
      refine ⟨_, heap.strings.buckets, shelf, fun _ => False, rfl, rfl, .refl _ _, ?_, ?_, fun _ hno => hno.elim⟩
      · exact hs.on_congr fun h => by simp
      · obtain ⟨chains, hheads, hlinked, honce, hon⟩ := hloose.drop_nil
        exact ⟨chains, hheads, hlinked, honce, fun h => by rw [← hon h]; simp⟩
    · rename_i hnil
      have hne : cursor ≠ .nil := by simpa [Handle.isNil] using hnil
      obtain ⟨hs₀, hchain, -, hmem⟩ := hloose.chain
      obtain ⟨c₀, _, rfl, hc₀, -⟩ := hchain.of_ne_nil hne
      have hcursor := hmem cursor List.mem_cons_self
      obtain ⟨t, ht⟩ := htexts cursor hcursor
      have hct : c₀.text? = some t := (textAt_of_get? hc₀).symm.trans ht
      simp only [run_bind, run_cell] at hrun
      obtain ⟨c, _, ⟨hget, rfl⟩, hash, _, hhash, _, mid, hlink, hrun⟩ := hrun
      rw [hc₀, Option.some.injEq] at hget
      subst hget
      rw [run_cachedHash_of_text ht, Except.ok.injEq, Prod.mk.injEq] at hhash
      obtain ⟨rfl, rfl⟩ := hhash
      obtain ⟨arena, buckets, shelf', rfl, hsize, harena, hshelved⟩ :=
        shelved_linkString hs hne hc₀ hct (hapart cursor hcursor) hlink
      have hrelinks : Relinks heap.arena arena := by
        rw [harena]
        exact .relink _ hc₀ (Cell.text?_eq_some.mp hct).1
      have hrest : Chained arena (c₀.attrib :: heads) fun k => loose k ∧ k ≠ cursor := by
        rw [harena]
        exact (hloose.pop hne hc₀).setCell fun hh => hh.2 rfl
      obtain ⟨arena', buckets', shelf'', taken, rfl, hsize', hrelinks', hshelved', hchained,
        htaken⟩ := ih c₀.attrib _ shelf' _ _ hshelved hrest
          (fun k hk => by
            rintro (rfl | hk')
            · exact hk.2 rfl
            · exact hapart k hk.1 hk')
          (fun k hk => by
            change ∃ t, arena.textAt k = some t
            rw [hrelinks.textAt]
            exact htexts k hk.1) hrun
      refine ⟨arena', buckets', shelf'', fun k => k = cursor ∨ taken k, rfl, hsize'.trans hsize,
        hrelinks.trans hrelinks', ?_, ?_, ?_⟩
      · exact hshelved'.on_congr fun k => by tauto
      · obtain ⟨chains, hheads, hlinked, honce, hon⟩ := hchained
        exact ⟨chains, hheads, hlinked, honce, fun k => by rw [← hon k]; tauto⟩
      · rintro k (rfl | hk)
        · exact hcursor
        · exact (htaken k hk).1

theorem shelved_relinkChains {u : PUnit} (fuel : Nat) :
    ∀ (heads : List Handle) (heap : Heap) (shelf : Nat → List Handle) (on loose : Handle → Prop),
      Shelved heap.arena heap.strings shelf on → Chained heap.arena heads loose →
      (∀ h, loose h → ¬ on h) → (∀ h, loose h → ∃ t, heap.arena.textAt h = some t) →
      (relinkChains fuel heads).run heap = .ok (u, heap') →
      ∃ arena buckets shelf', heap' = { heap with arena, strings := heap.strings.rebucket buckets } ∧
        buckets.size = heap.strings.buckets.size ∧ Relinks heap.arena arena ∧
        Shelved arena (heap.strings.rebucket buckets) shelf' fun h => on h ∨ loose h := by
  intro heads
  induction heads with
  | nil =>
    intro heap shelf on loose hs hloose _ _ hrun
    obtain ⟨-, rfl⟩ := run_pure.mp hrun
    obtain ⟨chains, hheads, -, -, hon⟩ := hloose
    obtain rfl := List.map_eq_nil_iff.mp hheads
    refine ⟨_, heap.strings.buckets, shelf, rfl, rfl, .refl _ _, hs.on_congr fun h => ?_⟩
    simp [hon h]
  | cons head heads ih =>
    intro heap shelf on loose hs hloose hapart htexts hrun
    simp only [relinkChains, run_bind] at hrun
    obtain ⟨_, mid, hhead, hrun⟩ := hrun
    obtain ⟨arena, buckets, shelf', taken, rfl, hsize, hrelinks, hshelved, hchained, htaken⟩ :=
      shelved_relinkChain fuel head heap shelf on loose hs hloose hapart htexts hhead
    obtain ⟨arena', buckets', shelf'', rfl, hsize', hrelinks', hshelved'⟩ :=
      ih _ shelf' _ _ hshelved hchained
        (fun h hh => by
          rintro (hon | hon)
          · exact hapart h hh.1 hon
          · exact hh.2 hon)
        (fun h hh => by
          change ∃ t, arena.textAt h = some t
          rw [hrelinks.textAt]
          exact htexts h hh.1) hrun
    refine ⟨arena', buckets', shelf'', rfl, hsize'.trans hsize, hrelinks.trans hrelinks', ?_⟩
    refine hshelved'.on_congr fun h => ?_
    have htook := htaken h
    tauto

theorem shelved_growStrings {u : PUnit} (hs : Shelved heap.arena heap.strings shelf on)
    (hmax : 0 < heap.strings.maxSize) (hrun : growStrings.run heap = .ok (u, heap')) :
    ∃ arena buckets events shelf', heap' = { heap with
        arena, strings := heap.strings.rebucket buckets, journal := { heap.journal with events } } ∧
      buckets.size = min (heap.strings.buckets.size * 2) heap.strings.maxSize ∧
      Relinks heap.arena arena ∧ Shelved arena (heap.strings.rebucket buckets) shelf' on := by
  simp only [growStrings, run_bind, run_get, run_modifyStrings, run_walkBound, note,
    run_modify] at hrun
  obtain ⟨_, _, ⟨rfl, rfl⟩, _, _, rfl, _, _, ⟨rfl, rfl⟩, _, _, hrelink, rfl⟩ := hrun
  let larger := heap.strings.rebucket
    (Array.replicate (min (heap.strings.buckets.size * 2) heap.strings.maxSize) .nil)
  have hempty : Shelved heap.arena larger (fun _ => []) fun _ => False := by
    refine .empty ?_ fun i => ?_
    · have hroom := hs.room
      simp only [larger, StringCache.rebucket, Array.size_replicate]
      omega
    · simp only [larger, StringCache.head, StringCache.rebucket, Array.getElem?_replicate]
      split <;> rfl
  obtain ⟨arena, buckets, shelf', rfl, hsize, hrelinks, hshelved⟩ :=
    shelved_relinkChains _ _ { heap with strings := larger } _ _ on hempty hs.chained
      (fun _ _ => id) (fun _ => hs.texts) hrelink
  refine ⟨arena, buckets, _, shelf', rfl, hsize.trans Array.size_replicate, hrelinks, ?_⟩
  exact hshelved.on_congr fun h => by simp

end HeapM

def StringCache.roomier (c : StringCache) : Nat :=
  if c.needsGrowth then min (c.buckets.size * 2) c.maxSize else c.buckets.size

def StringCache.rebucketed (c : StringCache) (buckets : Array Handle) : StringCache :=
  { c with buckets, entries := c.entries + 1 }

namespace HeapM

open Arena

variable {heap heap' : Heap} {h next : Handle} {shelf : Nat → List Handle} {on : Handle → Prop}

theorem shelved_cacheString {c : Cell} {bytes : Bytes} {encoding : Encoding} {hash : UInt32}
    {ascii : Bool} {u : PUnit} (hs : Shelved heap.arena heap.strings shelf on)
    (hmax : 0 < heap.strings.maxSize) (hne : h ≠ .nil) (hc : heap.arena.get? h = some c)
    (hout : ¬ on h)
    (hrun : (cacheString h bytes encoding hash ascii).run heap = .ok (u, heap')) :
    ∃ arena buckets events shelf', heap' = { heap with
        arena, strings := heap.strings.rebucketed buckets,
        journal := { heap.journal with events } } ∧
      buckets.size = heap.strings.roomier ∧
      Relinks (heap.arena.setCell h (Cell.interned bytes encoding hash ascii)) arena ∧
      Shelved arena (heap.strings.rebucketed buckets) shelf' fun k => k = h ∨ on k := by
  let start : Heap :=
    { heap with arena := heap.arena.setCell h (Cell.interned bytes encoding hash ascii) }
  have hself : start.arena.get? h = some (c.interned bytes encoding hash ascii) :=
    get?_setCell_self hc (get?_eq_some.mp hc).2
  have hset : Shelved start.arena start.strings shelf on := hs.setCell hout
  simp only [cacheString, run_bind, run_updateCell, run_get] at hrun
  obtain ⟨_, mid, ⟨-, hmid⟩, _, _, ⟨rfl, rfl⟩, hrun⟩ := hrun
  change mid = start at hmid
  subst hmid
  -- the last two steps, from a cache that has room
  have hlast : ∀ (roomy : Heap) (shelf : Nat → List Handle) (d : Cell),
      Shelved roomy.arena roomy.strings shelf on → roomy.arena.get? h = some d →
      d.unlinked = (c.interned bytes encoding hash ascii).unlinked →
      (do linkString h hash
          modifyStrings fun strings => { strings with entries := strings.entries + 1 } :
        HeapM PUnit).run roomy = .ok (u, heap') →
      ∃ arena buckets shelf', heap' =
          { roomy with arena, strings := roomy.strings.rebucketed buckets } ∧
        buckets.size = roomy.strings.buckets.size ∧ Relinks roomy.arena arena ∧
        Shelved arena (roomy.strings.rebucketed buckets) shelf' fun k => k = h ∨ on k := by
    intro roomy shelf d hs hd hdc hrun
    have htext : d.text? = some ⟨bytes, encoding, hash⟩ :=
      (Cell.text?_of_unlinked hdc).trans (Cell.text?_interned ..)
    simp only [run_bind, run_modifyStrings] at hrun
    obtain ⟨_, _, hlink, rfl⟩ := hrun
    obtain ⟨arena, buckets, shelf', rfl, hsize, harena, hshelved⟩ :=
      shelved_linkString hs hne hd htext hout hlink
    refine ⟨arena, buckets, shelf', rfl, hsize, ?_, ?_⟩
    · rw [harena]
      exact .relink _ hd (Cell.text?_eq_some.mp htext).1
    · exact hshelved.congr (fun _ => rfl) rfl fun _ _ e he => ⟨e, he, rfl, rfl⟩
  split at hrun
  · rename_i hgrows
    rw [run_bind] at hrun
    obtain ⟨_, _, hgrow, hrun⟩ := hrun
    obtain ⟨arena, buckets, events, shelf', rfl, hsize, hrelinks, hshelved⟩ :=
      shelved_growStrings hset hmax hgrow
    obtain ⟨d, hd, hdc⟩ := hrelinks.unlinked hself
    obtain ⟨arena', buckets', shelf'', rfl, hsize', hrelinks', hshelved'⟩ :=
      hlast _ shelf' d hshelved hd hdc hrun
    refine ⟨arena', buckets', events, shelf'', rfl, ?_, hrelinks.trans hrelinks', hshelved'⟩
    rw [hsize', StringCache.roomier, if_pos hgrows]
    exact hsize
  · rename_i hroom
    obtain ⟨arena, buckets, shelf', rfl, hsize, hrelinks, hshelved⟩ :=
      hlast _ shelf _ hset hself rfl hrun
    refine ⟨arena, buckets, heap.journal.events, shelf', rfl, ?_, hrelinks, hshelved⟩
    rw [hsize, StringCache.roomier, if_neg hroom]

theorem ends_unlinkString :
    ∀ (fuel : Nat) (cursor : Handle) (hs : List Handle), Linked heap.arena cursor hs → h ∈ hs →
      cursor ≠ h → hs.length ≤ fuel →
      ∃ heap', (unlinkString h next cursor fuel).run heap = .ok (⟨⟩, heap') := by
  intro fuel
  induction fuel with
  | zero =>
    intro cursor hs _ hh _ hlength
    rw [List.eq_nil_of_length_eq_zero (Nat.le_zero.mp hlength)] at hh
    exact absurd hh List.not_mem_nil
  | succ fuel ih =>
    intro cursor hs hlinked hh hne hlength
    have hnil : cursor ≠ .nil := by
      rintro rfl
      rw [hlinked.of_nil] at hh
      exact absurd hh List.not_mem_nil
    obtain ⟨c, rest, rfl, hc, hrest⟩ := hlinked.of_ne_nil hnil
    have hstep : ∀ {act : HeapM Unit}, (if c.attrib = h
          then updateCell cursor fun c => { c with attrib := next }
          else unlinkString h next c.attrib fuel) = act →
        (∃ heap', act.run heap = .ok (⟨⟩, heap')) →
        ∃ heap', (unlinkString h next cursor (fuel + 1)).run heap = .ok (⟨⟩, heap') := by
      rintro _ rfl ⟨heap', hact⟩
      refine ⟨heap', ?_⟩
      simp only [unlinkString, Handle.isNil, beq_iff_eq, if_neg hnil]
      exact run_bind.mpr ⟨c, heap, run_cell.mpr ⟨hc, rfl⟩, hact⟩
    by_cases hlink : c.attrib = h
    · exact hstep (if_pos hlink) ⟨_, run_updateCell.mpr ⟨⟨c, hc⟩, rfl⟩⟩
    · have hlater : h ∈ rest := (List.mem_cons.mp hh).resolve_left fun e => hne e.symm
      rw [List.length_cons] at hlength
      exact hstep (if_neg hlink) (ih c.attrib rest hrest hlater hlink (by omega))

theorem shelved_evictString {fs : Flags} (hs : Shelved heap.arena heap.strings shelf on)
    (ht : heap.arena.Tidy) (hh : on h) (hname : fs.symbolName = false) :
    ∃ arena buckets, (evictString h fs).run heap = .ok (true, { heap with
        arena
        strings := { heap.strings with buckets, entries := heap.strings.entries - 1 } }) ∧
      buckets.size = heap.strings.buckets.size ∧ Relinks heap.arena arena ∧
      Shelved arena { heap.strings with buckets, entries := heap.strings.entries - 1 }
        (fun i => (shelf i).erase h) fun k => on k ∧ k ≠ h := by
  obtain ⟨t, htext⟩ := hs.texts hh
  obtain ⟨c, hc, hct⟩ := textAt_eq_some.mp htext
  have hmem := hs.mem hh htext
  have hlinked := hs.linked (heap.strings.bucketOf t.hash)
  have hne : h ≠ .nil := (hlinked.cached hmem).1
  have hlt := heap.strings.bucketOf_lt hs.room t.hash
  have hother : ∀ {i k}, i ≠ heap.strings.bucketOf t.hash →
      k ∈ shelf (heap.strings.bucketOf t.hash) → k ∉ shelf i :=
    fun hi hk hki => hi (hs.apart hki hk)
  have hbegin : ∀ {heap'}, (evictString h fs).run heap = .ok (true, heap') ↔
      (do if heap.strings.head (heap.strings.bucketOf t.hash) = h then
            modifyStrings fun strings =>
              strings.setHead (heap.strings.bucketOf t.hash) c.attrib
          else
            unlinkString h c.attrib (heap.strings.head (heap.strings.bucketOf t.hash)) (← walkBound)
          modifyStrings fun strings => { strings with entries := strings.entries - 1 }
          return true : HeapM Bool).run heap = .ok (true, heap') := by
    intro heap'
    unfold evictString
    rw [if_neg (by simp [hname]), run_bind]
    simp only [run_cachedHash_of_text htext, Except.ok.injEq, Prod.mk.injEq]
    constructor
    · rintro ⟨_, _, ⟨rfl, rfl⟩, hrun⟩
      rw [run_bind] at hrun
      obtain ⟨_, _, hget, hrun⟩ := hrun
      obtain ⟨rfl, rfl⟩ := run_get.mp hget
      rw [run_bind] at hrun
      obtain ⟨d, _, hcell, hrun⟩ := hrun
      obtain ⟨hd, rfl⟩ := run_cell.mp hcell
      rw [hc, Option.some.injEq] at hd
      subst hd
      exact hrun
    · intro hrun
      refine ⟨_, _, ⟨rfl, rfl⟩, run_bind.mpr ⟨_, _, run_get.mpr ⟨rfl, rfl⟩, ?_⟩⟩
      exact run_bind.mpr ⟨_, _, run_cell.mpr ⟨hc, rfl⟩, hrun⟩
  by_cases hhead : heap.strings.head (heap.strings.bucketOf t.hash) = h
  · refine ⟨heap.arena, (heap.strings.setHead (heap.strings.bucketOf t.hash) c.attrib).buckets,
      hbegin.mpr ?_, heap.strings.size_setHead, .refl _ _, ?_⟩
    · rw [if_pos hhead]
      exact run_bind.mpr ⟨⟨⟩, _, run_modifyStrings.mpr rfl,
        run_bind.mpr ⟨⟨⟩, _, run_modifyStrings.mpr rfl, rfl⟩⟩
    · refine hs.remove heap.strings.size_setHead (fun _ => rfl) fun i => ?_
      change Linked heap.arena
        ((heap.strings.setHead (heap.strings.bucketOf t.hash) c.attrib).head i) _
      rw [StringCache.head_setHead hlt]
      by_cases hi : i = heap.strings.bucketOf t.hash
      · subst hi
        rw [if_pos rfl]
        rw [hhead] at hlinked
        obtain ⟨d, rest, hrest, hd, htail⟩ := hlinked.of_ne_nil hne
        rw [hc, Option.some.injEq] at hd
        subst hd
        rwa [hrest, List.erase_cons_head]
      · rw [if_neg hi, List.erase_of_not_mem (hother hi hmem)]
        exact hs.linked i
  · have hbound := Nat.le_succ_of_le (hlinked.length_le ht)
    obtain ⟨mid, hunlink⟩ : ∃ mid, (unlinkString h c.attrib
        (heap.strings.head (heap.strings.bucketOf t.hash)) (heap.arena.capacity + 1)).run heap =
          .ok (⟨⟩, mid) :=
      ends_unlinkString _ _ _ hlinked hmem hhead hbound
    obtain ⟨p, hp, hph, -, rfl, hafter⟩ :=
      run_unlinkString hne hc rfl _ _ _ hlinked hlinked.nodup hhead hunlink
    obtain ⟨-, d, hd, hcached⟩ := hlinked.cached hp
    refine ⟨_, heap.strings.buckets, hbegin.mpr ?_, rfl, .relink c.attrib hd hcached, ?_⟩
    · rw [if_neg hhead]
      exact run_bind.mpr ⟨_, _, run_walkBound.mpr ⟨rfl, rfl⟩, run_bind.mpr ⟨⟨⟩, _, hunlink,
        run_bind.mpr ⟨⟨⟩, _, run_modifyStrings.mpr rfl, rfl⟩⟩⟩
    · refine hs.remove rfl (fun _ => textAt_link _) fun i => ?_
      by_cases hi : i = heap.strings.bucketOf t.hash
      · subst hi
        exact hafter
      · rw [List.erase_of_not_mem (hother hi hmem)]
        exact (hs.linked i).setCell (hother hi hp)

end HeapM

end ManagedHeap
