import ManagedHeap.Proofs.Collection
import ManagedHeap.Proofs.StringShelfUpdates
import ManagedHeap.Proofs.HoareTriples

/-!
# The string cache of a heap

Between operations every cached string is on the shelf of its hash, and the cache counts
them. A sweep takes dead strings off one by one while others of the same chain still wait,
so the invariant is kept by each position of the sweep, and none of its searches can fail.
-/

namespace ManagedHeap

def HeapM.Ends {α : Type} (P : Heap → Prop) (act : HeapM α) (Q : α → Heap → Prop) : Prop :=
  ∀ heap, P heap → ∃ a heap', act.run heap = .ok (a, heap') ∧ Q a heap'

namespace HeapM.Ends

variable {α β : Type} {P P' : Heap → Prop} {Q : α → Heap → Prop} {R : β → Heap → Prop}
  {x : HeapM α} {f : α → HeapM β}

theorem bind (hx : Ends P x Q) (hf : ∀ a, Ends (Q a) (f a) R) : Ends P (x >>= f) R := by
  intro heap hP
  obtain ⟨a, mid, hfirst, hQ⟩ := hx heap hP
  obtain ⟨b, heap', hrest, hR⟩ := hf a mid hQ
  exact ⟨b, heap', run_bind.mpr ⟨a, mid, hfirst, hrest⟩, hR⟩

theorem pure {a : α} (h : ∀ heap, P heap → Q a heap) : Ends P (pure a) Q :=
  fun heap hP => ⟨a, heap, rfl, h heap hP⟩

theorem get {Q : Heap → Heap → Prop} (h : ∀ heap, P heap → Q heap heap) : Ends P get Q :=
  fun heap hP => ⟨heap, heap, rfl, h heap hP⟩

theorem run {heap heap' : Heap} {a : α} (hx : Ends P x Q) (hP : P heap)
    (hrun : x.run heap = .ok (a, heap')) : Q a heap' := by
  obtain ⟨b, mid, hend, hQ⟩ := hx heap hP
  rw [hrun, Except.ok.injEq, Prod.mk.injEq] at hend
  obtain ⟨rfl, rfl⟩ := hend
  exact hQ

end HeapM.Ends

/-- The place of a cached object in the cache: its text and its link. -/
def Cell.place? (c : Cell) : Option (Option Text × Handle) :=
  if c.flags.cached then some (c.text?, c.attrib) else none

namespace Cell

variable {c d : Cell}

theorem place?_of_cached (hc : c.flags.cached = true) : c.place? = some (c.text?, c.attrib) :=
  if_pos hc

theorem place?_of_not_cached (hc : c.flags.cached = false) : c.place? = none :=
  if_neg (by simp [hc])

theorem text?_eq_place? (c : Cell) : c.text? = c.place?.bind Prod.fst := by
  unfold place?
  split
  · rfl
  · rename_i hc
    exact text?_of_not_cached (by simpa using hc)

theorem cached_of_place? {e : Option Text × Handle} (he : c.place? = some e) :
    c.flags.cached = true ∧ e = (c.text?, c.attrib) := by
  unfold place? at he
  split at he
  · rename_i hc
    exact ⟨hc, (Option.some.inj he).symm⟩
  · exact nomatch he

theorem place?_congr (hcached : d.flags.cached = c.flags.cached)
    (hpayload : c.flags.cached = true → d.text? = c.text?)
    (hattrib : c.flags.cached = true → d.attrib = c.attrib) : d.place? = c.place? := by
  unfold place?
  rw [hcached]
  split
  · rename_i hc
    rw [hpayload hc, hattrib hc]
  · rfl

theorem text?_of_lasting (he : d.lasting = c.lasting) : d.text? = c.text? := by
  have hforget : ∀ c : Cell, c.text? =
      ({ c with payload := c.payload.forgetting } : Cell).text? := by
    rintro ⟨header, attrib, payload⟩
    cases payload <;> rfl
  rw [hforget d, hforget c]
  exact text?_congr (show d.flags.cached = c.flags.cached from cached_of_lasting he)
    (forgetting_of_lasting he)

end Cell

namespace Arena

def placeAt (a : Arena) (h : Handle) : Option (Option Text × Handle) := (a.get? h).bind Cell.place?

variable {a b : Arena} {h k : Handle} {c d : Cell} {f : Cell → Cell}

theorem placeAt_of_get? (hc : a.get? h = some c) : a.placeAt h = c.place? := by
  rw [placeAt, hc, Option.bind_some]

theorem placeAt_of_none (hc : a.get? h = none) : a.placeAt h = none := by
  rw [placeAt, hc, Option.bind_none]

theorem textAt_eq_placeAt (a : Arena) (h : Handle) : a.textAt h = (a.placeAt h).bind Prod.fst := by
  unfold textAt placeAt
  cases a.get? h with
  | none => rfl
  | some c => exact c.text?_eq_place?

theorem textAt_congr (he : b.placeAt h = a.placeAt h) : b.textAt h = a.textAt h := by
  rw [textAt_eq_placeAt, textAt_eq_placeAt, he]

theorem placeAt_setCell (hc : a.get? h = some c) (hlive : (f c).isFree = false)
    (hf : (f c).place? = c.place?) (k : Handle) : (a.setCell h f).placeAt k = a.placeAt k := by
  by_cases hk : k = h
  · subst hk
    rw [placeAt_of_get? (get?_setCell_self hc hlive), placeAt_of_get? hc, hf]
  · rw [placeAt, placeAt, get?_setCell_ne hk]

theorem placeAt_of_get?_map {f : Handle → Cell → Cell} (hget : ∀ h, b.get? h = (a.get? h).map (f h))
    (hf : ∀ h c, (f h c).place? = c.place?) (h : Handle) : b.placeAt h = a.placeAt h := by
  rw [placeAt, hget h, placeAt]
  cases a.get? h with
  | none => rfl
  | some c => exact hf h c

theorem release_of_get? (hc : a.get? h = some c) : ∃ b, a.release h = .ok b := by
  obtain ⟨hat, hlive⟩ := get?_eq_some.mp hc
  have hlt := segment_lt hat
  have hs : a.segments[h.segment]? = some a.segments[h.segment] := Array.getElem?_eq_getElem hlt
  rw [cellAt?, hs] at hat
  simp only [release, hs, hat, hlive]
  exact ⟨_, rfl⟩

theorem get?_release (hr : a.release h = .ok b) (k : Handle) :
    b.get? k = if k = h then none else a.get? k := by
  obtain ⟨-, -, -, hcells⟩ := release_eq_ok hr
  simp only [get?, hcells k]
  split
  · cases a.cellAt? k <;> rfl
  · rfl

end Arena

def StringCache.Sized (c : StringCache) (config : Config) : Prop :=
  ∃ least most size, config.cacheInitial = 2 ^ least ∧ config.cacheMax = 2 ^ most ∧
    c.maxSize = 2 ^ most ∧ c.buckets.size = 2 ^ size ∧ least ≤ size ∧ size ≤ most

theorem StringCache.Sized.roomier {c d : StringCache} {config : Config} (hs : c.Sized config)
    (hmax : d.maxSize = c.maxSize) (hsize : d.buckets.size = c.roomier) : d.Sized config := by
  obtain ⟨least, most, size, hinitial, hmost, hlimit, hbuckets, hleast, hle⟩ := hs
  unfold StringCache.roomier at hsize
  split at hsize
  · rename_i hgrows
    have hlt : size < most := by
      simp only [StringCache.needsGrowth, Bool.and_eq_true, decide_eq_true_eq] at hgrows
      rw [hbuckets, hlimit] at hgrows
      exact (Nat.pow_lt_pow_iff_right (by decide)).mp hgrows.1
    have hdouble : 2 ^ size * 2 ≤ 2 ^ most := by
      rw [← Nat.pow_succ]
      exact Nat.pow_le_pow_right (by decide) hlt
    refine ⟨least, most, size + 1, hinitial, hmost, hmax.trans hlimit, ?_, by omega, hlt⟩
    rw [hsize, hbuckets, hlimit, Nat.min_eq_left hdouble, Nat.pow_succ]
  · exact ⟨least, most, size, hinitial, hmost, hmax.trans hlimit, hsize.trans hbuckets, hleast, hle⟩

namespace Heap

def Caches (heap : Heap) (h : Handle) : Prop := ∃ t, heap.arena.textAt h = some t

/-- Every cached string is on the shelf of its hash, and the cache counts them. -/
structure CacheExact (heap : Heap) : Prop where
  lettered : ∀ {h c}, heap.arena.get? h = some c → c.flags.cached = true → ∃ t, c.text? = some t
  shelved : ∃ shelf, Shelved heap.arena heap.strings shelf heap.Caches
  counted : ∃ hs : List Handle, hs.Nodup ∧ (∀ h, h ∈ hs ↔ heap.Caches h) ∧
    hs.length = heap.strings.entries
  hashed : ∀ {h t}, heap.arena.textAt h = some t → t.hash = heap.strings.hash t.bytes t.encoding
  sized : heap.strings.Sized heap.config

/-- What caching a string makes of a heap. -/
structure Stores (heap heap' : Heap) (h : Handle) (bytes : Bytes) (encoding : Encoding)
    (ascii : Bool) : Prop where
  rest : ∃ arena buckets events, heap' = { heap with
    arena, strings := heap.strings.rebucketed buckets, journal := { heap.journal with events } }
  relinks : Relinks (heap.arena.setCell h
    (Cell.interned bytes encoding (heap.strings.hash bytes encoding) ascii)) heap'.arena

theorem Stores.textAt {heap heap' : Heap} {h : Handle} {bytes : Bytes} {encoding : Encoding}
    {ascii : Bool} {c : Cell} (hs : heap.Stores heap' h bytes encoding ascii)
    (hc : heap.arena.get? h = some c) (k : Handle) : heap'.arena.textAt k =
      if k = h then some ⟨bytes, encoding, heap.strings.hash bytes encoding⟩
      else heap.arena.textAt k := by
  rw [hs.relinks.textAt]
  split
  · rename_i hk
    subst hk
    rw [Arena.textAt_of_get? (Arena.get?_setCell_self hc (Arena.get?_eq_some.mp hc).2)]
    rfl
  · rename_i hk
    exact Arena.textAt_setCell_ne hk

namespace CacheExact

variable {heap heap' : Heap} {h : Handle}

theorem caches_of_cached {c : Cell} (hf : heap.CacheExact) (hc : heap.arena.get? h = some c)
    (hcached : c.flags.cached = true) : heap.Caches h := by
  obtain ⟨t, ht⟩ := hf.lettered hc hcached
  exact ⟨t, (Arena.textAt_of_get? hc).trans ht⟩

theorem not_caches {c : Cell} (hc : heap.arena.get? h = some c) (hcached : c.flags.cached = false) :
    ¬ heap.Caches h := by
  rintro ⟨t, ht⟩
  rw [Arena.textAt_of_get? hc, Cell.text?_of_not_cached hcached] at ht
  exact nomatch ht

theorem congr (hf : heap.CacheExact) (hentries : ∀ h, heap'.arena.placeAt h = heap.arena.placeAt h)
    (hstrings : heap'.strings = heap.strings) (hconfig : heap'.config = heap.config) :
    heap'.CacheExact := by
  have htext : ∀ h, heap'.arena.textAt h = heap.arena.textAt h :=
    fun h => Arena.textAt_congr (hentries h)
  have hcaches : ∀ h, heap'.Caches h ↔ heap.Caches h := fun h => by rw [Caches, Caches, htext]
  obtain ⟨shelf, hshelf⟩ := hf.shelved
  obtain ⟨hs, honce, hmem, hlength⟩ := hf.counted
  have hback : ∀ {h c}, heap'.arena.get? h = some c → c.flags.cached = true →
      ∃ d, heap.arena.get? h = some d ∧ d.flags.cached = true ∧ d.text? = c.text? := by
    intro h c hc hcached
    have hplace := hentries h
    rw [Arena.placeAt_of_get? hc, Cell.place?_of_cached hcached] at hplace
    obtain ⟨d, hd, hde⟩ := Option.bind_eq_some_iff.mp hplace.symm
    obtain ⟨hdc, hsame⟩ := Cell.cached_of_place? hde
    exact ⟨d, hd, hdc, (Prod.mk.inj hsame).1.symm⟩
  refine ⟨?_, ⟨shelf, ?_⟩, ⟨hs, honce, ?_, ?_⟩, ?_, ?_⟩
  · intro h c hc hcached
    obtain ⟨d, hd, hdc, hsame⟩ := hback hc hcached
    rw [← hsame]
    exact hf.lettered hd hdc
  · refine Shelved.on_congr (hshelf.congr (fun i => by rw [hstrings]) (by rw [hstrings]) ?_) hcaches
    rintro h ⟨t, ht⟩ e he
    have hcached : e.flags.cached = true := by
      rw [Arena.textAt_of_get? he] at ht
      exact (Cell.text?_eq_some.mp ht).1
    have hplace := hentries h
    rw [Arena.placeAt_of_get? he, Cell.place?_of_cached hcached] at hplace
    obtain ⟨d, hd, hde⟩ := Option.bind_eq_some_iff.mp hplace
    obtain ⟨-, hsame⟩ := Cell.cached_of_place? hde
    exact ⟨d, hd, (Prod.mk.inj hsame).1.symm, (Prod.mk.inj hsame).2.symm⟩
  · intro h
    rw [hmem, hcaches]
  · rw [hlength, hstrings]
  · intro h t ht
    rw [hstrings]
    exact hf.hashed ((htext h).symm.trans ht)
  · rw [hstrings, hconfig]
    exact hf.sized

theorem findCached (hf : heap.CacheExact) (ht : heap.arena.Tidy) (bytes : Bytes) (encoding : Encoding) :
    ∃ found, (HeapM.findCached bytes encoding (heap.strings.hash bytes encoding)).run heap =
        .ok (found, heap) ∧
      (∀ h, found = some h →
        heap.arena.textAt h = some ⟨bytes, encoding, heap.strings.hash bytes encoding⟩) ∧
      (found = none → ∀ h t, heap.arena.textAt h = some t →
        ¬ (t.bytes = bytes ∧ t.encoding = encoding)) := by
  obtain ⟨shelf, hshelf⟩ := hf.shelved
  obtain ⟨found, hrun, hsome, hnone⟩ := HeapM.ends_findCached bytes encoding
    (heap.strings.hash bytes encoding) hshelf ht
  refine ⟨found, hrun, fun h hh => (hsome h hh).2, fun hno h t htext => ?_⟩
  rintro ⟨rfl, rfl⟩
  refine hnone hno h ⟨t, htext⟩ ?_
  rw [htext, ← hf.hashed htext]

theorem cacheString {c : Cell} {bytes : Bytes} {encoding : Encoding} {ascii : Bool} {u : PUnit}
    (hf : heap.CacheExact) (hne : h ≠ .nil) (hc : heap.arena.get? h = some c)
    (hcached : c.flags.cached = false)
    (hrun : (HeapM.cacheString h bytes encoding (heap.strings.hash bytes encoding) ascii).run heap =
      .ok (u, heap')) : heap'.CacheExact ∧ heap.Stores heap' h bytes encoding ascii := by
  obtain ⟨shelf, hshelf⟩ := hf.shelved
  obtain ⟨hs, honce, hmem, hlength⟩ := hf.counted
  have hout : ¬ heap.Caches h := not_caches hc hcached
  have hmax : 0 < heap.strings.maxSize := by
    obtain ⟨-, most, -, -, -, hmax, -⟩ := hf.sized
    rw [hmax]
    exact Nat.pow_pos (by decide)
  obtain ⟨arena, buckets, events, shelf', rfl, hsize, hrelinks, hshelf'⟩ :=
    HeapM.shelved_cacheString hshelf hmax hne hc hout hrun
  have hstores : heap.Stores { heap with
      arena, strings := heap.strings.rebucketed buckets,
      journal := { heap.journal with events } } h bytes encoding ascii :=
    ⟨⟨arena, buckets, events, rfl⟩, hrelinks⟩
  have htext := fun k => hstores.textAt hc k
  have hcaches : ∀ k, (∃ t, arena.textAt k = some t) ↔ k = h ∨ heap.Caches k := by
    intro k
    rw [htext, Caches]
    by_cases hk : k = h <;> simp [hk]
  refine ⟨⟨?_, ⟨shelf', hshelf'.on_congr hcaches⟩, ⟨h :: hs, ?_, ?_, ?_⟩, ?_, ?_⟩, hstores⟩
  · intro k d hd hdc
    obtain ⟨e, he, hed⟩ := hrelinks.symm.unlinked hd
    rw [← Cell.text?_of_unlinked hed]
    by_cases hk : k = h
    · subst hk
      rw [Arena.get?_setCell_self hc (Arena.get?_eq_some.mp hc).2, Option.some.injEq] at he
      subst he
      exact ⟨_, Cell.text?_interned ..⟩
    · rw [Arena.get?_setCell_ne hk] at he
      refine hf.lettered he ?_
      rw [Cell.flags, Cell.header_of_unlinked hed]
      exact hdc
  · exact List.nodup_cons.mpr ⟨fun hh => hout ((hmem h).mp hh), honce⟩
  · intro k
    change _ ↔ ∃ t, arena.textAt k = some t
    rw [hcaches, List.mem_cons, hmem]
  · rw [List.length_cons, hlength]
    rfl
  · intro k t ht
    rw [htext] at ht
    split at ht
    · rw [Option.some.injEq] at ht
      subst ht
      rfl
    · exact hf.hashed ht
  · exact hf.sized.roomier rfl hsize

end CacheExact

/-- Arena and cache after the cache has let go of an object. -/
structure Evicts (heap : Heap) (h : Handle) (arena : Arena) (strings : StringCache) : Prop where
  relinks : Relinks heap.arena arena
  shelved : ∃ shelf, Shelved arena strings shelf fun k => heap.Caches k ∧ k ≠ h
  counted : ∃ hs : List Handle, hs.Nodup ∧ (∀ k, k ∈ hs ↔ heap.Caches k ∧ k ≠ h) ∧
    hs.length = strings.entries
  hash : strings.hash = heap.strings.hash
  maxSize : strings.maxSize = heap.strings.maxSize
  size : strings.buckets.size = heap.strings.buckets.size

/-- What a sweep of a heap with filed strings relies on, and that it leaves the hash function. -/
structure Sweeps (hash : Bytes → Encoding → UInt32) (heap : Heap) : Prop extends
    heap.Sweepable, heap.CacheExact where
  hash_eq : heap.strings.hash = hash

end Heap

namespace HeapM

open Arena

variable {level : Level} {h : Handle} {hash : Bytes → Encoding → UInt32}

theorem ends_promote {heap : Heap} {c : Cell} (source target : Generation) (chunks : Nat)
    (hs : heap.Sweeps hash) (hc : heap.arena.get? h = some c) :
    ∃ heap', (promote h source target chunks).run heap = .ok (⟨⟩, heap') ∧ heap'.CacheExact ∧
      heap'.strings.hash = hash := by
  refine ⟨{ heap with
      arena := heap.arena.setCell h (Cell.promoted heap.tasks target h)
      generations := (heap.generations.modify source fun u =>
        { objects := u.objects - 1, bigChunks := u.bigChunks - chunks }).modify target fun u =>
        { objects := u.objects + 1, bigChunks := u.bigChunks + chunks } }, ?_, ?_, hs.hash_eq⟩
  · exact run_bind.mpr ⟨heap, heap, rfl, run_bind.mpr
      ⟨⟨⟩, _, run_updateCell.mpr ⟨⟨c, hc⟩, rfl⟩, run_modify.mpr rfl⟩⟩
  · refine hs.toCacheExact.congr (fun k => ?_) rfl rfl
    exact placeAt_setCell (f := Cell.promoted heap.tasks target h) hc (get?_eq_some.mp hc).2 rfl k

theorem ends_reclaim {heap : Heap} {arena : Arena} {strings : StringCache} {c : Cell}
    (kind : Kind) (generation : Generation) (chunks : Nat) (hs : heap.Sweeps hash)
    (hc : heap.arena.get? h = some c) (hgo : heap.Evicts h arena strings) :
    ∃ heap', (reclaim h kind generation chunks).run { heap with arena, strings } =
      .ok (⟨⟩, heap') ∧ heap'.CacheExact ∧ heap'.strings.hash = hash := by
  obtain ⟨hrelinks, ⟨shelf, hshelf⟩, ⟨hs', honce, hmem, hlength⟩, hhash, hmax, hsize⟩ := hgo
  obtain ⟨d, hd, -⟩ := hrelinks.unlinked hc
  obtain ⟨a', hrelease⟩ := release_of_get? hd
  have hget := get?_release hrelease
  have htext : ∀ k, a'.textAt k = if k = h then none else heap.arena.textAt k := by
    intro k
    rw [textAt, hget]
    split
    · rfl
    · exact hrelinks.textAt k
  have hcaches : ∀ k, (∃ t, a'.textAt k = some t) ↔ heap.Caches k ∧ k ≠ h := by
    intro k
    rw [htext, Heap.Caches]
    by_cases hk : k = h <;> simp [hk]
  refine ⟨{ heap with
      arena := a'
      strings
      journal := heap.journal.noteFreed h kind
      generations := heap.generations.modify generation fun u =>
        { objects := u.objects - 1, bigChunks := u.bigChunks - chunks } }, ?_, ?_,
    hhash.trans hs.hash_eq⟩
  · refine run_bind.mpr ⟨⟨⟩, _, run_modify.mpr rfl, run_bind.mpr
      ⟨⟨⟩, _, run_onArena.mpr ⟨a', ?_, rfl⟩, run_modify.mpr rfl⟩⟩
    change Except.map _ (arena.release h) = _
    rw [hrelease]
    rfl
  · refine ⟨?_, ⟨shelf, ?_⟩, ⟨hs', honce, fun k => (hmem k).trans (hcaches k).symm, hlength⟩, ?_, ?_⟩
    · intro k e he hcached
      change a'.get? k = some e at he
      rw [hget] at he
      split at he
      · cases he
      · obtain ⟨e', he', hee⟩ := hrelinks.symm.unlinked he
        rw [← Cell.text?_of_unlinked hee]
        refine hs.lettered he' ?_
        rw [Cell.flags, Cell.header_of_unlinked hee]
        exact hcached
    · refine Shelved.on_congr (hshelf.congr (fun _ => rfl) rfl fun k hk e he => ?_) hcaches
      exact ⟨e, by rw [hget, if_neg hk.2, he], rfl, rfl⟩
    · intro k t ht
      change a'.textAt k = some t at ht
      rw [htext] at ht
      split at ht
      · cases ht
      · change t.hash = strings.hash _ _
        rw [hhash]
        exact hs.hashed ht
    · obtain ⟨least, most, size, hrest⟩ := hs.sized
      exact ⟨least, most, size, by rw [hmax, hsize]; exact hrest⟩

theorem run_sweepCell {heap : Heap} {c : Cell} {large : Bool}
    (hc : heap.arena.cellAt? h = some c) (hsweeps : level.sweeps c = true) :
    (sweepCell level large h).run heap = (do
      let released ← if c.flags.marked then pure false else mayRelease h c
      if released then
        reclaim h c.kind c.header.generation (bigChunksOf large c)
        return some c.header.generation
      else
        promote h c.header.generation level.promotionTarget (bigChunksOf large c)
        return none : HeapM (Option Generation)).run heap := by
  have hcovered : (c.header.isFree || c.header.flags.permanent ||
      !level.covers c.header.generation) = false := by
    simp only [Level.sweeps, Bool.and_eq_true, Bool.not_eq_eq_eq_not, Bool.not_true,
      Cell.isFree, Cell.flags] at hsweeps
    simp [hsweeps]
  rw [sweepCell, run_get_bind, hc]
  dsimp only
  rw [hcovered]
  rfl

theorem run_sweepCell_skipped {heap : Heap} {large : Bool}
    (hskip : (heap.arena.cellAt? h).any level.sweeps = false) :
    (sweepCell level large h).run heap = .ok (none, heap) := by
  rw [sweepCell, run_get_bind]
  cases hc : heap.arena.cellAt? h with
  | none => rfl
  | some c =>
    have hcovered : (c.header.isFree || c.header.flags.permanent ||
        !level.covers c.header.generation) = true := by
      rw [hc, Option.any_some] at hskip
      simp only [Level.sweeps, Cell.isFree, Cell.flags] at hskip
      revert hskip
      cases c.header.isFree <;> cases c.header.flags.permanent <;> simp
    dsimp only
    rw [hcovered]
    rfl

theorem ends_sweepCell (level : Level) (large : Bool) (h : Handle) :
    Ends (Heap.Sweeps hash) (sweepCell level large h) fun _ => Heap.Sweeps hash := by
  intro heap hs
  -- that the rest of what the sweep relies on is kept is known
  suffices hend : ∃ lost heap', (sweepCell level large h).run heap = .ok (lost, heap') ∧
      heap'.CacheExact ∧ heap'.strings.hash = hash by
    obtain ⟨lost, heap', hrun, hcacheExact, hhash⟩ := hend
    exact ⟨lost, heap', hrun, ⟨(Swept.cell hs.toSweepable hrun).1.ready, hcacheExact, hhash⟩⟩
  cases hsweeps : (heap.arena.cellAt? h).any level.sweeps with
  | false => exact ⟨none, heap, run_sweepCell_skipped hsweeps, hs.toCacheExact, hs.hash_eq⟩
  | true =>
    obtain ⟨c, hc, hcovered⟩ := (Option.any_eq_true ..).mp hsweeps
    have hget : heap.arena.get? h = some c := by
      simp only [Level.sweeps, Bool.and_eq_true, Bool.not_eq_eq_eq_not, Bool.not_true] at hcovered
      exact get?_eq_some.mpr ⟨hc, hcovered.1.1⟩
    rw [run_sweepCell hc hcovered]
    -- the two ways on: the object stays, or its cell goes back
    have hkeep : ∀ {released : HeapM Bool}, released.run heap = .ok (false, heap) →
        ∃ lost heap', (do
          if ← released then
            reclaim h c.kind c.header.generation (bigChunksOf large c)
            return some c.header.generation
          else
            promote h c.header.generation level.promotionTarget (bigChunksOf large c)
            return none : HeapM (Option Generation)).run heap = .ok (lost, heap') ∧ heap'.CacheExact ∧
              heap'.strings.hash = hash := by
      intro released hreleased
      obtain ⟨heap', hpromote, hcacheExact⟩ := ends_promote c.header.generation level.promotionTarget
        (bigChunksOf large c) hs hget
      exact ⟨none, heap', run_bind.mpr ⟨false, heap, hreleased,
        run_bind.mpr ⟨⟨⟩, heap', hpromote, rfl⟩⟩, hcacheExact⟩
    have hfree : ∀ {released : HeapM Bool} arena strings,
        released.run heap = .ok (true, { heap with arena, strings }) →
        heap.Evicts h arena strings →
        ∃ lost heap', (do
          if ← released then
            reclaim h c.kind c.header.generation (bigChunksOf large c)
            return some c.header.generation
          else
            promote h c.header.generation level.promotionTarget (bigChunksOf large c)
            return none : HeapM (Option Generation)).run heap = .ok (lost, heap') ∧ heap'.CacheExact ∧
              heap'.strings.hash = hash := by
      intro released arena strings hreleased hgo
      obtain ⟨heap', hreclaim, hcacheExact⟩ := ends_reclaim c.kind c.header.generation
        (bigChunksOf large c) hs hget hgo
      exact ⟨some c.header.generation, heap', run_bind.mpr ⟨true, _, hreleased,
        run_bind.mpr ⟨⟨⟩, heap', hreclaim, rfl⟩⟩, hcacheExact⟩
    obtain ⟨shelf, hshelf⟩ := hs.shelved
    obtain ⟨hs', honce, hmem, hlength⟩ := hs.counted
    cases hmarked : c.flags.marked with
    | true => exact hkeep rfl
    | false =>
      by_cases hcached : c.flags.cached = true
      · have hmay : mayRelease h c = evictString h c.flags :=
          if_pos ⟨hs.strings hget hcached, hcached⟩
        have hin : heap.Caches h := hs.caches_of_cached hget hcached
        rw [if_neg (by decide), hmay]
        cases hname : c.flags.symbolName with
        | true =>
          refine hkeep ?_
          unfold evictString
          rw [if_pos hname]
          rfl
        | false =>
          obtain ⟨arena, buckets, hevict, hsize, hrelinks, hshelved⟩ :=
            shelved_evictString hshelf hs.tidy hin hname
          refine hfree _ _ hevict ⟨hrelinks, ⟨_, hshelved⟩, ⟨hs'.erase h, honce.erase h, ?_, ?_⟩, rfl,
            rfl, hsize⟩
          · intro k
            rw [honce.mem_erase_iff, hmem, and_comm]
          · rw [List.length_erase_of_mem ((hmem h).mpr hin), hlength]
      · rw [Bool.not_eq_true] at hcached
        have hmay : mayRelease h c = pure true := if_neg (by simp [hcached])
        have hout : ¬ heap.Caches h := Heap.CacheExact.not_caches hget hcached
        have hsame : ∀ k, heap.Caches k ∧ k ≠ h ↔ heap.Caches k :=
          fun k => and_iff_left_of_imp fun hk e => hout (e ▸ hk)
        rw [if_neg (by decide), hmay]
        refine hfree heap.arena heap.strings rfl ⟨.refl _ _,
          ⟨shelf, hshelf.on_congr hsame⟩, ⟨hs', honce, ?_, hlength⟩, rfl, rfl, rfl⟩
        intro k
        rw [hmem, hsame]

theorem ends_sweepOffsets (level : Level) (large : Bool) (segment : Nat) (offsets : List Nat)
    (freed : PerGeneration Nat) :
    Ends (Heap.Sweeps hash) (sweepOffsets level large segment offsets freed) fun _ =>
      Heap.Sweeps hash := by
  induction offsets generalizing freed with
  | nil => exact .pure fun _ => id
  | cons offset offsets ih => exact .bind (ends_sweepCell level large _) fun lost => ih _

theorem ends_sweepSegments (level : Level) (segments : List Nat) (freed : PerGeneration Nat) :
    Ends (Heap.Sweeps hash) (sweepSegments level segments freed) fun _ => Heap.Sweeps hash := by
  induction segments generalizing freed with
  | nil => exact .pure fun _ => id
  | cons i rest ih =>
    refine .bind (Q := fun _ => Heap.Sweeps hash) (.get fun _ => id) fun heap => ?_
    split
    · exact ih freed
    · exact .bind (ends_sweepOffsets level _ i _ freed) fun freed => ih freed

theorem ends_sweep (level : Level) :
    Ends (Heap.Sweeps hash) (sweep level) fun _ => Heap.Sweeps hash :=
  .bind (Q := fun _ => Heap.Sweeps hash) (.get fun _ => id) fun heap =>
    ends_sweepSegments level (List.range heap.arena.segmentCount) (.replicate 0)

theorem sweeps_marked {heap : Heap} {cleared : Arena} {m : Marking} {n : Nat} {tasks : Tasks}
    {collecting : Bool} {counters : Counters} (hs : heap.Sound) (hf : heap.CacheExact)
    (hbooks : cleared.books = heap.arena.books)
    (hcells : ∀ h, cleared.cellAt? h =
      (heap.arena.cellAt? h).map fun c => if h ∈ heap.symbols.handles then c.cleared else c)
    (hrun : (do MarkM.markRoots (heap.scan level) heap.rootList heap.remembered.toList
                MarkM.markTasks (heap.scan level) (heap.quietTasks level)
                MarkM.resolveWeak (heap.scan level) heap.weak : MarkM Nat).run { arena := cleared } =
      .ok (n, m)) :
    Heap.Sweeps heap.strings.hash { heap with arena := m.arena, tasks, collecting, counters } := by
  obtain ⟨records, -, htidy, -, -, -, hforth, hback⟩ := run_marked hs hbooks hcells hrun
  refine ⟨sweepable_marked hs htidy hforth hback, hf.congr (fun h => ?_) rfl rfl, rfl⟩
  cases hc : heap.arena.get? h with
  | none =>
    rw [placeAt_of_none hc]
    cases he : m.arena.get? h with
    | none => exact placeAt_of_none he
    | some e =>
      obtain ⟨c, hc'⟩ := hback he
      rw [hc] at hc'
      exact nomatch hc'
  | some c =>
    obtain ⟨e, he, hce⟩ := hforth hc
    rw [placeAt_of_get? hc, placeAt_of_get? he]
    exact Cell.place?_congr (Cell.cached_of_lasting hce.lasting)
      (fun _ => Cell.text?_of_lasting hce.lasting) fun _ => hce.attrib

theorem cacheExact_collect {heap heap' : Heap} {reason : Reason} {o : Outcome} (hs : heap.Sound)
    (hf : heap.CacheExact) (hrun : (collect level reason).run heap = .ok (o, heap')) :
    heap'.CacheExact ∧ heap'.strings.hash = heap.strings.hash := by
  obtain ⟨-, cleared, m, freed, swept, waits, phase, hbooks, hcells, hmark, hsweep, kept, pruned,
    strategy, counters, journal, hprune, rfl, -⟩ := run_collect hrun
  have hswept := (ends_sweep level).run (sweeps_marked hs hf hbooks hcells hmark) hsweep
  obtain ⟨arena, rfl, -, -, hcellsp⟩ := run_pruneRemembered hprune
  refine ⟨hswept.toCacheExact.congr (placeAt_of_get?_map (get?_pruned hcellsp) fun h c => ?_) rfl rfl,
    hswept.hash_eq⟩
  split <;> rfl

end HeapM

end ManagedHeap
