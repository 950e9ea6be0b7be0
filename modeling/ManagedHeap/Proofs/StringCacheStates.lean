import ManagedHeap.Proofs.SessionCacheSteps
import ManagedHeap.Proofs.StringSearches

/-!
# The string cache in every state

Whatever a session has done, the buckets of the string cache hold just the live cached strings,
each one once and in the bucket of its hash. So a look-up finds a string just if there is one,
and no collection misses a string that it takes out or takes out one that names a symbol.
-/

namespace ManagedHeap

namespace Heap

/-- The buckets hold just the live cached strings. Each is in the bucket that its stored hash
selects, once, and in no other. They are counted, and the number of buckets is a power of two
within the bounds of the configuration. -/
structure Bucketed (heap : Heap) : Prop where
  size : ∃ least size most, heap.config.cacheInitial = 2 ^ least ∧ heap.config.cacheMax = 2 ^ most ∧
    heap.strings.buckets.size = 2 ^ size ∧ least ≤ size ∧ size ≤ most
  chains : ∃ chain : Nat → List Handle,
    (∀ i < heap.strings.buckets.size, Linked heap.arena (heap.strings.head i) (chain i)) ∧
    (∀ i < heap.strings.buckets.size, ∀ h ∈ chain i, ∃ c bytes encoding hash,
      heap.arena.get? h = some c ∧ c.kind = .charString ∧ c.flags.cached = true ∧
      c.payload = .charString bytes encoding hash ∧
      hash.toNat % heap.strings.buckets.size = i) ∧
    ∀ h c, heap.arena.get? h = some c → c.flags.cached = true →
      ∃ i < heap.strings.buckets.size, (chain i).count h = 1 ∧
        ∀ j < heap.strings.buckets.size, j ≠ i → h ∉ chain j
  entries : ∃ hs : List Handle, hs.Nodup ∧
    (∀ h, h ∈ hs ↔ ∃ c, heap.arena.get? h = some c ∧ c.flags.cached = true) ∧
    hs.length = heap.strings.entries

variable {heap heap' : Heap} {level : Level} {reason : Reason} {o : Outcome}

theorem CacheExact.bucketed (hf : heap.CacheExact) (hs : heap.Sound) : heap.Bucketed := by
  obtain ⟨shelf, hshelf⟩ := hf.shelved
  have hcached : ∀ {h}, heap.Caches h ↔ ∃ c, heap.arena.get? h = some c ∧ c.flags.cached = true := by
    intro h
    constructor
    · rintro ⟨t, ht⟩
      obtain ⟨c, hc, hct⟩ := Arena.textAt_eq_some.mp ht
      exact ⟨c, hc, (Cell.text?_eq_some.mp hct).1⟩
    · rintro ⟨c, hc, hcc⟩
      exact hf.caches_of_cached hc hcc
  refine ⟨?_, ⟨shelf, fun i _ => hshelf.linked i, ?_, ?_⟩, ?_⟩
  · obtain ⟨least, most, size, hinitial, hmax, -, hsize, hleast, hmost⟩ := hf.sized
    exact ⟨least, size, most, hinitial, hmax, hsize, hleast, hmost⟩
  · intro i _ h hh
    obtain ⟨-, t, ht, hi⟩ := hshelf.placed.mp hh
    obtain ⟨c, hc, hct⟩ := Arena.textAt_eq_some.mp ht
    obtain ⟨hcc, hpayload⟩ := Cell.text?_eq_some.mp hct
    exact ⟨c, t.bytes, t.encoding, t.hash, hc, (hs.proper hc).cached hcc, hcc, hpayload, hi⟩
  · intro h c hc hcc
    obtain ⟨t, ht⟩ := hcached.mpr ⟨c, hc, hcc⟩
    have hin := hshelf.mem ⟨t, ht⟩ ht
    refine ⟨_, heap.strings.bucketOf_lt hshelf.room t.hash,
      List.count_eq_one_of_mem (hshelf.linked _).nodup hin, fun j _ hj hother => ?_⟩
    exact hj (hshelf.apart hother hin)
  · obtain ⟨hs', honce, hmem, hlength⟩ := hf.counted
    exact ⟨hs', honce, fun h => (hmem h).trans hcached, hlength⟩

theorem name_stays {h : Handle} {c : Cell} {t : Text} (hs : heap.Sound)
    (hrun : (HeapM.collect level reason).run heap = .ok (o, heap')) (hc : heap.arena.get? h = some c)
    (hname : c.flags.symbolName = true) (ht : c.text? = some t) :
    ∃ d, heap'.arena.get? h = some d ∧ d.flags.symbolName = true ∧ d.text? = some t := by
  obtain ⟨records, hcol⟩ := HeapM.collect_collected hs hrun
  have hcached := (Cell.text?_eq_some.mp ht).1
  obtain ⟨d, hd⟩ := hcol.stayed hc (.inr (.inr ⟨(hs.proper hc).cached hcached, hcached, hname⟩))
  have hlasting := (hcol.same hc hd).lasting
  exact ⟨d, hd, (Cell.symbolName_of_lasting hlasting).trans hname,
    (Cell.text?_of_lasting hlasting).trans ht⟩

end Heap

namespace Session

/-- In every heap that a session reaches the buckets are as they should be. Hence a look-up
finds a string just if a live cached one has these bytes and this encoding, and a collection at
any level misses no string in its bucket and leaves every string that names a symbol in the
cache. The buckets are so in all heaps that the moves of a run lead through as well, and no
collection misses a string there. -/
theorem buckets_exact {state : State} {heap : Heap} (hr : Reachable state heap) :
    heap.Bucketed ∧
    (∀ bytes encoding, ∃ found,
      (HeapM.findCached bytes encoding (heap.strings.hash bytes encoding)).run heap =
        .ok (found, heap) ∧
      (∀ h, found = some h → ∃ c, heap.arena.get? h = some c ∧
        c.text? = some ⟨bytes, encoding, heap.strings.hash bytes encoding⟩) ∧
      (found = none → ¬ ∃ h c t, heap.arena.get? h = some c ∧ c.text? = some t ∧
        t.bytes = bytes ∧ t.encoding = encoding)) ∧
    (∀ level reason h, (HeapM.collect level reason).run heap ≠ .error (.stringMissing h)) ∧
    (∀ level reason o heap', (HeapM.collect level reason).run heap = .ok (o, heap') →
      heap'.Bucketed ∧ ∀ h c t, heap.arena.get? h = some c → c.flags.symbolName = true →
        c.text? = some t →
        ∃ d, heap'.arena.get? h = some d ∧ d.flags.symbolName = true ∧ d.text? = some t) ∧
    ∃ (config : Config) (hash : Bytes → Encoding → UInt32) (start : Heap), config.Valid ∧
      Heap.build config hash = .ok start ∧ start.CacheSteps .free [] heap ∧
      ∀ mid, start.CacheSteps .free [] mid → mid.Sound → mid.Bucketed ∧
        ∀ level reason h, (HeapM.collect level reason).run mid ≠ .error (.stringMissing h) := by
  have hfinds : ∀ {mid : Heap}, mid.CacheExact → mid.Sound → ∀ level reason h,
      (HeapM.collect level reason).run mid ≠ .error (.stringMissing h) := fun hf hs level reason h hrun =>
    (HeapM.finds_collect hs hf _ rfl).1 _ hrun h rfl
  refine ⟨hr.cacheExact.bucketed hr.sound, fun bytes encoding => ?_, hfinds hr.cacheExact hr.sound, ?_, ?_⟩
  · obtain ⟨found, hrun, hsome, hnone⟩ := hr.cacheExact.findCached hr.sound.tidy bytes encoding
    refine ⟨found, hrun, fun h hh => Arena.textAt_eq_some.mp (hsome h hh), fun hno => ?_⟩
    rintro ⟨h, c, t, hc, hct, hbytes, hencoding⟩
    exact hnone hno h t ((Arena.textAt_of_get? hc).trans hct) ⟨hbytes, hencoding⟩
  · intro level reason o heap' hrun
    exact ⟨(HeapM.cacheExact_collect hr.sound hr.cacheExact hrun).1.bucketed
      (HeapM.Safe.collect _ _ _ hr.sound hrun), fun h c t hc hname ht =>
      Heap.name_stays hr.sound hrun hc hname ht⟩
  · obtain ⟨config, hash, start, hvalid, hbuild, hmoves⟩ := hr.moves
    refine ⟨config, hash, start, hvalid, hbuild, hmoves, fun mid hmid hs => ?_⟩
    have hf := hmid.cacheExact (Heap.build_cacheExact hvalid hbuild)
    exact ⟨hf.bucketed hs, hfinds hf hs⟩

/-- Four strings and the name of a symbol in a cache that starts with one bucket. A minor
collection leaves only the name, and the first string is interned again. -/
def crowdedCache : List Step :=
  [.command (.request (.string #[97] .utf8)) none,
    .command (.request (.string #[98] .utf8)) none,
    .command (.request (.string #[99] .utf8)) none,
    .command (.request (.symbol #[115])) none,
    .command (.request (.string #[100] .utf8)) none,
    .command (.collect .minor) none,
    .command (.request (.string #[97] .utf8)) none]

theorem buckets_exact_crowdedCache : ∃ heap,
    opened { segmentCells := 8, cacheInitial := 1, cacheMax := 4 } crowdedCache = .ok heap ∧
    heap.strings.entries = 2 ∧ heap.strings.buckets.size = 4 ∧ heap.Bucketed ∧
    ∀ level reason h, (HeapM.collect level reason).run heap ≠ .error (.stringMissing h) := by
  obtain ⟨heap, ho, htest⟩ := except_of_test
    (x := opened { segmentCells := 8, cacheInitial := 1, cacheMax := 4 } crowdedCache)
    (p := fun heap => decide (heap.strings.entries = 2 ∧ heap.strings.buckets.size = 4))
    (by decide +kernel)
  obtain ⟨hentries, hsize⟩ := of_decide_eq_true htest
  obtain ⟨state, hr⟩ := reachable_of_opened rfl ho
  obtain ⟨hbucketed, -, hfinds, -⟩ := buckets_exact hr
  exact ⟨heap, ho, hentries, hsize, hbucketed, hfinds⟩

end Session

end ManagedHeap
