import ManagedHeap.Proofs.StringCacheInvariant

/-!
# A new heap

Construction claims two cells of the first segment, which have to be the first two. A
configuration with a single cell per segment passes the checks and leaves no room for the
second one; with any other valid configuration the heap starts with the two permanent
objects and an empty cache.
-/

namespace ManagedHeap

theorem exists_of_isPowerOfTwo {n : Nat} (hn : isPowerOfTwo n = true) : ∃ k, n = 2 ^ k := by
  simp only [isPowerOfTwo, Bool.and_eq_true, beq_iff_eq] at hn
  exact ⟨n.log2, hn.2.symm.trans (Nat.one_shiftLeft _)⟩

/-- What the checks of a configuration promise to the construction of a heap. -/
structure Config.Valid (c : Config) : Prop where
  cells : 0 < c.segmentCells
  few : c.segmentCells ≤ maxSegmentCells
  room : ∀ {limit}, c.maxCells = some limit → c.segmentCells ≤ limit
  cache : ∃ least most, c.cacheInitial = 2 ^ least ∧ c.cacheMax = 2 ^ most ∧ least ≤ most
  names : c.nameMarkLevel ≤ 2

theorem Config.valid_of_ok {c : Config} (hv : c.validate = .ok ()) : c.Valid := by
  obtain ⟨hfew, hnames⟩ := validate_eq_ok hv
  have hcache : isPowerOfTwo c.cacheInitial = true → isPowerOfTwo c.cacheMax = true →
      ¬ c.cacheMax < c.cacheInitial →
      ∃ least most, c.cacheInitial = 2 ^ least ∧ c.cacheMax = 2 ^ most ∧ least ≤ most := by
    intro hinitial hmax hle
    obtain ⟨least, hleast⟩ := exists_of_isPowerOfTwo hinitial
    obtain ⟨most, hmost⟩ := exists_of_isPowerOfTwo hmax
    rw [hleast, hmost, Nat.not_lt] at hle
    exact ⟨least, most, hleast, hmost, (Nat.pow_le_pow_iff_right (by decide)).mp hle⟩
  simp only [validate, except_bind, except_guard] at hv
  obtain ⟨_, hzero, -, hv⟩ := hv
  have hcells : 0 < c.segmentCells := by
    have hne := (refuse_eq_ok_iff ..).mp hzero ("segment_cells", c.segmentCells) List.mem_cons_self
    exact Nat.pos_of_ne_zero (by simpa using hne)
  cases hmax : c.maxCells with
  | none =>
    simp only [hmax, except_bind, except_guard] at hv
    obtain ⟨_, hpowers, hle, -⟩ := hv
    have hpowers := (refuse_eq_ok_iff ..).mp hpowers
    exact ⟨hcells, hfew, fun hlimit => absurd (hmax.symm.trans hlimit) (by simp),
      hcache (hpowers _ List.mem_cons_self) (hpowers _ (List.mem_cons_of_mem _ List.mem_cons_self))
        hle, hnames⟩
  | some max =>
    simp only [hmax, except_bind, except_guard] at hv
    obtain ⟨hroom, _, hpowers, hle, -⟩ := hv
    have hpowers := (refuse_eq_ok_iff ..).mp hpowers
    refine ⟨hcells, hfew, fun {limit} hlimit => ?_, hcache (hpowers _ List.mem_cons_self)
      (hpowers _ (List.mem_cons_of_mem _ List.mem_cons_self)) hle, hnames⟩
    rw [hmax, Option.some.injEq] at hlimit
    exact hlimit ▸ Nat.le_of_not_lt hroom

/-- A permanent object, which no collection covers and whose count never falls. -/
structure Cell.Fixed (c : Cell) : Prop where
  permanent : c.flags.permanent = true
  generation : c.header.generation = .old
  refcount : c.header.refcount = .many

/-- The two permanent objects are in their places. -/
def Heap.Grounded (heap : Heap) : Prop :=
  ∀ h ∈ [Handle.nil, .unbound], ∃ c, heap.arena.get? h = some c ∧ c.Fixed

namespace Arena

variable {a b c : Arena} {kind : Kind} {payload : Payload} {expected : Handle}

theorem installPermanent_of_free {rest : List Handle} (kind : Kind) (payload : Payload)
    (hfree : a.freeList .fixed = expected :: rest) :
    ∃ b, Heap.installPermanent a kind payload expected = .ok b ∧ b.freeList .fixed = rest := by
  obtain ⟨b, hb⟩ : ∃ b, a.claim? .fixed
      { kind, generation := .old, flags := { permanent := true }, refcount := .many } payload =
      some (expected, b) := by
    unfold claim?
    rw [hfree]
    exact ⟨_, rfl⟩
  refine ⟨b, ?_, ?_⟩
  · simp only [Heap.installPermanent, hb, if_true]
  · obtain ⟨⟨rest', hsplit, hlists⟩, -⟩ := claim?_eq_some hb
    rw [hfree, List.cons.injEq] at hsplit
    rw [hlists, if_pos rfl, hsplit.2]

end Arena

namespace Heap

variable {config : Config} {hash : Bytes → Encoding → UInt32} {heap : Heap}

theorem first_segment (config : Config) : ∃ i a,
    (Arena.empty config.segmentCells).addSegment? .fixed = some (i, a) ∧
      a.freeList .fixed = (List.range config.segmentCells).map (Handle.pack 0) := by
  obtain ⟨p, hp⟩ : ∃ p, (Arena.empty config.segmentCells).addSegment? .fixed = some p := ⟨_, rfl⟩
  obtain ⟨-, -, -, hlists⟩ := Arena.addSegment?_eq_some hp
  refine ⟨p.1, p.2, hp, ?_⟩
  rw [hlists, if_pos rfl]
  exact List.append_nil _

def furnished (config : Config) (hash : Bytes → Encoding → UInt32) (arena : Arena) : Heap :=
  { bare config hash with
    arena
    generations := (bare config hash).generations.modify .old fun u =>
      { u with objects := u.objects + 2 } }

theorem furnish_after {i : Nat} {a : Arena}
    (hsegment : (Arena.empty config.segmentCells).addSegment? .fixed = some (i, a)) :
    furnish (bare config hash) = (do
      let arena ← installPermanent a .nil .nil .nil
      let arena ← installPermanent arena .symbol (.symbol .nil .unbound .nil .nil) .unbound
      pure (furnished config hash arena)) := by
  simp only [furnish]
  rw [show (bare config hash).arena.addSegment? .fixed = some (i, a) from hsegment]
  rfl

theorem build_overflows (hbuckets : bucketLimit ≤ config.cacheInitial) :
    build config hash = .error .capacityOverflow :=
  if_pos (Nat.le_trans hbuckets (Nat.le_max_left ..))

theorem build_eq_furnish (hbuckets : config.cacheInitial < bucketLimit) :
    build config hash = furnish (bare config hash) :=
  if_neg (Nat.not_le.mpr (Nat.max_lt.mpr ⟨hbuckets, by decide⟩))

theorem build_ends (hbuckets : config.cacheInitial < bucketLimit) (hcells : 0 < config.segmentCells)
    (hroom : config.segmentCells ≠ 1) : ∃ heap, build config hash = .ok heap := by
  obtain ⟨i, a₁, hsegment, hfree⟩ := first_segment config
  obtain ⟨n, hn⟩ : ∃ n, config.segmentCells = n + 2 := ⟨config.segmentCells - 2, by omega⟩
  rw [hn, List.range_succ_eq_map, List.range_succ_eq_map] at hfree
  obtain ⟨a₂, hnil, hfree₂⟩ := Arena.installPermanent_of_free .nil .nil hfree
  obtain ⟨a₃, hunbound, -⟩ := Arena.installPermanent_of_free .symbol
    (.symbol .nil .unbound .nil .nil) hfree₂
  rw [build_eq_furnish hbuckets, furnish_after hsegment]
  simp only [except_bind]
  exact ⟨furnished config hash a₃, a₂, hnil, a₃, hunbound, rfl⟩

theorem build_misplaced (hbuckets : config.cacheInitial < bucketLimit)
    (hcells : config.segmentCells = 1) :
    build config hash = .error .permanentMisplaced := by
  obtain ⟨i, a₁, hsegment, hfree⟩ := first_segment config
  rw [hcells] at hfree
  obtain ⟨a₂, hnil, hfree₂⟩ := Arena.installPermanent_of_free .nil .nil hfree
  have hclaim : ∀ {header payload}, a₂.claim? .fixed header payload = none := by
    intro header payload
    unfold Arena.claim?
    rw [hfree₂]
    rfl
  have hunbound : installPermanent a₂ .symbol (.symbol .nil .unbound .nil .nil) .unbound =
      .error .permanentMisplaced := by
    simp only [installPermanent, hclaim]
  rw [build_eq_furnish hbuckets, furnish_after hsegment]
  change (installPermanent a₁ .nil .nil .nil >>= _) = _
  rw [show installPermanent a₁ .nil .nil .nil = .ok a₂ from hnil]
  change (installPermanent a₂ .symbol (.symbol .nil .unbound .nil .nil) .unbound >>= _) = _
  rw [hunbound]
  rfl

theorem build_eq_ok (hb : build config hash = .ok heap) : ∃ arena,
    arena.capacity = config.segmentCells ∧ heap = furnished config hash arena := by
  obtain ⟨i, a₁, hsegment, -⟩ := first_segment config
  replace hb := furnish_of_build hb
  rw [furnish_after hsegment] at hb
  simp only [except_bind, pure, Except.pure, Except.ok.injEq] at hb
  obtain ⟨a₂, hnil, a₃, hunbound, rfl⟩ := hb
  obtain ⟨-, hshape₂, -⟩ := Arena.claim?_eq_some (installPermanent_eq_ok hnil)
  obtain ⟨-, hshape₃, -⟩ := Arena.claim?_eq_some (installPermanent_eq_ok hunbound)
  obtain ⟨-, hsegments, hsize, -⟩ := Arena.addSegment?_eq_some hsegment
  have hshape := hshape₃.trans hshape₂
  refine ⟨a₃, ?_, rfl⟩
  rw [Arena.capacity_of_shape hshape, Arena.capacity, hsegments, hsize]
  exact Nat.one_mul _

theorem build_grounded (hv : config.Valid) (hb : build config hash = .ok heap) :
    heap.Grounded := by
  have hs := build_sound hv.few hv.names hb
  have hfixed : ∀ {h c}, heap.arena.get? h = some c → c.Fixed := by
    intro h c hc
    obtain ⟨kind, payload, rfl, -⟩ := build_cells hb hc
    exact ⟨rfl, rfl, rfl⟩
  intro h hh
  rcases List.mem_cons.mp hh with rfl | hh
  · obtain ⟨c, hc, -⟩ := hs.nilLive
    exact ⟨c, hc, hfixed hc⟩
  · obtain rfl := List.mem_singleton.mp hh
    obtain ⟨c, hc, -⟩ := hs.unboundLive
    exact ⟨c, hc, hfixed hc⟩

theorem build_cached {h : Handle} {c : Cell} (hb : build config hash = .ok heap)
    (hc : heap.arena.get? h = some c) : c.flags.cached = false := by
  obtain ⟨kind, payload, rfl, -⟩ := build_cells hb hc
  rfl

theorem build_textAt (hb : build config hash = .ok heap) (h : Handle) :
    heap.arena.textAt h = none := by
  cases hc : heap.arena.get? h with
  | none => rw [Arena.textAt, hc, Option.bind_none]
  | some c => rw [Arena.textAt_of_get? hc, Cell.text?_of_not_cached (build_cached hb hc)]

theorem build_cacheExact (hv : config.Valid) (hb : build config hash = .ok heap) : heap.CacheExact := by
  obtain ⟨least, most, hleast, hmost, hle⟩ := hv.cache
  have hnone := build_textAt hb
  have huncached := fun {h c} => build_cached (h := h) (c := c) hb
  obtain ⟨arena, -, rfl⟩ := build_eq_ok hb
  have hcaches : ∀ h, ¬ ∃ t, arena.textAt h = some t := by
    rintro h ⟨t, ht⟩
    exact nomatch (hnone h).symm.trans ht
  have hpos : 0 < config.cacheInitial := hleast ▸ Nat.pow_pos (by decide)
  refine ⟨fun hc hcached => ?_, ⟨fun _ => [], ?_⟩, ⟨[], List.nodup_nil, ?_, rfl⟩, ?_, ?_⟩
  · exact nomatch (huncached hc).symm.trans hcached
  · refine (Shelved.empty ?_ fun i => ?_).on_congr fun h => iff_of_false (hcaches h) id
    · simp only [furnished, bare, Array.size_replicate]
      omega
    · simp only [StringCache.head, furnished, bare, Array.getElem?_replicate]
      split <;> rfl
  · exact fun h => iff_of_false List.not_mem_nil (hcaches h)
  · intro h t ht
    exact absurd ⟨t, ht⟩ (hcaches h)
  · have hinitial : max config.cacheInitial 1 = 2 ^ least := by omega
    have hmax : max config.cacheMax config.cacheInitial = 2 ^ most := by
      have hpow := Nat.pow_le_pow_right (n := 2) (by decide) hle
      omega
    refine ⟨least, most, least, hleast, hmost, hmax, ?_, Nat.le_refl _, hle⟩
    exact Array.size_replicate.trans hinitial

end Heap

end ManagedHeap
