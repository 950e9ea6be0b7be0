import ManagedHeap.Proofs.AllocationCacheSteps

/-!
# Interning in cache steps

Both kinds of interning look up first, then allocate, and enter what they made afterwards.
Whether that is still allowed then is asked of the rules: they know what the foreign code may
have done since the look-up.
-/

namespace ManagedHeap

namespace Heap

/-- No cached string has these bytes and this encoding. -/
def Lacks (heap : Heap) (bytes : Bytes) (encoding : Encoding) : Prop :=
  ∀ h t, heap.arena.textAt h = some t → ¬ (t.bytes = bytes ∧ t.encoding = encoding)

/-- The object is a symbol, and its name is a cached string with these bytes, which collections
keep as a name. -/
def NamesSymbol (heap : Heap) (sym : Handle) (name : Bytes) : Prop :=
  ∃ pname c d t, heap.arena.get? sym = some c ∧ c.payload.name? = some pname ∧
    heap.arena.get? pname = some d ∧ d.flags.symbolName = true ∧ d.text? = some t ∧ t.bytes = name

end Heap

namespace CacheRules

def caching (s r : CacheRules) : CacheRules := { s with caches := r.caches }

def MayCache (s r : CacheRules) (bytes : Bytes) (encoding : Encoding) : Prop :=
  ∀ {pins : List Handle} {start heap : Heap}, start.Guards pins → start.Lacks bytes encoding →
    start.CacheSteps s pins heap → r.caches heap bytes encoding

def MayEnter (s r : CacheRules) (name : Bytes) : Prop :=
  ∀ {pins : List Handle} {start heap : Heap} {sym : Handle}, start.Guards pins →
    start.symbols.find? name = none →
    start.CacheSteps (s.caching r) pins heap → (¬ s.cuts → ¬ s.renews → heap.NamesSymbol sym name) →
    r.enters heap name sym

variable {s r : CacheRules}

theorem MayCache.caching {bytes : Bytes} {encoding : Encoding} (hm : s.MayCache r bytes encoding) :
    s.MayCache (s.caching r) bytes encoding := hm

theorem Within.of_caching (hw : s.Within r) : s.Within (s.caching r) :=
  ⟨hw.caches, id, id, id⟩

theorem Within.caching (hw : s.Within r) : (s.caching r).Within r :=
  ⟨id, hw.enters, hw.renews, hw.cuts⟩

end CacheRules

namespace HeapM

open Arena

variable {r : CacheRules} {pins : List Handle} {h : Handle} {bytes : Bytes} {encoding : Encoding}
  {hash : UInt32} {ascii : Bool}

namespace CacheTriple

theorem cacheString : CacheTriple r pins (fun heap => (heap.Sound ∧ heap.Blank .charString h) ∧
      r.caches heap bytes encoding ∧ hash = heap.strings.hash bytes encoding)
    (HeapM.cacheString h bytes encoding hash ascii) fun _ heap =>
      heap.Sound ∧ heap.arena.textAt h = some ⟨bytes, encoding, heap.strings.hash bytes encoding⟩ := by
  rintro heap u heap' hg ⟨⟨hs, hb⟩, hr, rfl⟩ hrun
  obtain ⟨length, payload, -, hc⟩ := id hb
  have hne : h ≠ .nil := hs.ne_nil hc rfl
  have hmove : heap.CacheStep r pins heap' := .cache hne hb hr hrun
  refine ⟨.single hmove, (cacheString_cached _ _ _ ⟨hs, hb.fresh⟩ hrun).1, ?_⟩
  rw [hmove.hash hg.cacheExact]
  have hstores := (hg.cacheExact.cacheString hne hc (Cell.cached_blank _ _) hrun).2
  exact (hstores.textAt hc h).trans (if_pos rfl)

theorem nameSymbol {sym name : Handle} {t : Text} {φ : Prop} :
    CacheTriple r pins (fun heap => (heap.Sound ∧ heap.Allocated .symbol [name] sym) ∧
      heap.Blank .symbol sym ∧ (φ → heap.arena.textAt name = some t))
    (HeapM.nameSymbol sym name) fun _ heap => heap.Sound ∧ (φ → heap.NamesSymbol sym t.bytes) := by
  rintro heap u heap' - ⟨⟨hs, halloc⟩, hb, htext⟩ hrun
  have hsound : heap'.Sound := nameSymbol_safe _ _ _ ⟨hs, halloc⟩ hrun
  let flag : Cell → Cell := fun c =>
    (c.mapFlags fun fs => { fs with symbolName := true }).mapRefCount .increment
  simp only [HeapM.nameSymbol, run_bind, run_updateCell] at hrun
  obtain ⟨_, mid, ⟨⟨d, hd⟩, hmid⟩, ⟨e, he⟩, hlast⟩ := hrun
  change mid = { heap with arena := heap.arena.setCell name flag } at hmid
  subst hmid
  change heap' = { ({ heap with arena := heap.arena.setCell name flag } : Heap) with
    arena := (heap.arena.setCell name flag).setCell sym (Cell.named name) } at hlast
  obtain ⟨length, payload, hpayload, hblank⟩ := hb
  -- the symbol may have been flagged itself, but it still has no name
  have hsym : e.flags.cached = false ∧ e.payload = payload := by
    by_cases hsame : sym = name
    · subst hsame
      rw [get?_setCell_self hd (get?_eq_some.mp hd).2, Option.some.injEq] at he
      rw [hblank, Option.some.injEq] at hd
      subst hd he
      exact ⟨rfl, rfl⟩
    · rw [get?_setCell_ne hsame, hblank, Option.some.injEq] at he
      subst he
      exact ⟨rfl, rfl⟩
  refine ⟨?_, hsound, fun hφ => ?_⟩
  · have hflag : heap.CacheStep r pins { heap with arena := heap.arena.setCell name flag } :=
      .edit hd (.header rfl rfl rfl (fun hmany => congrArg RefCount.increment hmany)
        (fun _ => rfl) rfl rfl rfl)
    rw [hlast]
    refine .tail (.single hflag) (.edit he ?_)
    rw [Cell.named_eq]
    exact .fill hsym.1 fun hname => Payload.name?_of_forKind? hpayload (hsym.2 ▸ hname)
  · have ht := htext hφ
    rw [textAt_of_get? hd] at ht
    have hne : sym ≠ name := by
      rintro rfl
      rw [hblank, Option.some.injEq] at hd
      subst hd
      rw [Cell.text?_of_not_cached (Cell.cached_blank _ _)] at ht
      cases ht
    have hsymbol : (Cell.named name e).payload.name? = some name := by
      rw [Cell.named_eq, hsym.2]
      unfold Payload.forKind? at hpayload
      split at hpayload
      · cases hpayload
      · rw [Option.some.injEq] at hpayload
        subst hpayload
        rfl
    refine ⟨name, Cell.named name e, flag d, t, ?_, hsymbol, ?_, rfl, ?_, rfl⟩
    · rw [hlast]
      refine get?_setCell_self he ?_
      rw [Cell.named_eq]
      exact (get?_eq_some.mp he).2
    · rw [hlast]
      change ((heap.arena.setCell name flag).setCell sym (Cell.named name)).get? name = _
      rw [get?_setCell_ne (Ne.symm hne), get?_setCell_self hd (get?_eq_some.mp hd).2]
    · rw [← ht]
      exact Cell.text?_congr rfl rfl

end CacheTriple

end HeapM

namespace HostM

variable {ω : Type} {r s : CacheRules} {pins : List Handle} {I : ω → Prop} {host : Host ω}
  {bytes name : Bytes} {encoding : Encoding}

theorem goes_internString (hhost : host.ByCacheSteps s I) (hw : s.Within r) (ha : s.Admits pins)
    (hmay : s.MayCache r bytes (encoding.normalize (bytes.all (· < 128)))) :
    Attempt.CacheTriple r pins I Heap.Sound (internString host bytes encoding) fun h heap => heap.Sound ∧
      heap.arena.textAt h = some ⟨bytes, encoding.normalize (bytes.all (· < 128)),
        heap.strings.hash bytes (encoding.normalize (bytes.all (· < 128)))⟩ := by
  generalize hplain : encoding.normalize (bytes.all (· < 128)) = plain at *
  unfold internString
  simp only [hplain]
  refine .bind (Q := fun start heap => heap.Sound ∧ heap = start)
    (.liftHost (.getHeap fun heap hs => ⟨hs, rfl⟩)) fun start => ?_
  refine .bind (Q := fun found heap => heap.Sound ∧ heap = start ∧ start.Guards pins ∧
      (∀ h, found = some h →
        heap.arena.textAt h = some ⟨bytes, plain, heap.strings.hash bytes plain⟩) ∧
      (found = none → heap.Lacks bytes plain)) (.lift ?_) fun found => ?_
  · rintro heap found heap' hg ⟨hs, rfl⟩ hrun
    obtain rfl := HeapM.Reads.findCached _ _ _ hrun
    obtain ⟨found', hfound, hsome, hnone⟩ := hg.cacheExact.findCached hs.tidy bytes plain
    rw [hrun, Except.ok.injEq, Prod.mk.injEq] at hfound
    obtain ⟨rfl, -⟩ := hfound
    exact ⟨.refl, hs, rfl, hg, hsome, hnone⟩
  · cases found with
    | some h => exact .pure fun heap hs => ⟨hs.1, hs.2.2.2.1 h rfl⟩
    | none =>
      -- what the foreign code does from the look-up on
      refine .conseq (P := fun heap => heap.Sound ∧ (start.Guards pins ∧ start.Lacks bytes plain ∧
          start.CacheSteps s pins heap)) ?_ ?_ fun _ _ => id
      · refine .bind (((goes_allocate hhost ha).frame fun heap heap' _ hmoves hN =>
          ⟨hN.1, hN.2.1, hN.2.2.trans hmoves⟩).mono hw) fun h => ?_
        refine .bind (.lift (.conseq .cacheString ?_ fun _ _ => id)) fun _ => .pure fun _ => id
        rintro heap ⟨hb, hg, hlacks, hmoves⟩
        exact ⟨hb, hmay hg hlacks hmoves, by rw [hmoves.hash hg.cacheExact]⟩
      · rintro heap ⟨hs, rfl, hg, -, hlacks⟩
        exact ⟨hs, hg, hlacks rfl, .refl⟩

theorem goes_makeSymbol (hhost : host.ByCacheSteps s I) (hw : s.Within r) (ha : s.Admits pins)
    (hcache : s.MayCache r name ((nameEncoding name).normalize (name.all (· < 128))))
    {start : Heap} {next : Handle → Attempt ω Handle} {Q : Handle → Heap → Prop}
    (hnext : ∀ sym, Attempt.CacheTriple r pins I (fun heap => (heap.Sound ∧
      (¬ s.cuts ∧ ¬ s.renews → heap.NamesSymbol sym name)) ∧ start.CacheSteps (s.caching r) pins heap)
      (next sym) Q) :
    Attempt.CacheTriple r pins I (fun heap => heap.Sound ∧ start.CacheSteps (s.caching r) pins heap) (do
      let pname ← internString host name (nameEncoding name)
      let sym ← allocate host .symbol 0 [pname]
      HeapM.nameSymbol sym pname
      next sym) Q := by
  generalize hplain : (nameEncoding name).normalize (name.all (· < 128)) = plain at hcache
  have hstable : ∀ heap heap' : Heap, heap.Guards pins → heap.CacheSteps (s.caching r) pins heap' →
      start.CacheSteps (s.caching r) pins heap → start.CacheSteps (s.caching r) pins heap' :=
    fun _ _ _ hmoves hN => hN.trans hmoves
  have hstring : Attempt.CacheTriple (s.caching r) pins I Heap.Sound
      (internString host name (nameEncoding name)) _ :=
    goes_internString hhost hw.of_caching ha (hplain ▸ hcache.caching)
  rw [hplain] at hstring
  refine .bind ((hstring.frame hstable).mono hw.caching) fun pname => ?_
  -- which hash the name was stored with does not matter here
  suffices hrest : ∀ t : Text, t.bytes = name → Attempt.CacheTriple r pins I (fun heap =>
      (heap.Sound ∧ heap.arena.textAt pname = some t) ∧ start.CacheSteps (s.caching r) pins heap) (do
        let sym ← allocate host .symbol 0 [pname]
        HeapM.nameSymbol sym pname
        next sym) Q from
    fun state heap a state' heap' hI hg hP => hrest _ rfl state heap a state' heap' hI hg hP
  rintro t rfl
  have hkeeps : Attempt.CacheTriple s pins I (fun heap => heap.Sound ∧ heap.Lent s [(pname, t)])
      (allocate host .symbol 0 [pname]) _ := goes_allocateKeeping hhost ha (by simp)
  have hspec : Attempt.Triple (fun heap => (heap.Sound ∧ heap.Lent s [(pname, t)]) ∧
      heap.KeptStrings [pname] [pname]) (allocate host .symbol 0 [pname])
      (fun sym heap => heap.Sound ∧ heap.Allocated .symbol [pname] sym) Heap.Sound :=
    (allocate_spec hhost.safe).conseq (fun heap h => ⟨h.1.1, h.2⟩) (fun _ _ => id) fun _ => id
  have hsymbol : Attempt.CacheTriple s pins I (fun heap => heap.Sound ∧ heap.arena.textAt pname = some t)
      (allocate host .symbol 0 [pname]) fun sym heap =>
        (heap.Sound ∧ heap.Allocated .symbol [pname] sym) ∧ heap.Blank .symbol sym ∧
          (¬ s.cuts ∧ ¬ s.renews → heap.arena.textAt pname = some t) := by
    refine ((hkeeps.conseq (fun heap h => h.1) fun _ _ => id).and_triple
      hspec).conseq ?_ ?_
    · rintro heap ⟨hs, ht⟩
      refine ⟨⟨hs, fun _ _ p hp => ?_⟩, fun p hp => ?_⟩
      · obtain rfl := List.mem_singleton.mp hp
        exact ht
      · obtain rfl := List.mem_singleton.mp hp
        obtain ⟨c, hc, hct⟩ := Arena.textAt_eq_some.mp ht
        exact ⟨List.mem_singleton_self _, c, hc, (Cell.text?_eq_some.mp hct).1⟩
    · rintro sym heap ⟨⟨⟨hs, hb⟩, hlent⟩, -, halloc⟩
      exact ⟨⟨hs, halloc⟩, hb, fun h => hlent h.1 h.2 (pname, t) (List.mem_singleton_self _)⟩
  refine .bind (((hsymbol.mono hw.of_caching).frame hstable).mono hw.caching) fun sym => ?_
  exact .bind ((Attempt.CacheTriple.frame hstable (.lift .nameSymbol)).mono hw.caching) fun _ => hnext sym

theorem goes_internSymbol (hhost : host.ByCacheSteps s I) (hw : s.Within r) (ha : s.Admits pins)
    (hcache : s.MayCache r name ((nameEncoding name).normalize (name.all (· < 128))))
    (henter : s.MayEnter r name) :
    Attempt.CacheTriple r pins I Heap.Sound (internSymbol host name) fun sym heap => heap.Sound ∧
      heap.symbols.find? name = some sym := by
  refine .bind (Q := fun start heap => heap.Sound ∧ heap = start ∧ start.Guards pins)
    (.liftHost ?_) fun start => ?_
  · intro state heap a state' heap' hI hg hs hrun
    obtain ⟨rfl, hget⟩ := run_liftM.mp hrun
    obtain ⟨rfl, rfl⟩ := run_get.mp hget
    exact ⟨hI, .refl, hs, rfl, hg⟩
  cases hfind : start.symbols.find? name with
  | some sym =>
    refine .pure ?_
    rintro heap ⟨hs, rfl, -⟩
    exact ⟨hs, hfind⟩
  | none =>
    dsimp only
    split
    · exact .throw_bind nofun fun _ h => h.1
    · by_cases hg : start.Guards pins
      swap
      · exact fun _ _ _ _ _ _ _ hP => absurd hP.2.2 hg
      refine .conseq (P := fun heap => heap.Sound ∧ start.CacheSteps (s.caching r) pins heap)
        (goes_makeSymbol hhost hw ha hcache fun sym => ?_) ?_ fun _ _ => id
      · refine .bind (Q := fun _ heap => heap.Sound ∧ heap.symbols.find? name = some sym)
          (.liftHost (.lift ?_)) fun _ => .pure fun _ => id
        rintro heap u heap' - ⟨⟨hs, hnamesSymbol⟩, hmoves⟩ hrun
        obtain rfl := run_modify.mp hrun
        refine ⟨.single (.enter (henter hg hfind hmoves fun hcuts hrenews =>
          hnamesSymbol ⟨hcuts, hrenews⟩)), hs.aside rfl rfl rfl rfl rfl, ?_⟩
        exact (SymbolTable.find?_insert ..).trans (if_pos rfl)
      · rintro heap ⟨hs, rfl, -⟩
        exact ⟨hs, .refl⟩

end HostM

end ManagedHeap
