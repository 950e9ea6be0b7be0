import Mathlib.Logic.Relation
import ManagedHeap.Proofs.NewHeap
import ManagedHeap.Proofs.WeakRuns

/-!
# Steps that matter to the string cache

Whatever a program does to a heap comes down to a few steps: an object is changed in place
or claimed, a collection runs, a string enters the cache, a symbol enters the table, and
things beside the objects change. A relation lists them once, and an invariant of the
heap is what every step keeps.
-/

namespace ManagedHeap

namespace Payload

/-- The name of a symbol. -/
def name? : Payload → Option Handle
  | .symbol name _ _ _ => some name
  | _ => none

def isText : Payload → Bool
  | .charString .. => true
  | _ => false

end Payload

namespace Cell

/-- A change of an object in place: it stays what it is, keeps its place in the string cache,
and if it is a symbol it keeps its name. -/
structure Edits (c d : Cell) : Prop where
  kind : d.kind = c.kind
  generation : d.header.generation = c.header.generation
  permanent : d.flags.permanent = c.flags.permanent
  settled : c.header.refcount = .many → d.header.refcount = .many
  symbolName : c.flags.symbolName = true → d.flags.symbolName = true
  place : d.place? = c.place?
  name : ∀ {name}, c.payload.name? = some name → name ≠ .nil → d.payload.name? = some name

variable {c d : Cell}

theorem text?_of_not_isText (hp : c.payload.isText = false) : c.text? = none := by
  unfold text?
  split
  · rename_i hpayload
    rw [hpayload] at hp
    exact nomatch hp
  · rfl

namespace Edits

theorem isFree (he : c.Edits d) : d.isFree = c.isFree := by
  rw [Cell.isFree, Header.isFree, show d.header.kind = c.header.kind from he.kind]
  rfl

theorem fixed (he : c.Edits d) (hc : c.Fixed) : d.Fixed :=
  ⟨he.permanent.trans hc.permanent, he.generation.trans hc.generation, he.settled hc.refcount⟩

theorem header (hkind : d.kind = c.kind) (hgeneration : d.header.generation = c.header.generation)
    (hpermanent : d.flags.permanent = c.flags.permanent)
    (hsettled : c.header.refcount = .many → d.header.refcount = .many)
    (hname : c.flags.symbolName = true → d.flags.symbolName = true)
    (hcached : d.flags.cached = c.flags.cached) (hattrib : d.attrib = c.attrib)
    (hpayload : d.payload = c.payload) : c.Edits d :=
  ⟨hkind, hgeneration, hpermanent, hsettled, hname,
    place?_congr hcached (fun _ => text?_congr hcached hpayload) fun _ => hattrib,
    fun h _ => hpayload ▸ h⟩

theorem mapFlags {f : Flags → Flags} (hpermanent : (f c.flags).permanent = c.flags.permanent)
    (hname : c.flags.symbolName = true → (f c.flags).symbolName = true)
    (hcached : (f c.flags).cached = c.flags.cached) : c.Edits (c.mapFlags f) :=
  header rfl rfl hpermanent id hname hcached rfl rfl

theorem mapRefCount {f : RefCount → RefCount} (hf : f .many = .many) : c.Edits (c.mapRefCount f) :=
  header rfl rfl rfl (fun h => (congrArg f h).trans hf) id rfl rfl rfl

theorem payload {p : Payload} (hc : c.payload.isText = false) (hp : p.isText = false)
    (hname : ∀ {name}, c.payload.name? = some name → name ≠ .nil → p.name? = some name) :
    c.Edits { c with payload := p } :=
  ⟨rfl, rfl, rfl, id, id,
    place?_congr rfl (fun _ => (text?_of_not_isText hp).trans (text?_of_not_isText hc).symm)
      fun _ => rfl, hname⟩

theorem fill {p : Payload} (hc : c.flags.cached = false)
    (hname : ∀ {name}, c.payload.name? = some name → name = .nil) :
    c.Edits { c with payload := p } :=
  ⟨rfl, rfl, rfl, id, id, (place?_of_not_cached hc).symm ▸ place?_of_not_cached hc,
    fun h hne => absurd (hname h) hne⟩

theorem attrib {x : Handle} (hc : c.flags.cached = false) : c.Edits { c with attrib := x } :=
  ⟨rfl, rfl, rfl, id, id, (place?_of_not_cached hc).symm ▸ place?_of_not_cached hc, fun h _ => h⟩

theorem id : c.Edits c := header rfl rfl rfl (fun h => h) (fun h => h) rfl rfl rfl

end Edits

theorem cached_blank (kind : Kind) (payload : Payload) : (blank kind payload).flags.cached = false :=
  rfl

end Cell

namespace Heap

/-- The object is as it was claimed. -/
def Blank (heap : Heap) (kind : Kind) (h : Handle) : Prop :=
  ∃ length payload, Payload.forKind? kind length = some payload ∧
    heap.arena.get? h = some (.blank kind payload)

/-- The first handles kept for operations under way are these. -/
def PinsAll (heap : Heap) (pins : List Handle) : Prop := pins <+: heap.pinned

/-- Nothing changes of the objects, the cache and the symbols, and the history goes on. -/
structure Beside (heap heap' : Heap) : Prop where
  cells : ∀ h, heap'.arena.get? h = heap.arena.get? h
  strings : heap'.strings = heap.strings
  symbols : heap'.symbols = heap.symbols
  config : heap'.config = heap.config
  history : heap.history <+: heap'.history

theorem Beside.refl (heap : Heap) : heap.Beside heap :=
  ⟨fun _ => rfl, rfl, rfl, rfl, List.prefix_refl _⟩

end Heap

/-- What a computation may do beside changing objects in place and collecting. -/
structure CacheRules where
  /-- Put a string with these bytes and this encoding into the cache. -/
  caches : Heap → Bytes → Encoding → Prop
  /-- Enter a symbol under a name into the table. -/
  enters : Heap → Bytes → Handle → Prop
  /-- Go on with a new heap. -/
  renews : Prop
  /-- Let go of what operations under way keep. -/
  cuts : Prop

/-- What one set of rules allows the other one does. -/
structure CacheRules.Within (s r : CacheRules) : Prop where
  caches : ∀ {heap bytes encoding}, s.caches heap bytes encoding → r.caches heap bytes encoding
  enters : ∀ {heap name sym}, s.enters heap name sym → r.enters heap name sym
  renews : s.renews → r.renews
  cuts : s.cuts → r.cuts

theorem CacheRules.Within.refl (r : CacheRules) : r.Within r := ⟨id, id, id, id⟩

def CacheRules.Admits (r : CacheRules) (pins : List Handle) : Prop := r.cuts → pins = []

/-- One step, which leaves `pins` kept for operations under way. -/
inductive Heap.CacheStep (r : CacheRules) (pins : List Handle) : Heap → Heap → Prop
  | aside {heap heap' : Heap} : heap.Beside heap' → (heap.PinsAll pins → heap'.PinsAll pins) →
      CacheStep r pins heap heap'
  | edit {heap : Heap} {h : Handle} {c : Cell} {f : Cell → Cell} : heap.arena.get? h = some c →
      c.Edits (f c) → CacheStep r pins heap { heap with arena := heap.arena.setCell h f }
  | claim {heap heap' : Heap} {h : Handle} {kind : Kind} {length : Nat} {payload : Payload} :
      Payload.forKind? kind length = some payload → heap.arena.get? h = none →
      (∀ k, heap'.arena.get? k = if k = h then some (.blank kind payload) else heap.arena.get? k) →
      heap'.strings = heap.strings → heap'.symbols = heap.symbols →
      heap'.config = heap.config → heap'.roots = heap.roots → heap.history <+: heap'.history →
      CacheStep r pins heap heap'
  | collect {heap heap' : Heap} {level : Level} {reason : Reason} {o : Outcome} : heap.Sound →
      (HeapM.collect level reason).run heap = .ok (o, heap') → CacheStep r pins heap heap'
  | cache {heap heap' : Heap} {h : Handle} {bytes : Bytes} {encoding : Encoding} {ascii : Bool}
      {u : PUnit} : h ≠ .nil → heap.Blank .charString h → r.caches heap bytes encoding →
      (HeapM.cacheString h bytes encoding (heap.strings.hash bytes encoding) ascii).run heap =
        .ok (u, heap') → CacheStep r pins heap heap'
  | enter {heap : Heap} {name : Bytes} {sym : Handle} : r.enters heap name sym →
      CacheStep r pins heap { heap with symbols := heap.symbols.insert name sym }
  | renew {heap fresh : Heap} {config : Config} {journal : Journal} {tasks : Tasks} : r.renews →
      pins = [] → config.Valid → Heap.build config heap.strings.hash = .ok fresh →
      CacheStep r pins heap { fresh with journal, tasks }

/-- Steps one after the other. -/
abbrev Heap.CacheSteps (r : CacheRules) (pins : List Handle) : Heap → Heap → Prop :=
  Relation.ReflTransGen (Heap.CacheStep r pins)

namespace Heap.CacheStep

open Arena

variable {r s : CacheRules} {pins : List Handle} {heap heap' : Heap} {h : Handle}

theorem mono {deeper : List Handle} (hw : s.Within r) (hle : pins <+: deeper)
    (hp : heap.PinsAll deeper) (hm : heap.CacheStep s deeper heap') : heap.CacheStep r pins heap' := by
  cases hm with
  | aside hbeside hpins => exact .aside hbeside fun _ => hle.trans (hpins hp)
  | edit hc he => exact .edit hc he
  | claim hp hdead hcells hstrings hsymbols hconfig hroots hhistory =>
    exact .claim hp hdead hcells hstrings hsymbols hconfig hroots hhistory
  | collect hs hrun => exact .collect hs hrun
  | cache hne hblank hr hrun => exact .cache hne hblank (hw.caches hr) hrun
  | enter hr => exact .enter (hw.enters hr)
  | renew hr hpins hv hb =>
    subst hpins
    exact .renew (hw.renews hr) (List.prefix_nil.mp hle) hv hb

theorem cacheExact (hm : heap.CacheStep r pins heap') (hf : heap.CacheExact) : heap'.CacheExact := by
  cases hm with
  | aside hbeside _ =>
    refine hf.congr (fun h => ?_) hbeside.strings hbeside.config
    rw [placeAt, hbeside.cells, placeAt]
  | @edit h c f hc he =>
    refine hf.congr (fun k => ?_) rfl rfl
    exact placeAt_setCell hc (he.isFree.trans (get?_eq_some.mp hc).2) he.place k
  | @claim _ h kind length payload hp hdead hcells hstrings hsymbols hconfig =>
    refine hf.congr (fun k => ?_) hstrings hconfig
    by_cases hk : k = h
    · subst hk
      rw [placeAt_of_none hdead, placeAt_of_get? ((hcells k).trans (if_pos rfl))]
      exact Cell.place?_of_not_cached (Cell.cached_blank kind payload)
    · rw [placeAt, hcells, if_neg hk, placeAt]
  | collect hs hrun => exact (HeapM.cacheExact_collect hs hf hrun).1
  | cache hne hblank _ hrun =>
    obtain ⟨length, payload, -, hc⟩ := hblank
    exact (hf.cacheString hne hc (Cell.cached_blank _ _) hrun).1
  | enter => exact hf.congr (fun _ => rfl) rfl rfl
  | renew _ _ hv hb => exact (build_cacheExact hv hb).congr (fun _ => rfl) rfl rfl

theorem grounded (hm : heap.CacheStep r pins heap') (hf : heap.CacheExact) (hg : heap.Grounded) :
    heap'.Grounded := by
  intro h hh
  obtain ⟨c, hc, hfixed⟩ := hg h hh
  cases hm with
  | aside hbeside _ => exact ⟨c, (hbeside.cells h).trans hc, hfixed⟩
  | @edit k d f hd he =>
    by_cases hk : h = k
    · subst hk
      rw [hc, Option.some.injEq] at hd
      subst hd
      exact ⟨f c, get?_setCell_self hc (he.isFree.trans (get?_eq_some.mp hc).2), he.fixed hfixed⟩
    · exact ⟨c, (get?_setCell_ne hk).trans hc, hfixed⟩
  | @claim _ k kind length payload hp hdead hcells =>
    have hk : h ≠ k := by
      rintro rfl
      rw [hdead] at hc
      cases hc
    exact ⟨c, by rw [hcells, if_neg hk, hc], hfixed⟩
  | @collect _ level reason o hs hrun =>
    obtain ⟨records, hcol⟩ := HeapM.collect_collected hs hrun
    have hsweeps : level.sweeps c = false := by simp [Level.sweeps, hfixed.permanent]
    obtain ⟨d, hd⟩ := hcol.stayed hc (.inl hsweeps)
    have hsame := hcol.same hc hd
    refine ⟨d, hd, (Cell.permanent_of_lasting hsame.lasting).trans hfixed.permanent, ?_,
      (Cell.refcount_of_lasting hsame.lasting).trans hfixed.refcount⟩
    rw [hsame.generation, hsweeps, if_neg Bool.false_ne_true, hfixed.generation]
  | @cache _ k bytes encoding ascii u hne hblank _ hrun =>
    obtain ⟨length, payload, -, hd⟩ := hblank
    have hk : h ≠ k := by
      rintro rfl
      rw [hc, Option.some.injEq] at hd
      rw [hd] at hfixed
      cases hfixed.permanent
    obtain ⟨-, hrelinks⟩ := (hf.cacheString hne hd (Cell.cached_blank _ _) hrun).2
    obtain ⟨e, he, hec⟩ := hrelinks.unlinked ((get?_setCell_ne hk).trans hc)
    have hheader := Cell.header_of_unlinked hec
    refine ⟨e, he, ?_, ?_, ?_⟩
    · rw [Cell.flags, hheader]
      exact hfixed.permanent
    · rw [hheader]
      exact hfixed.generation
    · rw [hheader]
      exact hfixed.refcount
  | enter => exact ⟨c, hc, hfixed⟩
  | renew _ _ hv hb => exact build_grounded hv hb h hh

theorem pinned (hm : heap.CacheStep r pins heap') (hf : heap.CacheExact) (hp : heap.PinsAll pins) :
    heap'.PinsAll pins := by
  cases hm with
  | aside _ hpins => exact hpins hp
  | edit => exact hp
  | claim _ _ _ _ _ _ hroots _ => rwa [Heap.PinsAll, Heap.pinned, hroots]
  | collect hs hrun =>
    obtain ⟨records, hcol⟩ := HeapM.collect_collected hs hrun
    obtain ⟨_, _, _, _, _, _, _, rfl⟩ := hcol.rest
    exact hp
  | cache hne hblank _ hrun =>
    obtain ⟨length, payload, -, hc⟩ := hblank
    obtain ⟨⟨_, _, _, rfl⟩, -⟩ := (hf.cacheString hne hc (Cell.cached_blank _ _) hrun).2
    exact hp
  | enter => exact hp
  | renew _ hpins => rw [hpins]; exact List.nil_prefix

theorem hash (hm : heap.CacheStep r pins heap') (hf : heap.CacheExact) :
    heap'.strings.hash = heap.strings.hash := by
  cases hm with
  | aside hbeside _ => rw [hbeside.strings]
  | edit => rfl
  | claim _ _ _ hstrings => rw [hstrings]
  | collect hs hrun => exact (HeapM.cacheExact_collect hs hf hrun).2
  | cache hne hblank _ hrun =>
    obtain ⟨length, payload, -, hc⟩ := hblank
    obtain ⟨⟨_, _, _, rfl⟩, -⟩ := (hf.cacheString hne hc (Cell.cached_blank _ _) hrun).2
    rfl
  | enter => rfl
  | renew _ _ _ hb =>
    obtain ⟨_, -, rfl⟩ := build_eq_ok hb
    rfl

theorem texts (hm : heap.CacheStep r pins heap') (hf : heap.CacheExact) :
    (∀ h t, heap'.arena.textAt h = some t → heap.arena.textAt h = some t) ∨
      ∃ h bytes encoding, r.caches heap bytes encoding ∧ ∀ k, heap'.arena.textAt k =
        if k = h then some ⟨bytes, encoding, heap.strings.hash bytes encoding⟩
        else heap.arena.textAt k := by
  cases hm with
  | aside hbeside _ =>
    refine .inl fun h t ht => ?_
    rwa [textAt, hbeside.cells] at ht
  | @edit h c f hc he =>
    refine .inl fun k t ht => ?_
    have hplace := placeAt_setCell hc (he.isFree.trans (get?_eq_some.mp hc).2) he.place k
    exact (textAt_congr hplace).symm.trans ht
  | @claim _ h kind length payload hp hdead hcells =>
    refine .inl fun k t ht => ?_
    by_cases hk : k = h
    · subst hk
      rw [textAt_of_get? ((hcells k).trans (if_pos rfl)),
        Cell.text?_of_not_cached (Cell.cached_blank kind payload)] at ht
      cases ht
    · rwa [textAt, hcells, if_neg hk] at ht
  | collect hs hrun =>
    obtain ⟨records, hcol⟩ := HeapM.collect_collected hs hrun
    refine .inl fun k t ht => ?_
    obtain ⟨d, hd, hdt⟩ := textAt_eq_some.mp ht
    obtain ⟨c, hc, -⟩ := hcol.came hd
    rw [textAt_of_get? hc, ← Cell.text?_of_lasting (hcol.same hc hd).lasting, hdt]
  | @cache _ h bytes encoding ascii u hne hblank hcaches hrun =>
    obtain ⟨length, payload, -, hc⟩ := hblank
    have hstores := (hf.cacheString hne hc (Cell.cached_blank _ _) hrun).2
    exact .inr ⟨h, bytes, encoding, hcaches, hstores.textAt hc⟩
  | enter => exact .inl fun _ _ => id
  | renew _ _ _ hb => exact .inl fun h t ht => absurd ((build_textAt hb h).symm.trans ht) (by simp)

def Reclaims (h : Handle) (heap heap' : Heap) : Prop :=
  heap.Sound ∧ (∃ level reason o, (HeapM.collect level reason).run heap = .ok (o, heap')) ∧
    (∃ c, heap.arena.get? h = some c) ∧ heap'.arena.get? h = none

theorem textAt (hm : heap.CacheStep r pins heap') (hf : heap.CacheExact) (hr : ¬ r.renews) {t : Text}
    (ht : heap.arena.textAt h = some t) :
    heap'.arena.textAt h = some t ∨ Reclaims h heap heap' := by
  obtain ⟨c, hc, hct⟩ := textAt_eq_some.mp ht
  cases hm with
  | aside hbeside _ => exact .inl (by rwa [Arena.textAt, hbeside.cells])
  | @edit k d f hd he =>
    have hplace := placeAt_setCell hd (he.isFree.trans (get?_eq_some.mp hd).2) he.place h
    exact .inl ((textAt_congr hplace).trans ht)
  | @claim _ k kind length payload hp hdead hcells =>
    have hk : h ≠ k := by
      rintro rfl
      rw [hdead] at hc
      cases hc
    exact .inl (by rwa [Arena.textAt, hcells, if_neg hk])
  | collect hs hrun =>
    obtain ⟨records, hcol⟩ := HeapM.collect_collected hs hrun
    cases hd : heap'.arena.get? h with
    | none => exact .inr ⟨hs, ⟨_, _, _, hrun⟩, ⟨c, hc⟩, hd⟩
    | some d =>
      refine .inl ?_
      rw [textAt_of_get? hd, Cell.text?_of_lasting (hcol.same hc hd).lasting, hct]
  | @cache _ k bytes encoding ascii u hne hblank _ hrun =>
    obtain ⟨length, payload, -, hd⟩ := hblank
    have hstores := (hf.cacheString hne hd (Cell.cached_blank _ _) hrun).2
    have hk : h ≠ k := by
      rintro rfl
      rw [hc, Option.some.injEq] at hd
      subst hd
      rw [Cell.text?_of_not_cached (Cell.cached_blank _ _)] at hct
      cases hct
    exact .inl (by rw [hstores.textAt hd, if_neg hk, ht])
  | enter => exact .inl ht
  | renew hrenews => exact absurd hrenews hr

theorem stays {c : Cell} (hm : heap.CacheStep r pins heap') (hf : heap.CacheExact) (hr : ¬ r.renews)
    (hc : heap.arena.get? h = some c) : (∃ d, heap'.arena.get? h = some d) ∨ heap.Sound ∧
      ∃ level records o, Collected level records heap heap' o ∧ ¬ heap.Keeps level records h c := by
  cases hm with
  | aside hbeside _ => exact .inl ⟨c, (hbeside.cells h).trans hc⟩
  | @edit k d f hd he =>
    left
    by_cases hk : h = k
    · subst hk
      exact ⟨_, get?_setCell_self hd (he.isFree.trans (get?_eq_some.mp hd).2)⟩
    · exact ⟨c, (get?_setCell_ne hk).trans hc⟩
  | @claim _ k kind length payload hp hdead hcells =>
    have hk : h ≠ k := by
      rintro rfl
      rw [hdead] at hc
      exact nomatch hc
    exact .inl ⟨c, by rw [hcells, if_neg hk, hc]⟩
  | @collect _ level reason o hs hrun =>
    obtain ⟨records, hcol⟩ := HeapM.collect_collected hs hrun
    by_cases hkeeps : heap.Keeps level records h c
    · exact .inl (hcol.stayed hc hkeeps)
    · exact .inr ⟨hs, level, records, o, hcol, hkeeps⟩
  | @cache _ k bytes encoding ascii u hne hblank _ hrun =>
    obtain ⟨length, payload, -, hd⟩ := hblank
    obtain ⟨-, hrelinks⟩ := (hf.cacheString hne hd (Cell.cached_blank _ _) hrun).2
    by_cases hk : h = k
    · subst hk
      obtain ⟨e, he, -⟩ := hrelinks.unlinked (get?_setCell_self hd (get?_eq_some.mp hd).2)
      exact .inl ⟨e, he⟩
    · obtain ⟨e, he, -⟩ := hrelinks.unlinked ((get?_setCell_ne hk).trans hc)
      exact .inl ⟨e, he⟩
  | enter => exact .inl ⟨c, hc⟩
  | renew hrenews => exact absurd hrenews hr

theorem stays_pinned {c : Cell} (hm : heap.CacheStep r pins heap') (hf : heap.CacheExact) (hr : ¬ r.renews)
    (hp : heap.PinsAll pins) (hh : h ∈ pins) (hc : heap.arena.get? h = some c) :
    ∃ d, heap'.arena.get? h = some d := by
  rcases hm.stays hf hr hc with hd | ⟨-, level, records, o, hcol, hlost⟩
  · exact hd
  · refine absurd (Collected.keeps_of_start hc (.inl ?_)) hlost
    have hpinned : h ∈ heap.pinned := hp.subset hh
    simp only [Heap.rootList, RootSet.handles, List.mem_append]
    exact .inl (.inl (.inl (.inl (.inr hpinned))))

end Heap.CacheStep

namespace Heap.CacheSteps

variable {r s : CacheRules} {pins : List Handle} {heap heap' : Heap}

theorem cacheExact (hm : heap.CacheSteps r pins heap') (hf : heap.CacheExact) : heap'.CacheExact := by
  induction hm with
  | refl => exact hf
  | tail _ hlast ih => exact hlast.cacheExact ih

theorem grounded (hm : heap.CacheSteps r pins heap') (hf : heap.CacheExact) (hg : heap.Grounded) :
    heap'.Grounded := by
  induction hm with
  | refl => exact hg
  | tail hfirst hlast ih => exact hlast.grounded (cacheExact hfirst hf) ih

theorem pinned (hm : heap.CacheSteps r pins heap') (hf : heap.CacheExact) (hp : heap.PinsAll pins) :
    heap'.PinsAll pins := by
  induction hm with
  | refl => exact hp
  | tail hfirst hlast ih => exact hlast.pinned (cacheExact hfirst hf) ih

theorem mono {deeper : List Handle} (hw : s.Within r) (hle : pins <+: deeper) (hf : heap.CacheExact)
    (hp : heap.PinsAll deeper) (hm : heap.CacheSteps s deeper heap') : heap.CacheSteps r pins heap' := by
  induction hm with
  | refl => exact .refl
  | tail hfirst hlast ih =>
    exact ih.tail (hlast.mono hw hle (pinned hfirst hf hp))

theorem hash (hm : heap.CacheSteps r pins heap') (hf : heap.CacheExact) :
    heap'.strings.hash = heap.strings.hash := by
  induction hm with
  | refl => rfl
  | tail hfirst hlast ih => exact (hlast.hash (cacheExact hfirst hf)).trans ih

theorem textAt_pinned {h : Handle} {t : Text} (hm : heap.CacheSteps r pins heap') (hf : heap.CacheExact)
    (hr : ¬ r.renews) (hp : heap.PinsAll pins) (hh : h ∈ pins) (ht : heap.arena.textAt h = some t) :
    heap'.arena.textAt h = some t := by
  induction hm with
  | refl => exact ht
  | tail hfirst hlast ih =>
    have hmid := cacheExact hfirst hf
    obtain ⟨c, hc, -⟩ := Arena.textAt_eq_some.mp ih
    obtain ⟨d, hd⟩ := hlast.stays_pinned hmid hr (pinned hfirst hf hp) hh hc
    rcases hlast.textAt hmid hr ih with hkept | ⟨-, -, -, hlost⟩
    · exact hkept
    · exact nomatch hlost.symm.trans hd

end Heap.CacheSteps

end ManagedHeap
