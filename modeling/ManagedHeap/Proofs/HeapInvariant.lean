import ManagedHeap.Proofs.StringChains

/-!
# The invariant of a heap

What holds between any two operations. An edge never dangles, an edge from an
older to a younger object has its source in the remembered list, and the name of
a symbol is an object that a collection keeps even where it does not follow names.
-/

namespace ManagedHeap

/-- The payload is one that objects of this kind have. -/
def Payload.suits : Payload → Kind → Bool
  | .free, .free | .nil, .nil | .symbol .., .symbol | .pair .., .pair | .pair .., .language
  | .closure .., .closure | .environment .., .environment | .promise .., .promise
  | .charString .., .charString | .logical _, .logicalVector | .integer _, .integerVector
  | .real _, .realVector | .raw _, .rawVector | .handles _, .stringVector | .handles _, .list
  | .handles _, .expression | .byteCode .., .byteCode | .externalPtr .., .externalPtr
  | .weakRef .., .weakRef | .nativeFunction _, .nativeFunction => true
  | _, _ => false

theorem Payload.suits_forKind? {kind : Kind} {length : Nat} {payload : Payload}
    (hp : forKind? kind length = some payload) : payload.suits kind = true := by
  unfold forKind? at hp
  split at hp
  · exact nomatch hp
  · rw [Option.some.injEq] at hp
    subst hp
    cases kind <;> rfl

theorem Payload.children_forKind? {kind : Kind} {length : Nat} {payload : Payload} {k : Handle}
    (hp : forKind? kind length = some payload) (hk : k ∈ payload.children true) :
    k = .nil ∨ k = .unbound := by
  unfold forKind? at hp
  split at hp
  · exact nomatch hp
  · rw [Option.some.injEq] at hp
    subst hp
    cases kind <;> simp_all [children]
    tauto

theorem Payload.name_of_forKind? {kind : Kind} {length : Nat} {payload : Payload}
    (hp : forKind? kind length = some payload) {name value internal lastEnv : Handle}
    (hsymbol : payload = .symbol name value internal lastEnv) : name = .nil := by
  unfold forKind? at hp
  split at hp
  · exact nomatch hp
  · rw [Option.some.injEq] at hp
    subst hp
    cases kind <;> simp_all

namespace Cell

/-- What holds of a live cell on its own. -/
structure Proper (c : Cell) : Prop where
  unmarked : c.flags.marked = false
  suits : c.payload.suits c.kind = true
  cached : c.flags.cached = true → c.kind = .charString
  settled : c.flags.permanent = true → c.header.generation = .old
  unlisted : c.flags.permanent = true → c.flags.remembered = false

def Open (c : Cell) : Prop :=
  c.header.generation = .young ∨ c.flags.remembered = true ∨ c.flags.permanent = true

/-- A collection that does not follow the names of symbols keeps the object as a name: it
is covered by full collections only, or is a cached string that names a symbol. -/
def Anchored (c : Cell) : Prop :=
  c.header.generation = .old ∨ (c.flags.cached = true ∧ c.flags.symbolName = true)

theorem Proper.edges_of_cached {c : Cell} (hp : c.Proper) (hc : c.flags.cached = true)
    (withNames : Bool) : c.edges withNames = [] := by
  have hkind := hp.cached hc
  have hsuits := hp.suits
  unfold edges
  rw [if_pos hc]
  rw [hkind] at hsuits
  cases hpayload : c.payload <;> simp_all [Payload.suits, Payload.children]

end Cell

namespace Heap

/-- What holds of a heap between any two of its operations. -/
structure Sound (heap : Heap) : Prop where
  names : heap.config.nameMarkLevel ≤ 2
  tidy : heap.arena.Tidy
  proper : ∀ {h c}, heap.arena.get? h = some c → c.Proper
  nilLive : ∃ c, heap.arena.get? .nil = some c ∧ c.flags.permanent = true
  unboundLive : ∃ c, heap.arena.get? .unbound = some c ∧ c.flags.permanent = true
  chained : ∃ on, Chained heap.arena heap.strings.buckets.toList on
  closed : ∀ {h c k}, heap.arena.get? h = some c → c.flags.permanent = false →
    k ∈ c.edges true → ∃ d, heap.arena.get? k = some d
  named : ∀ {h c name value internal lastEnv}, heap.arena.get? h = some c →
    c.flags.permanent = false → c.payload = .symbol name value internal lastEnv →
    name = h ∨ ∃ d, heap.arena.get? name = some d ∧ d.Anchored
  once : heap.remembered.toList.Nodup
  listed : ∀ {h}, h ∈ heap.remembered ↔
    ∃ c, heap.arena.get? h = some c ∧ c.flags.remembered = true
  barred : ∀ {h c k d}, heap.arena.get? h = some c → c.flags.permanent = false →
    k ∈ c.edges true → heap.arena.get? k = some d →
    d.header.generation.index < c.header.generation.index → c.flags.remembered = true
  registered : (heap.tasks.registry.entries.map Prod.fst).Nodup

namespace Sound

variable {heap heap' : Heap} {h : Handle} {c : Cell}

theorem aside (hs : heap.Sound) (hconfig : heap'.config = heap.config)
    (harena : heap'.arena = heap.arena) (hstrings : heap'.strings = heap.strings)
    (hremembered : heap'.remembered = heap.remembered) (htasks : heap'.tasks = heap.tasks) :
    heap'.Sound := by
  obtain ⟨names, tidy, proper, nilLive, unboundLive, chained, closed, named, once, listed,
    barred, registered⟩ := hs
  refine ⟨?_, ?_, ?_, ?_, ?_, ?_, ?_, ?_, ?_, ?_, ?_, ?_⟩ <;>
    simpa only [hconfig, harena, hstrings, hremembered, htasks]

theorem ne_nil (hs : heap.Sound) (hc : heap.arena.get? h = some c)
    (hp : c.flags.permanent = false) : h ≠ .nil := by
  rintro rfl
  obtain ⟨d, hd, hperm⟩ := hs.nilLive
  rw [hc, Option.some.injEq] at hd
  rw [← hd, hp] at hperm
  exact nomatch hperm

end Sound

end Heap

/-- The change of one cell that respects the invariant: the object stays what it is, its
new edges are alive, and it gets such edges only while it is open for writing. -/
structure Cell.Adjusts (a : Arena) (h : Handle) (c d : Cell) : Prop where
  kind : d.kind = c.kind
  generation : d.header.generation = c.header.generation
  marked : d.flags.marked = c.flags.marked
  cached : c.flags.cached = true → d.flags.cached = true
  string : d.flags.cached = true → c.flags.cached = true ∨ c.kind = .charString
  remembered : c.flags.remembered = true → d.flags.remembered = true
  permanent : d.flags.permanent = c.flags.permanent
  symbolName : c.flags.symbolName = true → d.flags.symbolName = true
  suits : c.payload.suits c.kind = true → d.payload.suits d.kind = true
  link : c.flags.cached = true → d.attrib = c.attrib
  name : ∀ {name value internal lastEnv}, d.payload = .symbol name value internal lastEnv →
    (∃ value' internal' lastEnv', c.payload = .symbol name value' internal' lastEnv') ∨
    name = h ∨ ∃ n, a.get? name = some n ∧ n.Anchored
  edges : ∀ k ∈ d.edges true, k ∈ c.edges true ∨ (c.Open ∧ a.contains k = true)

namespace Heap.Sound

open Arena

variable {heap : Heap} {h : Handle} {c : Cell} {f : Cell → Cell}

theorem adjust_listed {remembered : Array Handle} (hs : heap.Sound)
    (hc : heap.arena.get? h = some c) (ha : c.Adjusts heap.arena h (f c))
    (honce : remembered.toList.Nodup)
    (hlisted : ∀ k, k ∈ remembered ↔
      k ∈ heap.remembered ∨ (k = h ∧ (f c).flags.remembered = true))
    (hlistable : (f c).flags.remembered = true → c.flags.permanent = false) :
    ({ heap with arena := heap.arena.setCell h f, remembered } : Heap).Sound := by
  have hlive : (f c).isFree = false := by
    rw [Cell.isFree, Header.isFree, show (f c).header.kind = c.header.kind from ha.kind]
    exact (get?_eq_some.mp hc).2
  have hself := get?_setCell_self hc hlive
  have hback : ∀ {k e}, (heap.arena.setCell h f).get? k = some e →
      (k = h ∧ e = f c) ∨ (k ≠ h ∧ heap.arena.get? k = some e) := by
    intro k e he
    by_cases hk : k = h
    · subst hk
      rw [hself, Option.some.injEq] at he
      exact .inl ⟨rfl, he.symm⟩
    · rw [get?_setCell_ne hk] at he
      exact .inr ⟨hk, he⟩
  have hforth : ∀ {k e}, heap.arena.get? k = some e →
      ∃ e', (heap.arena.setCell h f).get? k = some e' ∧
        e'.header.generation = e.header.generation ∧
        e'.flags.permanent = e.flags.permanent ∧
        (e.flags.remembered = true → e'.flags.remembered = true) ∧
        (e.Anchored → e'.Anchored) := by
    intro k e he
    by_cases hk : k = h
    · subst hk
      rw [hc, Option.some.injEq] at he
      subst he
      refine ⟨f c, hself, ha.generation, ha.permanent, ha.remembered, ?_⟩
      rintro (hold | ⟨hcached, hname⟩)
      · exact .inl (ha.generation.trans hold)
      · exact .inr ⟨ha.cached hcached, ha.symbolName hname⟩
    · exact ⟨e, (get?_setCell_ne hk).trans he, rfl, rfl, id, id⟩
  have hkeep : ∀ {k}, (∃ e, heap.arena.get? k = some e ∧ e.flags.permanent = true) →
      ∃ e, (heap.arena.setCell h f).get? k = some e ∧ e.flags.permanent = true := by
    rintro k ⟨e, he, hperm⟩
    obtain ⟨e', he', -, hperm', -, -⟩ := hforth he
    exact ⟨e', he', hperm'.trans hperm⟩
  -- the edges of a changed object are old ones or lead to live objects
  have hedge : ∀ {k e}, (heap.arena.setCell h f).get? k = some e → e.flags.permanent = false →
      ∀ x ∈ e.edges true, ∃ e₀, heap.arena.get? k = some e₀ ∧ e₀.flags.permanent = false ∧
        e₀.header.generation = e.header.generation ∧
        (e₀.flags.remembered = true → e.flags.remembered = true) ∧
        (x ∈ e₀.edges true ∨ (e₀.Open ∧ heap.arena.contains x = true)) := by
    intro k e he hperm x hx
    rcases hback he with ⟨rfl, rfl⟩ | ⟨-, he⟩
    · exact ⟨c, hc, ha.permanent.symm.trans hperm, ha.generation.symm, ha.remembered,
        ha.edges x hx⟩
    · exact ⟨e, he, hperm, rfl, id, .inl hx⟩
  refine ⟨hs.names, hs.tidy.setCell hc, ?_, hkeep hs.nilLive, hkeep hs.unboundLive, ?_, ?_, ?_,
    honce, ?_, ?_, hs.registered⟩
  · intro k e he
    rcases hback he with ⟨rfl, rfl⟩ | ⟨-, he⟩
    · have hp := hs.proper hc
      refine ⟨ha.marked.trans hp.unmarked, ha.suits hp.suits, ?_, ?_, ?_⟩
      · intro hcached
        rcases ha.string hcached with hold | hstring
        · exact ha.kind.trans (hp.cached hold)
        · exact ha.kind.trans hstring
      · intro hperm
        exact ha.generation.trans (hp.settled (ha.permanent.symm.trans hperm))
      · intro hperm
        by_contra hr
        rw [ha.permanent, hlistable (by simpa using hr)] at hperm
        exact nomatch hperm
    · exact hs.proper he
  · obtain ⟨on, hon⟩ := hs.chained
    refine ⟨on, hon.congr ?_⟩
    intro k _ e he hcached
    by_cases hk : k = h
    · subst hk
      rw [hc, Option.some.injEq] at he
      subst he
      exact ⟨f c, hself, ha.cached hcached, ha.link hcached⟩
    · exact ⟨e, (get?_setCell_ne hk).trans he, hcached, rfl⟩
  · intro k e x he hperm hx
    obtain ⟨e₀, he₀, hperm₀, -, -, hold | ⟨-, hlive⟩⟩ := hedge he hperm x hx
    · obtain ⟨d, hd⟩ := hs.closed he₀ hperm₀ hold
      obtain ⟨d', hd', -⟩ := hforth hd
      exact ⟨d', hd'⟩
    · obtain ⟨d, hd⟩ := contains_iff.mp hlive
      obtain ⟨d', hd', -⟩ := hforth hd
      exact ⟨d', hd'⟩
  · intro k e name value internal lastEnv he hperm hpayload
    have hname : name = k ∨ ∃ n, heap.arena.get? name = some n ∧ n.Anchored := by
      rcases hback he with ⟨rfl, rfl⟩ | ⟨-, he⟩
      · rcases ha.name hpayload with ⟨value', internal', lastEnv', hold⟩ | hanchored
        · exact hs.named hc (ha.permanent.symm.trans hperm) hold
        · exact hanchored
      · exact hs.named he hperm hpayload
    refine hname.imp_right ?_
    rintro ⟨n, hn, hanchored⟩
    obtain ⟨n', hn', -, -, -, hkept⟩ := hforth hn
    exact ⟨n', hn', hkept hanchored⟩
  · intro k
    change k ∈ remembered ↔ _
    rw [hlisted k, hs.listed]
    constructor
    · rintro (⟨e, he, hr⟩ | ⟨rfl, hr⟩)
      · obtain ⟨e', he', -, -, hr', -⟩ := hforth he
        exact ⟨e', he', hr' hr⟩
      · exact ⟨f c, hself, hr⟩
    · rintro ⟨e, he, hr⟩
      rcases hback he with ⟨rfl, rfl⟩ | ⟨-, he⟩
      · exact .inr ⟨rfl, hr⟩
      · exact .inl ⟨e, he, hr⟩
  · intro k e x d he hperm hx hd hlt
    obtain ⟨d₀, hd₀, hgen⟩ : ∃ d₀, heap.arena.get? x = some d₀ ∧
        d₀.header.generation = d.header.generation := by
      rcases hback hd with ⟨rfl, rfl⟩ | ⟨-, hd⟩
      · exact ⟨c, hc, ha.generation.symm⟩
      · exact ⟨d, hd, rfl⟩
    obtain ⟨e₀, he₀, hperm₀, hgen₀, hr₀, hold | ⟨hopen, -⟩⟩ := hedge he hperm x hx
    · refine hr₀ (hs.barred he₀ hperm₀ hold hd₀ ?_)
      rw [hgen, hgen₀]
      exact hlt
    · rcases hopen with hyoung | hr | hp
      · rw [hgen₀] at hyoung
        rw [hyoung] at hlt
        exact absurd hlt (Nat.not_lt_zero _)
      · exact hr₀ hr
      · rw [hperm₀] at hp
        exact nomatch hp

theorem adjust (hs : heap.Sound) (hc : heap.arena.get? h = some c)
    (ha : c.Adjusts heap.arena h (f c)) (hr : (f c).flags.remembered = c.flags.remembered) :
    ({ heap with arena := heap.arena.setCell h f } : Heap).Sound := by
  refine hs.adjust_listed hc ha hs.once ?_ ?_
  · intro k
    constructor
    · exact .inl
    · rintro (hk | ⟨rfl, hd⟩)
      · exact hk
      · exact hs.listed.mpr ⟨c, hc, hr.symm.trans hd⟩
  · intro hd
    by_contra hperm
    rw [Bool.not_eq_false] at hperm
    rw [hr, (hs.proper hc).unlisted hperm] at hd
    exact nomatch hd

theorem remember (hs : heap.Sound) (hc : heap.arena.get? h = some c)
    (hr : c.flags.remembered = false) (hp : c.flags.permanent = false) :
    ({ heap with
      arena := heap.arena.setCell h (Cell.mapFlags fun fs => { fs with remembered := true })
      remembered := heap.remembered.push h } : Heap).Sound := by
  have hnew : h ∉ heap.remembered := by
    intro hmem
    obtain ⟨d, hd, hdr⟩ := hs.listed.mp hmem
    rw [hc, Option.some.injEq] at hd
    rw [← hd, hr] at hdr
    exact nomatch hdr
  have ha : c.Adjusts heap.arena h (c.mapFlags fun fs => { fs with remembered := true }) :=
    { kind := rfl, generation := rfl, marked := rfl, cached := id, string := .inl
      remembered := fun _ => rfl, permanent := rfl, symbolName := id, suits := id
      link := fun _ => rfl, name := fun he => .inl ⟨_, _, _, he⟩, edges := fun _ hk => .inl hk }
  refine hs.adjust_listed hc ha ?_ ?_ fun _ => hp
  · rw [Array.toList_push]
    exact List.nodup_append.mpr ⟨hs.once, List.nodup_singleton h, by
      rintro k hk _ hkh rfl
      obtain rfl := List.mem_singleton.mp hkh
      exact hnew (Array.mem_toList_iff.mp hk)⟩
  · intro k
    rw [Array.mem_push]
    constructor
    · rintro (hk | rfl)
      · exact .inl hk
      · exact .inr ⟨rfl, rfl⟩
    · rintro (hk | ⟨rfl, -⟩)
      · exact .inl hk
      · exact .inr rfl

theorem relink {arena : Arena} {strings : StringCache} {on : Handle → Prop} (hs : heap.Sound)
    (hr : Relinks heap.arena arena) (hon : Chained arena strings.buckets.toList on) :
    ({ heap with arena, strings } : Heap).Sound := by
  have hforth : ∀ {k e}, heap.arena.get? k = some e → ∃ e', arena.get? k = some e' ∧
      e'.header = e.header ∧ e'.payload = e.payload ∧ e'.edges true = e.edges true := by
    intro k e he
    obtain ⟨e', he', hee⟩ := hr.unlinked he
    refine ⟨e', he', Cell.header_of_unlinked hee, Cell.payload_of_unlinked hee, ?_⟩
    cases hcached : e.flags.cached with
    | false => rw [Cell.eq_of_unlinked hee hcached]
    | true =>
      have hcached' : e'.flags.cached = true := by
        rw [Cell.flags, Cell.header_of_unlinked hee]
        exact hcached
      simp only [Cell.edges, hcached, hcached', if_true, Cell.payload_of_unlinked hee]
  have hback : ∀ {k e}, arena.get? k = some e → ∃ e', heap.arena.get? k = some e' ∧
      e.header = e'.header ∧ e.payload = e'.payload ∧ e.edges true = e'.edges true := by
    intro k e he
    obtain ⟨e', he', -⟩ := hr.symm.unlinked he
    obtain ⟨e'', he'', hheader, hpayload, hedges⟩ := hforth he'
    rw [he, Option.some.injEq] at he''
    subst he''
    exact ⟨e', he', hheader, hpayload, hedges⟩
  have hkeep : ∀ {k}, (∃ e, heap.arena.get? k = some e ∧ e.flags.permanent = true) →
      ∃ e, arena.get? k = some e ∧ e.flags.permanent = true := by
    rintro k ⟨e, he, hperm⟩
    obtain ⟨e', he', hheader, -⟩ := hforth he
    exact ⟨e', he', by rwa [Cell.flags, hheader]⟩
  refine ⟨hs.names, ?_, ?_, hkeep hs.nilLive, hkeep hs.unboundLive, ⟨on, hon⟩, ?_, ?_, hs.once,
    ?_, ?_, hs.registered⟩
  · exact hr.tidy Cell.isFree_unlinked hs.tidy
  · intro k e he
    obtain ⟨e', he', hheader, hpayload, -⟩ := hback he
    have hp := hs.proper he'
    refine ⟨?_, ?_, ?_, ?_, ?_⟩
    · rw [Cell.flags, hheader]
      exact hp.unmarked
    · rw [Cell.kind, hheader, hpayload]
      exact hp.suits
    · rw [Cell.flags, Cell.kind, hheader]
      exact hp.cached
    · rw [Cell.flags, hheader]
      exact hp.settled
    · rw [Cell.flags, hheader]
      exact hp.unlisted
  · intro k e x he hperm hx
    obtain ⟨e', he', hheader, -, hedges⟩ := hback he
    rw [Cell.flags, hheader] at hperm
    obtain ⟨d, hd⟩ := hs.closed he' hperm (hedges ▸ hx)
    obtain ⟨d', hd', -⟩ := hforth hd
    exact ⟨d', hd'⟩
  · intro k e name value internal lastEnv he hperm hname
    obtain ⟨e', he', hheader, hpayload, -⟩ := hback he
    rw [Cell.flags, hheader] at hperm
    refine (hs.named he' hperm (hpayload ▸ hname)).imp_right ?_
    rintro ⟨d, hd, hanchored⟩
    obtain ⟨d', hd', hheader', -⟩ := hforth hd
    refine ⟨d', hd', ?_⟩
    rw [Cell.Anchored, Cell.flags, hheader']
    exact hanchored
  · intro k
    rw [hs.listed]
    constructor
    · rintro ⟨e, he, hrem⟩
      obtain ⟨e', he', hheader, -⟩ := hforth he
      exact ⟨e', he', by rwa [Cell.flags, hheader]⟩
    · rintro ⟨e, he, hrem⟩
      obtain ⟨e', he', hheader, -⟩ := hback he
      exact ⟨e', he', by rwa [Cell.flags, ← hheader]⟩
  · intro k e x d he hperm hx hd hlt
    obtain ⟨e', he', hheader, -, hedges⟩ := hback he
    obtain ⟨d', hd', hheader', -⟩ := hback hd
    rw [Cell.flags, hheader] at hperm ⊢
    rw [hheader, hheader'] at hlt
    exact hs.barred he' hperm (hedges ▸ hx) hd' hlt

theorem claim {n : NodeClass} {kind : Kind} {payload : Payload} {arena : Arena}
    (hs : heap.Sound) (hkind : kind ≠ .free) (hsuits : payload.suits kind = true)
    (hchildren : ∀ k ∈ payload.children true, k = .nil ∨ k = .unbound)
    (hname : ∀ {name value internal lastEnv}, payload = .symbol name value internal lastEnv →
      name = .nil)
    (hclaim : heap.arena.claim? n { kind } payload = some (h, arena)) :
    ({ heap with arena } : Heap).Sound := by
  obtain ⟨-, hshape, hcells⟩ := claim?_eq_some hclaim
  obtain ⟨free, hfree, hisFree⟩ := hs.tidy.claim_free hclaim
  have hnone : ∀ {e}, heap.arena.get? h ≠ some e := by
    intro e he
    obtain ⟨hat, hlive⟩ := get?_eq_some.mp he
    rw [hfree, Option.some.injEq] at hat
    rw [← hat, hisFree] at hlive
    cases hlive
  have hself : arena.get? h = some { header := { kind }, payload } := by
    rw [get?_eq_some, hcells, if_pos rfl, hfree]
    refine ⟨rfl, ?_⟩
    simpa [Cell.isFree, Header.isFree] using hkind
  have hother : ∀ {k}, k ≠ h → arena.get? k = heap.arena.get? k := by
    intro k hk
    simp only [get?, hcells, if_neg hk]
  have hforth : ∀ {k e}, heap.arena.get? k = some e → arena.get? k = some e := by
    intro k e he
    rw [hother fun hk => hnone (hk ▸ he), he]
  have hback : ∀ {k e}, arena.get? k = some e →
      (k = h ∧ e = { header := { kind }, payload }) ∨ heap.arena.get? k = some e := by
    intro k e he
    by_cases hk : k = h
    · subst hk
      rw [hself, Option.some.injEq] at he
      exact .inl ⟨rfl, he.symm⟩
    · exact .inr (hother hk ▸ he)
  have hedge : ∀ k ∈ ({ header := { kind }, payload } : Cell).edges true,
      ∃ d, heap.arena.get? k = some d := by
    intro k hk
    have hcases : k = .nil ∨ k = .unbound := by
      rcases List.mem_cons.mp hk with rfl | hk
      · exact .inl rfl
      · exact hchildren k hk
    obtain ⟨d, hd, -⟩ := hs.nilLive
    obtain ⟨d', hd', -⟩ := hs.unboundLive
    rcases hcases with rfl | rfl
    · exact ⟨d, hd⟩
    · exact ⟨d', hd'⟩
  refine ⟨hs.names, hs.tidy.claim hclaim, ?_, ?_, ?_, ?_, ?_, ?_, hs.once, ?_, ?_,
    hs.registered⟩
  · intro k e he
    rcases hback he with ⟨-, rfl⟩ | he
    · exact ⟨rfl, hsuits, by simp [Cell.flags], by simp [Cell.flags], by simp [Cell.flags]⟩
    · exact hs.proper he
  · obtain ⟨d, hd, hperm⟩ := hs.nilLive
    exact ⟨d, hforth hd, hperm⟩
  · obtain ⟨d, hd, hperm⟩ := hs.unboundLive
    exact ⟨d, hforth hd, hperm⟩
  · obtain ⟨on, hon⟩ := hs.chained
    exact ⟨on, hon.congr fun k _ e he hcached => ⟨e, hforth he, hcached, rfl⟩⟩
  · intro k e x he hperm hx
    rcases hback he with ⟨-, rfl⟩ | he
    · obtain ⟨d, hd⟩ := hedge x hx
      exact ⟨d, hforth hd⟩
    · obtain ⟨d, hd⟩ := hs.closed he hperm hx
      exact ⟨d, hforth hd⟩
  · intro k e name value internal lastEnv he hperm hpayload
    rcases hback he with ⟨-, rfl⟩ | he
    · obtain ⟨d, hd, hdperm⟩ := hs.nilLive
      rw [hname hpayload]
      exact .inr ⟨d, hforth hd, .inl ((hs.proper hd).settled hdperm)⟩
    · refine (hs.named he hperm hpayload).imp_right ?_
      rintro ⟨d, hd, hanchored⟩
      exact ⟨d, hforth hd, hanchored⟩
  · intro k
    rw [hs.listed]
    constructor
    · rintro ⟨e, he, hrem⟩
      exact ⟨e, hforth he, hrem⟩
    · rintro ⟨e, he, hrem⟩
      rcases hback he with ⟨-, rfl⟩ | he
      · cases hrem
      · exact ⟨e, he, hrem⟩
  · intro k e x d he hperm hx hd hlt
    rcases hback he with ⟨-, rfl⟩ | he
    · exact absurd hlt (Nat.not_lt_zero _)
    · obtain ⟨d₀, hd₀⟩ := hs.closed he hperm hx
      have hsame := hforth hd₀
      rw [hd, Option.some.injEq] at hsame
      subst hsame
      exact hs.barred he hperm hx hd₀ hlt

theorem grow {n : NodeClass} {i : Nat} {arena : Arena} (hs : heap.Sound)
    (hgrow : heap.arena.addSegment? n = some (i, arena)) :
    ({ heap with arena } : Heap).Sound := by
  have hget : ∀ k, arena.get? k = heap.arena.get? k := fun k => get?_addSegment hgrow
  obtain ⟨names, tidy, proper, nilLive, unboundLive, ⟨on, hon⟩, closed, named, once, listed,
    barred, registered⟩ := hs
  refine ⟨names, tidy.addSegment hgrow, ?_, ?_, ?_, ⟨on, ?_⟩, ?_, ?_, once, ?_, ?_, registered⟩
  case refine_4 => exact hon.congr fun k _ e he hcached => ⟨e, (hget k).trans he, hcached, rfl⟩
  all_goals simpa only [hget]

theorem cacheString {heap' : Heap} {bytes : Bytes} {encoding : Encoding} {hash : UInt32}
    {ascii : Bool} {u : PUnit} (hs : heap.Sound) (hc : heap.arena.get? h = some c)
    (hkind : c.kind = .charString) (hcached : c.flags.cached = false)
    (hperm : c.flags.permanent = false)
    (hrun : (HeapM.cacheString h bytes encoding hash ascii).run heap = .ok (u, heap')) :
    heap'.Sound ∧ ∃ d, heap'.arena.get? h = some d ∧ d.flags.cached = true := by
  obtain ⟨on, hon⟩ := hs.chained
  obtain ⟨arena, strings, journal, on', rfl, hrelinks, hchained⟩ :=
    HeapM.run_cacheString (hs.ne_nil hc hperm) hc hcached hon hrun
  have hset := hs.adjust (f := Cell.interned bytes encoding hash ascii) hc
    { kind := rfl, generation := rfl, marked := rfl, cached := fun _ => rfl
      string := fun _ => .inr hkind, remembered := id, permanent := rfl, symbolName := id
      suits := fun _ => by
        change Payload.suits _ c.kind = true
        rw [hkind]
        rfl
      link := fun _ => rfl, name := fun he => nomatch he
      edges := fun k hk => absurd hk List.not_mem_nil } rfl
  obtain ⟨d, hd, hdc⟩ := hrelinks.unlinked (get?_setCell_self hc (get?_eq_some.mp hc).2)
  refine ⟨(hset.relink hrelinks hchained).aside rfl rfl rfl rfl rfl, d, hd, ?_⟩
  rw [Cell.flags, Cell.header_of_unlinked hdc]
  rfl

end Heap.Sound

theorem Config.validate_eq_ok {c : Config} (hv : c.validate = .ok ()) :
    c.segmentCells ≤ maxSegmentCells ∧ c.nameMarkLevel ≤ 2 := by
  simp only [validate, except_bind, except_guard] at hv
  obtain ⟨_, -, hcells, hv⟩ := hv
  have hnames : ∃ u : Unit, (if c.nameMarkLevel > 2 then throw (.invalidLevel c.nameMarkLevel)
      else pure () : Except ConfigError Unit) = .ok u := by
    cases hmax : c.maxCells with
    | none =>
      simp only [hmax, except_bind, except_guard] at hv
      obtain ⟨_, -, -, _, -, hlast⟩ := hv
      exact ⟨_, hlast⟩
    | some max =>
      simp only [hmax, except_bind, except_guard] at hv
      obtain ⟨-, _, -, -, _, -, hlast⟩ := hv
      exact ⟨_, hlast⟩
  obtain ⟨_, hnames⟩ := hnames
  refine ⟨Nat.le_of_not_lt hcells, ?_⟩
  by_contra hlt
  rw [if_pos (Nat.lt_of_not_le hlt)] at hnames
  exact nomatch hnames

namespace Arena

theorem empty_tidy {cells : Nat} (hcells : cells ≤ maxSegmentCells) : (empty cells).Tidy := by
  have hlist : ∀ n, (empty cells).freeList n = [] := by
    intro n
    simp [freeList, empty]
  refine ⟨Nat.zero_le _, hcells, ?_, ?_, ?_⟩
  · intro i s hs
    cases hs
  · intro n h hh
    rw [hlist n] at hh
    exact absurd hh List.not_mem_nil
  · intro n
    rw [hlist n]
    exact List.nodup_nil

end Arena

namespace Heap

theorem installPermanent_eq_ok {a b : Arena} {kind : Kind} {payload : Payload} {expected : Handle}
    (hi : installPermanent a kind payload expected = .ok b) :
    a.claim? .fixed
      { kind, generation := .old, flags := { permanent := true }, refcount := .many } payload =
      some (expected, b) := by
  simp only [installPermanent] at hi
  split at hi
  · rename_i h arena hclaim
    split at hi
    · rename_i he
      rw [Except.ok.injEq] at hi
      rw [hclaim, he, hi]
    · exact nomatch hi
  · exact nomatch hi

theorem furnish_of_build {config : Config} {hash : Bytes → Encoding → UInt32} {heap : Heap}
    (hb : build config hash = .ok heap) : furnish (bare config hash) = .ok heap := by
  unfold build at hb
  split at hb
  · cases hb
  · exact hb

theorem build_cells {config : Config} {hash : Bytes → Encoding → UInt32} {heap : Heap}
    {h : Handle} {c : Cell} (hb : build config hash = .ok heap)
    (hc : heap.arena.get? h = some c) : ∃ kind payload,
      c = { header := { kind, generation := .old, flags := { permanent := true }, refcount := .many },
            payload } ∧
      (kind = .nil ∧ payload = .nil ∨
        kind = .symbol ∧ payload = .symbol .nil .unbound .nil .nil) := by
  replace hb := furnish_of_build hb
  simp only [furnish] at hb
  split at hb
  · rename_i i a₁ hsegment
    simp only [except_bind, pure, Except.pure, Except.ok.injEq] at hb
    obtain ⟨a₂, hnil, a₃, hunbound, rfl⟩ := hb
    obtain ⟨-, -, hat₂⟩ := Arena.claim?_eq_some (installPermanent_eq_ok hnil)
    obtain ⟨-, -, hat₃⟩ := Arena.claim?_eq_some (installPermanent_eq_ok hunbound)
    obtain ⟨hat, hlive⟩ := Arena.get?_eq_some.mp hc
    rw [hat₃] at hat
    split at hat
    · obtain ⟨_, -, rfl⟩ := Option.map_eq_some_iff.mp hat
      exact ⟨.symbol, .symbol .nil .unbound .nil .nil, rfl, .inr ⟨rfl, rfl⟩⟩
    · rw [hat₂] at hat
      split at hat
      · obtain ⟨_, -, rfl⟩ := Option.map_eq_some_iff.mp hat
        exact ⟨.nil, .nil, rfl, .inl ⟨rfl, rfl⟩⟩
      · have hold := (Arena.get?_addSegment hsegment).symm.trans (Arena.get?_eq_some.mpr ⟨hat, hlive⟩)
        exact nomatch hold
  · exact nomatch hb

theorem build_sound {config : Config} {hash : Bytes → Encoding → UInt32} {heap : Heap}
    (hcells : config.segmentCells ≤ maxSegmentCells) (hnames : config.nameMarkLevel ≤ 2)
    (hb : build config hash = .ok heap) : heap.Sound := by
  have hbuilt := furnish_of_build hb
  simp only [furnish] at hbuilt
  split at hbuilt
  · rename_i i a₁ hsegment
    simp only [except_bind, pure, Except.pure, Except.ok.injEq] at hbuilt
    obtain ⟨a₂, hnil, a₃, hunbound, rfl⟩ := hbuilt
    replace hnil := installPermanent_eq_ok hnil
    replace hunbound := installPermanent_eq_ok hunbound
    have ht₁ := (Arena.empty_tidy hcells).addSegment hsegment
    have ht₂ := ht₁.claim hnil
    have ht₃ := ht₂.claim hunbound
    obtain ⟨-, -, hat₂⟩ := Arena.claim?_eq_some hnil
    obtain ⟨-, -, hat₃⟩ := Arena.claim?_eq_some hunbound
    obtain ⟨n₁, hn₁, -⟩ := ht₁.claim_free hnil
    obtain ⟨n₂, hn₂, -⟩ := ht₂.claim_free hunbound
    have hne : Handle.nil ≠ .unbound := by decide
    have hback : ∀ {k c}, a₃.get? k = some c → c.flags = { permanent := true } ∧
        c.header.generation = .old ∧ c.payload.suits c.kind = true := by
      intro k c hc
      obtain ⟨kind, payload, rfl, ⟨rfl, rfl⟩ | ⟨rfl, rfl⟩⟩ := build_cells hb hc
      · exact ⟨rfl, rfl, rfl⟩
      · exact ⟨rfl, rfl, rfl⟩
    have hperm : ∀ {k c}, a₃.get? k = some c → c.flags.permanent ≠ false := by
      intro k c hc
      rw [(hback hc).1]
      exact nofun
    refine ⟨hnames, ht₃, ?_, ?_, ?_, ?_, ?_, ?_, List.nodup_nil, ?_, ?_, List.nodup_nil⟩
    · intro k c hc
      obtain ⟨hflags, hgen, hsuits⟩ := hback hc
      exact ⟨by rw [hflags], hsuits, by rw [hflags]; exact nofun, fun _ => hgen,
        fun _ => by rw [hflags]⟩
    · have hat : a₃.cellAt? .nil = _ := (hat₃ .nil).trans (if_neg hne)
      rw [hat₂, if_pos rfl, hn₁] at hat
      exact ⟨_, Arena.get?_eq_some.mpr ⟨hat, rfl⟩, rfl⟩
    · have hat : a₃.cellAt? .unbound = _ := (hat₃ .unbound).trans (if_pos rfl)
      rw [hn₂] at hat
      exact ⟨_, Arena.get?_eq_some.mpr ⟨hat, rfl⟩, rfl⟩
    · have hnone : Chained a₃ [] fun _ => False :=
        ⟨[], rfl, nofun, List.nodup_nil, fun _ => by simp⟩
      have hnils := hnone.add_nils (max config.cacheInitial 1)
      rw [List.append_nil, ← Array.toList_replicate] at hnils
      exact ⟨_, hnils⟩
    · intro k c x hc hp
      exact absurd hp (hperm hc)
    · intro k c name value internal lastEnv hc hp
      exact absurd hp (hperm hc)
    · intro k
      constructor
      · intro hk
        exact absurd hk (Array.not_mem_empty k)
      · rintro ⟨c, hc, hr⟩
        rw [(hback hc).1] at hr
        exact nomatch hr
    · intro k c x d hc hp
      exact absurd hp (hperm hc)
  · exact nomatch hbuilt

end Heap

end ManagedHeap
