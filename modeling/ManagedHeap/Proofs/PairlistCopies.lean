import ManagedHeap.Proofs.CopyGrowth

/-!
# Copies of pairlists

A pairlist is copied pair by pair. The last of the copies made so far is open; each step makes a
pair for the next element and hangs it on the open one. The first pair is protected, and with it all
that follow.
-/

namespace ManagedHeap

/-- A pair was made for the one at `x`, with a copy of its element, and nothing follows it yet. -/
structure Heap.CopiesPair (heap heap' : Heap) (start : Handle → Prop) (x cell : Handle)
    (cells : Finset Handle) : Prop extends heap.Grows heap' start x cell cells where
  mem : cell ∈ cells
  shows : ∃ c car cdr tag element, heap.arena.get? x = some c ∧ c.kind.isPairLike = true ∧
    c.payload = .pair car cdr tag ∧ heap'.Shows cell c.kind (.pair element .nil tag) ∧
    heap.Mirrors heap' (· ∈ cells.erase cell) .object car element

/-- The pairs from `h` up to `cursor` are copied to those from `r` up to `tail`, after which
there is `stop`. -/
inductive Heap.PairsCopied (heap heap' : Heap) (made : Handle → Prop) (cursor tail stop : Handle) :
    Handle → Handle → Prop
  | last {h car tag car' : Handle} {c : Cell} : heap.arena.get? h = some c →
      c.kind.isPairLike = true → c.payload = .pair car cursor tag →
      heap'.Shows tail c.kind (.pair car' stop tag) → heap.Mirrors heap' made .object car car' →
      PairsCopied heap heap' made cursor tail stop h tail
  | next {h r car cdr tag car' cdr' : Handle} {c : Cell} : heap.arena.get? h = some c →
      c.kind.isPairLike = true → c.payload = .pair car cdr tag → made r →
      heap'.Shows r c.kind (.pair car' cdr' tag) → heap.Mirrors heap' made .object car car' →
      PairsCopied heap heap' made cursor tail stop cdr cdr' → PairsCopied heap heap' made cursor tail stop h r

namespace Heap

variable {heap mid last heap' : Heap} {start start' made made' : Handle → Prop}
  {h r k v t x car cdr tag cursor tail stop cell element : Handle} {cells more : Finset Handle}
  {c : Cell} {kind : Kind} {payload : Payload} {index : Nat} {kept : List Handle}

theorem Shows.get? (hshows : heap.Shows h kind payload) (hp : payload.Plain) :
    ∃ d, heap.arena.get? h = some d ∧ d.kind = kind ∧ d.payload = payload := by
  obtain ⟨d, hd, hsame⟩ := hshows
  exact ⟨d, hd, (Cell.kind_of_content hsame :), Cell.payload_of_plain (c := .blank kind payload) hsame hp⟩

theorem Provides.shows_pair (hp : heap.Provides heap' kind 0 kept cell)
    (hpair : kind.isPairLike = true) : heap'.Shows cell kind (.pair .nil .nil .nil) := by
  obtain ⟨payload, hpayload, hblank⟩ := hp.blank
  obtain rfl : .pair .nil .nil .nil = payload := by
    cases kind <;> simp_all [Kind.isPairLike, Payload.forKind?]
  exact .of_graph hblank rfl

namespace PairsCopied

theorem tail_shows (hs : heap.PairsCopied heap' made cursor tail stop h r) :
    ∃ kind car tag, heap'.Shows tail kind (.pair car stop tag) := by
  induction hs with
  | last _ _ _ hshows _ => exact ⟨_, _, _, hshows⟩
  | next _ _ _ _ _ _ _ ih => exact ih

theorem head_shows (hs : heap.PairsCopied heap' made cursor tail stop h r) :
    ∃ c car cdr tag, heap.arena.get? h = some c ∧ c.kind.isPairLike = true ∧
      heap'.Shows r c.kind (.pair car cdr tag) := by
  cases hs with
  | last hc hpair _ hshows _ => exact ⟨_, _, _, _, hc, hpair, hshows⟩
  | next hc hpair _ _ hshows _ _ => exact ⟨_, _, _, _, hc, hpair, hshows⟩

theorem hung (hs : heap.PairsCopied mid made cursor tail stop h r) (hmid : mid.Sound)
    (hkeep : mid.KeepsMade heap' made)
    (hcopied : ∀ t d, made t → mid.arena.get? t = some d → d.isShared = false)
    (hopen : ∀ kind car tag, mid.Shows tail kind (.pair car stop tag) →
      heap'.Shows tail kind (.pair car v tag)) : heap.PairsCopied heap' made cursor tail v h r := by
  induction hs with
  | last hc hpair hp hshows hm =>
    exact .last hc hpair hp (hopen _ _ _ hshows) (hm.sustained hmid hkeep hcopied)
  | next hc hpair hp hmade hshows hm _ ih =>
    exact .next hc hpair hp hmade (hkeep.shows hmade hshows) (hm.sustained hmid hkeep hcopied) ih

theorem snoc (hs : heap.PairsCopied heap' made cursor tail cell h r)
    (hmade : ∀ t, made t ∨ t = tail → made' t) (hc : heap.arena.get? cursor = some c)
    (hpair : c.kind.isPairLike = true) (hp : c.payload = .pair car cdr tag)
    (hshows : heap'.Shows cell c.kind (.pair element .nil tag))
    (hm : heap.Mirrors heap' made' .object car element) :
    heap.PairsCopied heap' made' cdr cell .nil h r := by
  induction hs with
  | last hx hxpair hxp hxshows hxm =>
    exact .next hx hxpair hxp (hmade _ (.inr rfl)) hxshows (hxm.mono fun t ht => hmade t (.inl ht))
      (.last hc hpair hp hshows hm)
  | next hx hxpair hxp hxmade hxshows hxm _ ih =>
    exact .next hx hxpair hxp (hmade _ (.inl hxmade)) hxshows
      (hxm.mono fun t ht => hmade t (.inl ht)) ih

theorem mirrors_tail (hs : heap.PairsCopied heap' made cursor tail stop h r)
    (hm : heap.Mirrors heap' made' .body h r) : heap.Mirrors heap' made' .tail h r := by
  obtain ⟨c, car, cdr, tag, hc, hpair, d, hd, hsame⟩ := hs.head_shows
  exact .cell hc hpair hd (Cell.attached_of_content hsame) (Cell.object_of_content hsame)
    (Cell.s4Object_of_content hsame) hm

theorem mirrors (hs : heap.PairsCopied heap' made cursor tail stop h r)
    (hmade : ∀ t, made t ∨ t = tail → made' t) (hlast : heap.Mirrors heap' made' .tail cursor stop) :
    heap.Mirrors heap' made' .body h r := by
  induction hs with
  | last hc hpair hp hshows hm =>
    obtain ⟨d, hd, hkind, hdp⟩ := hshows.get? ⟨nofun, nofun⟩
    exact .pair hc hpair hp (hmade _ (.inr rfl)) hd hkind hdp
      (hm.mono fun t ht => hmade t (.inl ht)) hlast
  | next hc hpair hp hxmade hshows hm hrest ih =>
    obtain ⟨d, hd, hkind, hdp⟩ := hshows.get? ⟨nofun, nofun⟩
    exact .pair hc hpair hp (hmade _ (.inl hxmade)) hd hkind hdp
      (hm.mono fun t ht => hmade t (.inl ht)) (hrest.mirrors_tail ih)

end PairsCopied

end Heap

namespace Heap

variable {heap mid filled last heap' : Heap} {start : Handle → Prop}
  {x car cdr tag cell element : Handle} {c : Cell} {kind : Kind} {u : PUnit}

theorem AnswersCopy.copiesPair (hone : heap.AnswersCopy car element mid)
    (hsrc : heap.Source start x) (hm : heap.StartsRooted heap.protect.depth start)
    (hc : heap.arena.get? x = some c) (hpair : c.kind.isPairLike = true)
    (hp : c.payload = .pair car cdr tag) (hmid : mid.Sound) (hfilled : filled.Sound)
    (hlast : last.Sound) (hkind : (HeapM.kind x).run mid = .ok (kind, mid)) {name : Handle}
    (htag : (HeapM.tag x).run mid = .ok (name, mid))
    (hprovides : mid.Provides filled kind 0 [element] cell)
    (hcar : (HeapM.setCar cell element).run filled = .ok (u, last))
    (hname : (HeapM.setTag cell name).run last = .ok (u, heap')) :
    ∃ cells, heap.CopiesPair heap' start x cell cells := by
  have hcopied := Cell.isShared_of_isPairLike hpair
  have hslot : ∀ {k}, k ∈ c.payload.children true → heap.ReachedFrom (· = x) k :=
    hsrc.slot (.start rfl hc) hc hcopied
  have hreached : heap.ReachedFrom (· = x) car := hslot (by simp [hp, Payload.children])
  obtain ⟨more, hpart⟩ := hone.copyOf start ⟨hsrc.sound, hsrc.copyable, hsrc.live,
    hsrc.within hreached⟩ hm
  -- the original is read after its element was copied
  have hpart' : heap.CreatesBeside mid (· = x) start more := hpart.createsBeside.mono
    (fun k hk => hk.trans fun j d hj _ => hj ▸ hreached) fun _ => id
  obtain ⟨d, hd, hsame, hdp⟩ := hsrc.read hpart' (.start rfl hc) hc hcopied
  rw [hp] at hdp
  obtain ⟨d', hd', rfl, -⟩ := HeapM.run_kind.mp hkind
  rw [hd, Option.some.injEq] at hd'
  subst hd'
  rw [Cell.kind_of_content hsame] at hprovides
  obtain rfl := HeapM.run_tag_pair hd hdp htag
  have hblank := hprovides.shows_pair hpair
  have hset := HeapM.refers_setCar hblank hcar
  have htagged := HeapM.refers_setTag (hset.shows hblank) hname
  have hstartsRooted : ∀ p, start p → mid.Rooted p :=
    (hm.carried hone.sameRoots hpart'.carries).pinned
  obtain ⟨hgrows, hapart, hkeep⟩ := hpart.headed ⟨hsrc.sound, hsrc.copyable, hsrc.live,
    hsrc.within hreached⟩ hstartsRooted hprovides hfilled
    (fun payload => Cell.isShared_of_isPairLike hpair) hmid hset
  have hcell : cell ∈ more ∪ {cell} := Finset.mem_union_right more (Finset.mem_singleton_self cell)
  have hwritten := (hgrows.within hreached hcell).written hsrc hlast htagged hcell fun k hk =>
    .inr (hslot (by simp_all [Payload.children]))
  refine ⟨_, hwritten, hcell, c, car, cdr, name, element, hc, hpair, hp,
    htagged.shows (hset.shows hblank), ?_⟩
  refine (hpart.mirrors.sustained hmid (hkeep.trans (htagged.keepsMade hapart))
    hpart.createsBeside.copied).mono fun t ht => Finset.mem_erase.mpr ⟨?_, Finset.mem_union_left {cell} ht⟩
  rintro rfl
  exact hapart ht

end Heap

/-- The copy of the pairs from `h` up to `cursor` while it is made. Its first pair is in a
protection slot above those of the starting points. -/
structure Heap.PairlistCopy (heap mid : Heap) (start : Handle → Prop) (index : Nat)
    (h cursor head tail : Handle) (cells : Finset Handle) : Prop where
  source : heap.Source start h
  startsRooted : heap.StartsRooted index start
  sameRoots : heap.SameRoots mid index
  sound : mid.Sound
  grows : heap.Grows mid start h head cells
  pinned : mid.protect.slots[index]? = some head
  reached : heap.ReachedFrom (· = h) cursor
  last : tail ∈ cells
  pairsCopied : heap.PairsCopied mid (· ∈ cells.erase tail) cursor tail .nil h head

namespace Heap

variable {heap mid last heap' : Heap} {start : Handle → Prop} {index : Nat}
  {h cursor next head tail cell v : Handle} {cells more : Finset Handle} {u : PUnit} {c : Cell}

theorem CopiesPair.pairlistCopy (hd : heap.CopiesPair mid start h cell cells) (hsrc : heap.Source start h)
    (hm : heap.StartsRooted index start) (ha : heap.SameRoots mid index)
    (hindex : index < mid.protect.slots.size) (hlast : last.Sound)
    (hrun : (HeapM.reprotect cell index).run mid = .ok (u, last))
    (hcdr : (HeapM.cdr h).run last = .ok (next, last)) :
    heap.PairlistCopy last start index h next cell cell cells := by
  obtain ⟨c, car, cdr, tag, element, hc, hpair, hp, hshows, hmirrors⟩ := hd.shows
  obtain rfl := HeapM.run_reprotect hrun
  have hclose : mid.SameObjectsAside { mid with protect :=
    { mid.protect with slots := mid.protect.slots.setIfInBounds index cell } } := ⟨rfl, rfl, rfl⟩
  have hgrows := hd.toGrows.around .refl hclose
  have hcopied := Cell.isShared_of_isPairLike hpair
  have hself : heap.ReachedFrom (· = h) h := .start rfl hc
  obtain ⟨d, hd', -, hdp⟩ := hsrc.read hgrows.createsBeside hself hc hcopied
  obtain rfl := HeapM.run_cdr_pair hd' (hdp.trans hp) hcdr
  refine ⟨hsrc, hm, ha.trans ⟨rfl, rfl, ?_⟩, hlast, hgrows, by simp [hindex],
    hsrc.slot hself hc hcopied (by simp [hp, Payload.children]), hd.mem, ?_⟩
  · rw [Array.toList_setIfInBounds, List.take_set_of_le (Nat.le_refl _)]
  · exact .last hc hpair hp hshows (hmirrors.around .refl ⟨rfl, rfl, rfl⟩)

namespace PairlistCopy

variable (ht : heap.PairlistCopy mid start index h cursor head tail cells)

include ht

theorem head_mem : head ∈ cells :=
  ht.grows.root.resolve_right fun hno => Finset.notMem_empty tail (hno.1 ▸ ht.last)

theorem next_source : mid.Source (fun p => start p ∨ p = head) cursor ∧
    mid.StartsRooted mid.protect.depth fun p => start p ∨ p = head := by
  have hstartsRooted := (ht.startsRooted.carried ht.sameRoots ht.grows.createsBeside.carries).deepen
    (Array.mem_toList_iff.mpr (Array.mem_of_getElem? ht.pinned)) (ht.grows.live ht.head_mem)
  exact ⟨ht.source.later ht.grows.createsBeside ht.sound hstartsRooted.live (fun _ => .inl) ht.reached, hstartsRooted⟩

theorem partOfCopy (hpart : mid.Grows last (fun p => start p ∨ p = head) cursor v more)
    (hlast : last.Sound) :
    heap.PartOfCopy mid last start (fun p => start p ∨ p = head) h head cursor v cells more :=
  ⟨ht.source, ht.grows, hpart, ht.sound, hlast, fun _ => id, ht.reached, ht.head_mem⟩

theorem hangs (hpart : mid.Grows last (fun p => start p ∨ p = head) cursor v more)
    (hlast : last.Sound) (hrun : (HeapM.setCdr tail v).run last = .ok (u, heap')) :
    (∃ f, last.Refers heap' tail f [v]) ∧
      heap.PairsCopied heap' (· ∈ cells.erase tail) cursor tail v h head := by
  have hj := ht.partOfCopy hpart hlast
  have hrefers : ∀ {kind car tag}, mid.Shows tail kind (.pair car .nil tag) →
      last.Refers heap' tail (fun c => { c with payload := .pair car v tag }) [v] ∧
        heap'.Shows tail kind (.pair car v tag) := fun hshows => by
    have hafter := hj.keepsMade.shows ht.last hshows
    have hr := HeapM.refers_setCdr hafter hrun
    exact ⟨hr, hr.shows hafter⟩
  obtain ⟨kind, car, tag, hshows⟩ := ht.pairsCopied.tail_shows
  exact ⟨⟨_, (hrefers hshows).1⟩, ht.pairsCopied.hung ht.sound
    (hj.keepsMade_written (hrefers hshows).1)
    (fun t d hmem => ht.grows.createsBeside.copied t d (Finset.mem_of_mem_erase hmem))
    fun _ _ _ hs => (hrefers hs).2⟩

theorem step (hd : mid.CopiesPair last (fun p => start p ∨ p = head) cursor cell more)
    (hrestoresRoots : mid.RestoresRoots last) (hlast : last.Sound) (hend : heap'.Sound)
    (hrun : (HeapM.setCdr tail cell).run last = .ok (u, heap'))
    (hcdr : (HeapM.cdr cursor).run heap' = .ok (next, heap')) :
    heap.PairlistCopy heap' start index h next head cell (cells ∪ more) := by
  obtain ⟨c, car, cdr, tag, element, hc, hpair, hp, hshows, hmirrors⟩ := hd.shows
  have hj := ht.partOfCopy hd.toGrows hlast
  obtain ⟨⟨f, hr⟩, hpairsCopied⟩ := ht.hangs hd.toGrows hlast hrun
  have hgrows := hj.attach hr ht.last
  have hcopied := Cell.isShared_of_isPairLike hpair
  -- the pair at the cursor is what it was at first
  obtain ⟨d, hd', hdcopied, hsame, hdp⟩ := ht.source.found ht.grows.createsBeside ht.reached hc hcopied
  rw [hp] at hdp
  have hkind := Cell.kind_of_content hsame
  obtain ⟨e, he, -, hep⟩ := ht.source.read hgrows.createsBeside ht.reached hd' hdcopied
  obtain rfl := HeapM.run_cdr_pair he (hep.trans hdp.symm) hcdr
  have hslot : ∀ {k}, k ∈ d.payload.children true → heap.ReachedFrom (· = h) k :=
    ht.source.slot ht.reached hd' hdcopied
  have hout : cell ∉ cells := hj.result_not_mem
  have hslots := (hrestoresRoots.trans (RestoresRoots.of_control hr.control)).slots
  have hkeep : last.KeepsMade heap' (· = cell) :=
    hr.keepsMade fun heq : tail = cell => hout (heq ▸ ht.last)
  refine ⟨ht.source, ht.startsRooted, ?_, hend, hgrows, ?_, hslot (by simp [← hdp, Payload.children]), ?_, ?_⟩
  · exact (ht.sameRoots.trans hrestoresRoots.sameRoots).trans (RestoresRoots.of_control hr.control).sameRoots
  · rw [hslots]
    exact ht.pinned
  · exact Finset.mem_union_right cells hd.mem
  · refine hpairsCopied.snoc (fun t hmem => ?_) hd' (hkind ▸ hpair) hdp.symm
      (hkind ▸ hkeep.shows rfl hshows)
      ((hj.mirrors hmirrors (fun s => Finset.mem_of_mem_erase)
        (hslot (by simp [← hdp, Payload.children])) hr ht.last).mono fun t hmem => ?_)
    · refine Finset.mem_erase.mpr ⟨?_, Finset.mem_union_left more ?_⟩
      · rintro rfl
        exact hmem.elim (fun hin => hout (Finset.mem_of_mem_erase hin)) fun heq => hout (heq ▸ ht.last)
      · exact hmem.elim Finset.mem_of_mem_erase fun heq => heq ▸ ht.last
    · exact Finset.erase_subset_erase cell Finset.subset_union_right hmem

theorem finish (hnil : cursor = .nil) (hc : heap.arena.get? cursor = some c)
    (hend : c.kind.isPairLike = false) : heap.BareCopyOf mid start h head cells := by
  subst hnil
  have hperm : c.flags.permanent = true := by
    by_contra hno
    exact ht.source.sound.ne_nil hc (by simpa using hno) rfl
  obtain ⟨d, _, _, _, -, -, hshows⟩ := ht.pairsCopied.head_shows
  refine ⟨⟨ht.grows, ht.pairsCopied.mirrors (fun t hmem => ?_)
    (.last hc hend (.shared hc (Copyable.isShared ht.source.copyable hc hperm)))⟩, _, _, hshows⟩
  exact hmem.elim Finset.mem_of_mem_erase fun heq => heq ▸ ht.last

theorem finish_rest (hc : heap.arena.get? cursor = some c) (hend : c.kind.isPairLike = false)
    (hone : mid.AnswersCopy cursor v last) (hlast : last.Sound)
    (hrun : (HeapM.setCdr tail v).run last = .ok (u, heap')) :
    ∃ more, heap.BareCopyOf heap' start h head more := by
  obtain ⟨hsource, hstartsRooted⟩ := ht.next_source
  obtain ⟨more, hpart⟩ := hone.copyOf _ hsource hstartsRooted
  have hj := ht.partOfCopy hpart.toGrows hlast
  obtain ⟨⟨f, hr⟩, hpairsCopied⟩ := ht.hangs hpart.toGrows hlast hrun
  obtain ⟨d, _, _, _, -, -, hshows⟩ := hpairsCopied.head_shows
  refine ⟨_, ⟨hj.attach hr ht.last, hpairsCopied.mirrors (fun t hmem => Finset.mem_union_left more ?_)
    (.last hc hend ((hj.mirrors hpart.mirrors (fun _ => id) ht.reached hr ht.last).mono
      fun t => Finset.mem_union_right cells))⟩, _, _, hshows⟩
  exact hmem.elim Finset.mem_of_mem_erase fun heq => heq ▸ ht.last

end PairlistCopy

end Heap

/-- What copying pairs makes of a heap. -/
structure Heap.CopiesPairlist (heap : Heap) (index : Nat) (head tail cursor : Handle)
    (r : Handle × Handle × Handle) (heap' : Heap) : Prop where
  sameRoots : heap.SameRoots heap' index
  size : heap'.protect.slots.size = heap.protect.slots.size
  begins : tail = .nil → ∀ start, heap.Source start cursor → heap.StartsRooted index start →
    index < heap.protect.slots.size →
    (∃ c, heap.arena.get? cursor = some c ∧ c.kind.isPairLike = true) →
    ∃ cells c, heap.PairlistCopy heap' start index cursor r.2.2 r.1 r.2.1 cells ∧
      heap.arena.get? r.2.2 = some c ∧ c.kind.isPairLike = false
  goes_on : ∀ first start h cells, Heap.PairlistCopy first heap start index h cursor head tail cells →
    ∃ cells c, Heap.PairlistCopy first heap' start index h r.2.2 r.1 r.2.1 cells ∧
      first.arena.get? r.2.2 = some c ∧ c.kind.isPairLike = false

theorem Attempt.Quietly.exact {ω α : Type} {act : HeapM α} (hsafe : act.Safe)
    (hredrawn : ∀ heap a heap', act.run heap = .ok (a, heap') → ∃ g, heap.Redrawn heap' g) :
    Attempt.Quietly (liftM act : Attempt ω α) fun heap a heap' => act.run heap = .ok (a, heap') := by
  refine .redrawn hsafe fun heap a heap' hrun => ?_
  obtain ⟨g, hg⟩ := hredrawn heap a heap' hrun
  exact ⟨g, hg, hrun⟩

namespace HeapM

variable {heap heap' : Heap} {h value : Handle} {u : PUnit}

theorem exists_redrawn_setCar (hrun : (setCar h value).run heap = .ok (u, heap')) :
    ∃ g, heap.Redrawn heap' g := by
  obtain ⟨_, _, _, _, -, -, hr⟩ := redrawn_setCar hrun
  exact ⟨_, hr⟩

theorem exists_redrawn_setCdr (hrun : (setCdr h value).run heap = .ok (u, heap')) :
    ∃ g, heap.Redrawn heap' g := by
  obtain ⟨_, _, _, _, -, -, hr⟩ := redrawn_setCdr hrun
  exact ⟨_, hr⟩

theorem exists_redrawn_setTag (hrun : (setTag h value).run heap = .ok (u, heap')) :
    ∃ g, heap.Redrawn heap' g := by
  obtain ⟨_, _, _, _, -, -, hr⟩ := redrawn_setTag hrun
  exact ⟨_, hr⟩

end HeapM

theorem Cell.Proper.pair {c : Cell} (hc : c.Proper) (hpair : c.kind.isPairLike = true) :
    ∃ car cdr tag, c.payload = .pair car cdr tag := by
  have hsuits := hc.suits
  have hkind : c.kind = .pair ∨ c.kind = .language := by
    cases hk : c.kind <;> simp_all [Kind.isPairLike]
  rcases hkind with hkind | hkind <;> rw [hkind] at hsuits <;>
    cases hp : c.payload <;> simp_all [Payload.suits]

namespace HostM

variable {ω : Type} {fuel : Nat} {copyOne : Handle → Attempt ω Handle}

theorem copiesPairlist_copyPairs (hone : ∀ h, Attempt.Quietly (copyOne h)
      fun heap r heap' => heap.AnswersCopy h r heap') {index : Nat}
    (steps : Nat) (head tail cursor : Handle) :
    Attempt.Quietly (copyPairs (.mute fuel) copyOne index head tail cursor steps)
      fun heap r heap' => heap.CopiesPairlist index head tail cursor r heap' := by
  induction steps generalizing head tail cursor with
  | zero => exact .throwFault
  | succ steps ih =>
    refine (Attempt.Quietly.bind (.reads .kind) fun k => (?_ : Attempt.Quietly _
      fun heap r heap' => (HeapM.kind cursor).run heap = .ok (k, heap) →
        heap.CopiesPairlist index head tail cursor r heap')).conseq ?_
    · split
      · rename_i hstop
        refine Attempt.Quietly.pure.conseq ?_
        rintro heap r heap' - ⟨rfl, rfl⟩ hkind
        obtain ⟨c, hc, rfl, -⟩ := HeapM.run_kind.mp hkind
        have hend : c.kind.isPairLike = false := by simpa using hstop
        refine ⟨⟨rfl, rfl, rfl⟩, rfl, fun _ _ _ _ _ ⟨d, hd, hpair⟩ => ?_,
          fun first start h cells ht => ?_⟩
        · rw [hc, Option.some.injEq] at hd
          exact nomatch (hd ▸ hend).symm.trans hpair
        · obtain ⟨d, hd⟩ := ht.reached.live
          obtain ⟨e, he, hlasts⟩ := ht.grows.createsBeside.carries _ d (ht.source.within ht.reached) hd
          rw [hc, Option.some.injEq] at he
          exact ⟨cells, d, ht, hd, by rw [← hlasts.kind, ← he, hend]⟩
      · rename_i hgo
        refine (Attempt.Quietly.bind (.reads .car) fun car => .bind (hone car) fun element =>
          .bind (.reads .kind) fun cellKind => .bind (.reads .tag) fun cellTag =>
          .bind quietly_allocate fun cell =>
          .bind (.exact .setCar fun _ _ _ => HeapM.exists_redrawn_setCar) fun _ =>
          .bind (.exact .setTag fun _ _ _ => HeapM.exists_redrawn_setTag) fun _ =>
          (?_ : Attempt.Quietly _ fun heap r heap' => ∃ mid next, mid.Sound ∧
            (if tail.isNil then HeapM.reprotect cell index else HeapM.setCdr tail cell).run heap =
              .ok ((), mid) ∧ (HeapM.cdr cursor).run mid = .ok (next, mid) ∧
            mid.CopiesPairlist index (if tail.isNil then cell else head) cell next r heap')).conseq ?_
        · have hend : ∀ head cell, Attempt.Quietly (ω := ω) (do
              let next ← HeapM.cdr cursor
              copyPairs (.mute fuel) copyOne index head cell next steps)
              fun heap r heap' => ∃ next, (HeapM.cdr cursor).run heap = .ok (next, heap) ∧
                heap.CopiesPairlist index head cell next r heap' :=
            fun head cell => (Attempt.Quietly.bind (.reads .cdr) fun next => ih head cell next).conseq
              fun heap r heap' _ ⟨next, _, _, ⟨hcdr, hsame⟩, hlast⟩ => ⟨next, hcdr, hsame ▸ hlast⟩
          split
          · refine (Attempt.Quietly.bind (.lift .reprotect (Q := fun heap u heap' =>
              (HeapM.reprotect cell index).run heap = .ok (u, heap')) fun heap u heap' _ hrun => ?_)
              fun _ => hend cell cell).conseq ?_
            · obtain rfl := HeapM.run_reprotect hrun
              exact ⟨rfl, hrun⟩
            · rintro heap r heap' - ⟨_, mid, hmid, hrun, next, hcdr, hlast⟩
              exact ⟨mid, next, hmid, hrun, hcdr, hlast⟩
          · refine (Attempt.Quietly.bind (.exact .setCdr fun _ _ _ => HeapM.exists_redrawn_setCdr)
              fun _ => hend head cell).conseq ?_
            rintro heap r heap' - ⟨_, mid, hmid, hrun, next, hcdr, hlast⟩
            exact ⟨mid, next, hmid, hrun, hcdr, hlast⟩
        · rintro heap r heap' hs ⟨car, heap, -, ⟨hcar, rfl⟩, element, _, hs₁, hdup, kind, _, -,
            ⟨hkind, rfl⟩, name, m₂, -, ⟨htag, rfl⟩, cell, m₃, hs₃, hprovides, _, m₄, hs₄, hsetcar, _, m₅,
            hs₅, hsettag, last, next, hlast, hlink, hcdr, hcopiesPairlist⟩ hk
          obtain ⟨c, hc, rfl, -⟩ := HeapM.run_kind.mp hk
          have hpair : c.kind.isPairLike = true := by simpa using hgo
          obtain ⟨_, cdr, tag, hp⟩ := (hs.proper hc).pair hpair
          obtain rfl := HeapM.run_car_pair hc hp hcar
          have hcopiesPair : ∀ start, heap.Source start cursor → heap.StartsRooted heap.protect.depth start →
              ∃ cells, heap.CopiesPair m₅ start cursor cell cells := fun start hsrc hm =>
            hdup.copiesPair hsrc hm hc hpair hp hs₁ hs₃ hs₄ hkind htag hprovides hsetcar hsettag
          have hrestoresRoots : heap.RestoresRoots m₅ := by
            obtain ⟨_, hr⟩ := HeapM.exists_redrawn_setCar hsetcar
            obtain ⟨_, hr'⟩ := HeapM.exists_redrawn_setTag hsettag
            exact hdup.toRestoresRoots.trans (hprovides.restoresRoots.trans
              (.of_control (hr'.control.trans hr.control)))
          have hlinked : m₅.SameRoots last index ∧
              last.protect.slots.size = m₅.protect.slots.size := by
            split at hlink
            · obtain rfl := HeapM.run_reprotect hlink
              refine ⟨⟨rfl, rfl, ?_⟩, by simp⟩
              rw [Array.toList_setIfInBounds, List.take_set_of_le (Nat.le_refl _)]
            · obtain ⟨_, hr⟩ := HeapM.exists_redrawn_setCdr hlink
              have hsame : m₅.RestoresRoots last := .of_control hr.control
              exact ⟨hsame.sameRoots, by rw [hsame.slots]⟩
          refine ⟨(hrestoresRoots.sameRoots.trans hlinked.1).trans hcopiesPairlist.sameRoots,
            by rw [hcopiesPairlist.size, hlinked.2, hrestoresRoots.slots], ?_, ?_⟩
          · rintro rfl start hsrc hm hindex -
            obtain ⟨cells, hd⟩ := hcopiesPair start hsrc hm.full
            exact hcopiesPairlist.goes_on _ _ _ _ (hd.pairlistCopy hsrc hm hrestoresRoots.sameRoots
              (hrestoresRoots.slots ▸ hindex) hlast hlink hcdr)
          · intro first start h cells ht
            have htail : tail.isNil = false := by
              simpa [Handle.isNil] using ht.grows.createsBeside.ne_nil tail ht.last
            simp only [htail, Bool.false_eq_true, if_false] at hlink hcopiesPairlist
            obtain ⟨hsrc, hm⟩ := ht.next_source
            obtain ⟨more, hd⟩ := hcopiesPair _ hsrc hm
            exact hcopiesPairlist.goes_on _ _ _ _ (ht.step hd hrestoresRoots hs₅ hlast hlink hcdr)
    · rintro heap r heap' - ⟨k, _, -, ⟨hkind, rfl⟩, hlast⟩
      exact hlast hkind

theorem forms_copyPairlist (hone : ∀ h, Attempt.Quietly (copyOne h)
      fun heap r heap' => heap.AnswersCopy h r heap') {h : Handle} :
    Attempt.Quietly (copyPairlist (.mute fuel) copyOne h) fun heap r heap' =>
      (∃ c, heap.arena.get? h = some c ∧ c.kind.isPairLike = true) → heap.AnswersBareCopy h r heap' := by
  refine (Attempt.Quietly.protecting (.bind .pushRoot fun index => .bind (.liftHost .stepBound)
    fun bound => (?_ : Attempt.Quietly _ fun heap r heap' => heap.SameRoots heap' index ∧
      ∀ start, heap.Source start h → heap.StartsRooted index start → index < heap.protect.slots.size →
        (∃ c, heap.arena.get? h = some c ∧ c.kind.isPairLike = true) →
        ∃ cells, heap.BareCopyOf heap' start h r cells))).conseq ?_
  · refine (Attempt.Quietly.bind (copiesPairlist_copyPairs hone bound .nil .nil h) fun result =>
      (?_ : Attempt.Quietly _ fun heap r heap' => heap.RestoresRoots heap' ∧
        ∀ first start cells, Heap.PairlistCopy first heap start index h result.2.2 result.1 result.2.1
          cells → (∃ c, first.arena.get? result.2.2 = some c ∧ c.kind.isPairLike = false) →
          ∃ more, Heap.BareCopyOf first heap' start h r more)).conseq ?_
    · obtain ⟨head, tail, rest⟩ := result
      dsimp only
      split
      · refine (Attempt.Quietly.bind (hone rest) fun last => .bind
          (.exact .setCdr fun _ _ _ => HeapM.exists_redrawn_setCdr) fun _ => .pure).conseq ?_
        rintro heap r heap' - ⟨last, mid, hmid, hdup, _, _, -, hrun, rfl, rfl⟩
        obtain ⟨_, hr⟩ := HeapM.exists_redrawn_setCdr hrun
        exact ⟨hdup.toRestoresRoots.trans (.of_control hr.control), fun first start cells ht ⟨c, hc, hend⟩ =>
          ht.finish_rest hc hend hdup hmid hrun⟩
      · rename_i hstop
        refine Attempt.Quietly.pure.conseq ?_
        rintro heap r heap' - ⟨rfl, rfl⟩
        refine ⟨.refl, fun first start cells ht ⟨c, hc, hend⟩ => ⟨cells, ht.finish ?_ hc hend⟩⟩
        have htail := ht.grows.createsBeside.ne_nil tail ht.last
        simpa [Handle.isNil, htail] using hstop
    · rintro heap r heap' - ⟨result, mid, -, hcopiesPairlist, hrestoresRoots, hlast⟩
      refine ⟨hcopiesPairlist.sameRoots.trans hrestoresRoots.sameRoots, fun start hsrc hm hindex hpair => ?_⟩
      obtain ⟨cells, c, ht, hc, hend⟩ := hcopiesPairlist.begins rfl start hsrc hm hindex hpair
      exact hlast heap start cells ht ⟨c, hc, hend⟩
  · rintro heap r heap' - ⟨mid, -, ⟨index, _, hopened, ⟨rfl, rfl⟩, _, _, -, rfl, ha, hlast⟩, rfl⟩ hpair
    exact .of_scope .pushed ⟨rfl, rfl, rfl⟩ hopened ha fun start hsrc hm =>
      hlast start hsrc hm (by simp) hpair

end HostM

end ManagedHeap
