import ManagedHeap.Proofs.QuietEnvironments
import ManagedHeap.Proofs.CreatedObjects

/-!
# A copy that grows

While a copy is built, its first object reaches everything that was made so far, and no object
refers back to the first one. A part that is finished is attached to it with one write.
-/

namespace ManagedHeap

/-- The starting points are alive, and are symbols of the table or pinned by the roots and the
first protection slots. -/
structure Heap.StartsRooted (heap : Heap) (depth : Nat) (start : Handle → Prop) : Prop where
  rooted : ∀ p, start p → heap.PinsBelow depth p ∨ p ∈ heap.symbols.handles
  live : ∀ p, start p → ∃ c, heap.arena.get? p = some c

/-- The roots and the first protection slots are the same. -/
structure Heap.SameRoots (heap heap' : Heap) (depth : Nat) : Prop where
  roots : heap'.roots = heap.roots
  symbols : heap'.symbols = heap.symbols
  slots : heap'.protect.slots.toList.take depth = heap.protect.slots.toList.take depth

def Heap.pushed (heap : Heap) (h : Handle) : Heap :=
  { heap with protect := { heap.protect with slots := heap.protect.slots.push h } }

def Heap.unwound (heap : Heap) (depth : Nat) : Heap :=
  { heap with protect := heap.protect.truncate depth }

/-- What is to be copied, from a heap as it is between two operations. -/
structure Heap.Source (heap : Heap) (start : Handle → Prop) (h : Handle) : Prop where
  sound : heap.Sound
  copyable : heap.Copyable
  live : ∀ p, start p → ∃ c, heap.arena.get? p = some c
  reached : heap.ReachedFrom start h

/-- The objects in `cells` were made for a copy of `h` that starts at `r`. -/
structure Heap.Grows (heap heap' : Heap) (start : Handle → Prop) (h r : Handle)
    (cells : Finset Handle) : Prop where
  createsBeside : heap.CreatesBeside heap' (· = h) start cells
  reached : ∀ t ∈ cells, heap'.ReachedFrom (· = r) t
  unheld : ∀ t ∈ cells, r ∉ heap'.slotsAt t
  root : r ∈ cells ∨ cells = ∅ ∧ r = h

/-- The copy that starts at `r` is complete. -/
structure Heap.CopyOf (heap heap' : Heap) (part : Part) (start : Handle → Prop) (h r : Handle)
    (cells : Finset Handle) : Prop extends heap.Grows heap' start h r cells where
  mirrors : heap.Mirrors heap' (· ∈ cells) part h r

/-- The copy that starts at `r` is complete but for the attribute and the class bits of `r`. -/
structure Heap.BareCopyOf (heap heap' : Heap) (start : Handle → Prop) (h r : Handle)
    (cells : Finset Handle) : Prop extends heap.CopyOf heap' .body start h r cells where
  bare : ∃ kind payload, heap'.Shows r kind payload

/-- What is rooted is the same before and after. -/
structure Heap.RestoresRoots (heap heap' : Heap) : Prop where
  roots : heap'.roots = heap.roots
  symbols : heap'.symbols = heap.symbols
  slots : heap'.protect.slots = heap.protect.slots

/-- What a computation that answers a copy makes of a heap. -/
structure Heap.AnswersCopy (heap : Heap) (h r : Handle) (heap' : Heap) : Prop
    extends heap.RestoresRoots heap' where
  live : ∃ c, heap.arena.get? h = some c
  itself : ∀ c, heap.arena.get? h = some c → c.isShared = true → r = h ∧ heap'.arena = heap.arena
  copyOf : ∀ start, heap.Source start h → heap.StartsRooted heap.protect.depth start →
    ∃ cells, heap.CopyOf heap' .object start h r cells

/-- What a computation that answers a bare copy makes of a heap. -/
structure Heap.AnswersBareCopy (heap : Heap) (h r : Handle) (heap' : Heap) : Prop
    extends heap.RestoresRoots heap' where
  bareCopyOf : ∀ start, heap.Source start h → heap.StartsRooted heap.protect.depth start →
    ∃ cells, heap.BareCopyOf heap' start h r cells

namespace Heap

variable {heap mid last heap' : Heap} {start start' made : Handle → Prop} {part : Part}
  {h r k v t x y : Handle} {cells more : Finset Handle} {depth : Nat} {f : Cell → Cell} {c : Cell}
  {kind : Kind} {payload : Payload} {news : List Handle}

theorem ReachedFrom.start_live (hr : heap.ReachedFrom (· = r) k) :
    ∃ c, heap.arena.get? r = some c := by
  induction hr with
  | start hs hc => exact ⟨_, hs ▸ hc⟩
  | edge _ _ _ _ _ ih => exact ih

theorem ReachedFrom.of_nil (hs : heap.Sound) (hr : heap.ReachedFrom (· = .nil) k) : k = .nil := by
  induction hr with
  | start hnil _ => exact hnil
  | edge _ hc hperm _ _ ih => exact absurd ih (hs.ne_nil hc hperm)

namespace SameRoots

theorem refl : heap.SameRoots heap depth := ⟨rfl, rfl, rfl⟩

theorem trans (hfirst : heap.SameRoots mid depth) (hlast : mid.SameRoots heap' depth) :
    heap.SameRoots heap' depth :=
  ⟨hlast.roots.trans hfirst.roots, hlast.symbols.trans hfirst.symbols,
    hlast.slots.trans hfirst.slots⟩

theorem pushed : heap.SameRoots (heap.pushed h) heap.protect.depth := by
  refine ⟨rfl, rfl, ?_⟩
  change (heap.protect.slots.push h).toList.take heap.protect.slots.size = _
  rw [Array.toList_push, List.take_append_of_le_length (by simp)]
  rfl

theorem unwound (ha : heap.SameRoots mid heap.protect.depth) :
    heap.RestoresRoots (mid.unwound heap.protect.depth) := by
  refine ⟨ha.roots, ha.symbols, ?_⟩
  change mid.protect.slots.shrink heap.protect.depth = _
  apply Array.toList_inj.mp
  rw [Array.toList_shrink, ha.slots]
  exact List.take_of_length_le (Nat.le_refl _)

end SameRoots

namespace RestoresRoots

theorem refl : heap.RestoresRoots heap := ⟨rfl, rfl, rfl⟩

theorem trans (hfirst : heap.RestoresRoots mid) (hlast : mid.RestoresRoots heap') : heap.RestoresRoots heap' :=
  ⟨hlast.roots.trans hfirst.roots, hlast.symbols.trans hfirst.symbols,
    hlast.slots.trans hfirst.slots⟩

theorem of_control (hcontrol : heap'.control = heap.control) : heap.RestoresRoots heap' :=
  ⟨congrArg Control.roots hcontrol, congrArg Control.symbols hcontrol,
    congrArg (fun c : Control => c.protect.slots) hcontrol⟩

theorem sameRoots (hr : heap.RestoresRoots heap') : heap.SameRoots heap' depth :=
  ⟨hr.roots, hr.symbols, by rw [hr.slots]⟩

end RestoresRoots

theorem Provides.restoresRoots {length : Nat} {kept : List Handle}
    (hp : heap.Provides heap' kind length kept t) : heap.RestoresRoots heap' :=
  ⟨hp.roots, hp.symbols, hp.slots⟩

namespace StartsRooted

theorem pinned (hm : heap.StartsRooted depth start) (p : Handle) (hp : start p) : heap.Rooted p :=
  (hm.rooted p hp).imp_left PinsBelow.pins

theorem carried (hm : heap.StartsRooted depth start) (hr : heap.SameRoots heap' depth)
    (hcarries : heap.Carries heap' start) : heap'.StartsRooted depth start := by
  refine ⟨fun p hp => ?_, fun p hp => ?_⟩
  · unfold Heap.PinsBelow
    rw [hr.roots, hr.slots, hr.symbols]
    exact hm.rooted p hp
  · obtain ⟨c, hc⟩ := hm.live p hp
    obtain ⟨d, hd, -⟩ := hcarries p c (.start hp hc) hc
    exact ⟨d, hd⟩

theorem deepen (hm : heap.StartsRooted depth start) (hr : r ∈ heap.protect.slots.toList)
    (hlive : ∃ c, heap.arena.get? r = some c) :
    heap.StartsRooted heap.protect.depth fun p => start p ∨ p = r := by
  refine ⟨?_, ?_⟩
  · rintro p (hp | rfl)
    · exact (hm.rooted p hp).imp_left fun hpin => hpin.pins.below
    · exact .inl (Pins.below (.inr hr))
  · rintro p (hp | rfl)
    · exact hm.live p hp
    · exact hlive

theorem full (hm : heap.StartsRooted depth start) : heap.StartsRooted heap.protect.depth start :=
  ⟨fun p hp => (hm.rooted p hp).imp_left fun hpin => hpin.pins.below, hm.live⟩

end StartsRooted

namespace Source

theorem within (hsrc : heap.Source start h) (hk : heap.ReachedFrom (· = h) k) :
    heap.ReachedFrom start k :=
  hk.trans fun _ _ heq _ => heq ▸ hsrc.reached

theorem read (hsrc : heap.Source start h) (hw : heap.CreatesBeside mid (· = h) start cells)
    (hk : heap.ReachedFrom (· = h) k) (hc : heap.arena.get? k = some c) (hcopied : c.isShared = false) :
    ∃ d, mid.arena.get? k = some d ∧ d.content = c.content ∧ d.payload = c.payload := by
  obtain ⟨d, hd, hlasts⟩ := hw.carries k c (hsrc.within hk) hc
  have hplain := (hsrc.sound.proper hc).plain hcopied
  have hcontent := hlasts.content hplain
  exact ⟨d, hd, hcontent, Cell.payload_of_plain hcontent hplain⟩

theorem found (hsrc : heap.Source start h) (hw : heap.CreatesBeside mid (· = h) start cells)
    (hk : heap.ReachedFrom (· = h) k) {d : Cell} (hd : mid.arena.get? k = some d)
    (hcopied : d.isShared = false) : ∃ c, heap.arena.get? k = some c ∧ c.isShared = false ∧
      d.content = c.content ∧ d.payload = c.payload := by
  obtain ⟨c, hc⟩ := hk.live
  obtain ⟨e, he, hlasts⟩ := hw.carries k c (hsrc.within hk) hc
  rw [hd, Option.some.injEq] at he
  subst he
  have hshared : c.isShared = false := hlasts.isShared.symm.trans hcopied
  obtain ⟨e, he, hsame, hp⟩ := hsrc.read hw hk hc hshared
  rw [hd, Option.some.injEq] at he
  exact ⟨c, hc, hshared, he ▸ hsame, he ▸ hp⟩

theorem slot (hsrc : heap.Source start h) (hk : heap.ReachedFrom (· = h) k)
    (hc : heap.arena.get? k = some c) (hcopied : c.isShared = false)
    (hx : x ∈ c.payload.children true) : heap.ReachedFrom (· = h) x :=
  ReachedFrom.slot hsrc.sound hsrc.copyable hk hc hcopied (Cell.mem_edges_of_children hx)

theorem copyable_after (hsrc : heap.Source start h) (hw : heap.CreatesBeside mid (· = h) start cells) :
    mid.Copyable := by
  obtain ⟨es, hlives, -⟩ := hw.claims
  exact Copyable.lives hsrc.copyable hlives

theorem back (hsrc : heap.Source start h) (hw : heap.CreatesBeside mid (· = h) start cells)
    (hk : heap.ReachedFrom (· = h) k) (hx : mid.ReachedFrom (· = k) x) :
    heap.ReachedFrom (· = h) x := by
  have hcarries : heap.Carries mid (· = k) :=
    hw.carries.of_reached fun j c hj _ => hj ▸ hsrc.within hk
  have hback := hcarries.reached_back hsrc.sound (fun j hj => hj ▸ hk.live) hx
  exact hback.trans fun j c hj _ => hj ▸ hk

theorem sameObjectsAside (hsrc : heap.Source start h) (hl : heap.SameObjectsAside mid) (hmid : mid.Sound) :
    mid.Source start h :=
  ⟨hmid, Copyable.lives hsrc.copyable hl.lives, fun p hp => by rw [hl.get?]; exact hsrc.live p hp,
    hl.reached.mpr hsrc.reached⟩

theorem later (hsrc : heap.Source start h) (hw : heap.CreatesBeside mid (· = h) start cells)
    (hmid : mid.Sound) (hlive : ∀ p, start' p → ∃ c, mid.arena.get? p = some c)
    (hstart : ∀ p, start p → start' p) (hk : heap.ReachedFrom (· = h) k) : mid.Source start' k :=
  ⟨hmid, hsrc.copyable_after hw, hlive, (hw.carries.reached (hsrc.within hk)).mono hstart⟩

end Source

theorem CreatesBeside.keepsMade {source : Handle → Prop} (hw : heap.CreatesBeside mid source start cells)
    (hmid : mid.Sound) (hcarries : mid.Carries heap' start')
    (hcells : ∀ t ∈ cells, mid.ReachedFrom start' t) : mid.KeepsMade heap' (· ∈ cells) := by
  intro t d ht hd
  obtain ⟨e, he, -, hcopied, -⟩ := hw.made t ht
  rw [hd, Option.some.injEq] at he
  subst he
  obtain ⟨e, he, hlasts⟩ := hcarries t d (hcells t ht) hd
  exact ⟨e, he, hlasts.content ((hmid.proper hd).plain hcopied)⟩

theorem CreatesBeside.copied {source : Handle → Prop} (hw : heap.CreatesBeside mid source start cells) (t : Handle)
    (d : Cell) (ht : t ∈ cells) (hd : mid.arena.get? t = some d) : d.isShared = false := by
  obtain ⟨e, he, -, hcopied, -⟩ := hw.made t ht
  rw [hd, Option.some.injEq] at he
  exact he ▸ hcopied

namespace KeepsMade

theorem trans (hfirst : heap.KeepsMade mid made) (hlast : mid.KeepsMade heap' made) :
    heap.KeepsMade heap' made := by
  intro t c ht hc
  obtain ⟨d, hd, hsame⟩ := hfirst t c ht hc
  obtain ⟨e, he, hsame'⟩ := hlast t d ht hd
  exact ⟨e, he, hsame'.trans hsame⟩

theorem mono {made' : Handle → Prop} (hs : heap.KeepsMade heap' made) (hsub : ∀ t, made' t → made t) :
    heap.KeepsMade heap' made' := fun t c ht => hs t c (hsub t ht)

theorem shows (hs : heap.KeepsMade heap' made) (ht : made t) (hshows : heap.Shows t kind payload) :
    heap'.Shows t kind payload := by
  obtain ⟨c, hc, hsame⟩ := hshows
  obtain ⟨d, hd, hsame'⟩ := hs t c ht hc
  exact ⟨d, hd, hsame'.trans hsame⟩

end KeepsMade

theorem Refers.keepsMade (hr : heap.Refers heap' t f news) (ht : ¬ made t) :
    heap.KeepsMade heap' made :=
  fun _ _ hs hc => hr.other (fun hst => ht (hst ▸ hs)) hc

theorem Refers.slots (hr : heap.Refers heap' t f news) (hk : ∃ c, heap.arena.get? k = some c)
    (hx : x ≠ .nil) (hnews : x ∉ news) (hout : x ∉ heap.slotsAt k) : x ∉ heap'.slotsAt k := by
  obtain ⟨c, hc⟩ := hk
  obtain ⟨d, hd, htakes⟩ := hr.takes_any hc
  rw [slotsAt_of_content hc rfl] at hout
  rw [slotsAt_of_content hd rfl, htakes.mem hx]
  rintro (hold | hnew)
  · exact hout hold
  · split at hnew
    · exact hnews hnew
    · exact List.not_mem_nil hnew

theorem Refers.reaches {d : Cell} (hr : heap.Refers heap' t f [v]) (hs : heap.Sound)
    (hd : heap.arena.get? t = some d) (hperm : d.flags.permanent = false)
    (ht : heap'.ReachedFrom start t) (hk : k ≠ .nil) (hreached : heap.ReachedFrom (· = v) k) :
    heap'.ReachedFrom start k := by
  have hv : v ≠ .nil := by
    rintro rfl
    exact hk (ReachedFrom.of_nil hs hreached)
  have hafter := hr.reached hs hk hreached
  obtain ⟨e, he⟩ := hafter.start_live
  obtain ⟨d', hd', htakes⟩ := hr.takes_any hd
  refine hafter.trans fun p c hp hc => ?_
  obtain rfl : p = v := hp
  exact .edge ht hd' (htakes.permanent.trans hperm) ((htakes.mem hv).mpr (.inr (by simp))) he

namespace Grows

theorem live (hg : heap.Grows heap' start h r cells) (ht : t ∈ cells) :
    ∃ d, heap'.arena.get? t = some d := (hg.reached t ht).live

theorem apart (hg : heap.Grows heap' start h r cells) (hsrc : heap.Source start h) (ht : t ∈ cells) :
    ¬ heap.ReachedFrom (· = h) t := fun hr => hg.createsBeside.fresh t ht (hsrc.within hr)

end Grows

theorem Grows.around {first : Heap} (hbefore : first.SameObjectsAside heap)
    (hg : heap.Grows mid start h r cells) (hafter : mid.SameObjectsAside last) :
    first.Grows last start h r cells :=
  ⟨hg.createsBeside.around hbefore hafter, fun t ht => hafter.reached.mpr (hg.reached t ht),
    fun t ht => by rw [hafter.slotsAt]; exact hg.unheld t ht, hg.root⟩

theorem Mirrors.around {first : Heap} (hbefore : first.SameObjectsAside heap)
    (hm : heap.Mirrors mid made part h r) (hafter : mid.SameObjectsAside last) :
    first.Mirrors last made part h r := by
  have hsource : ∀ {k c}, heap.arena.get? k = some c → first.arena.get? k = some c :=
    fun hc => (hbefore.get? _).symm.trans hc
  have hcopy : ∀ {k c}, mid.arena.get? k = some c → last.arena.get? k = some c :=
    fun hc => (hafter.get? _).trans hc
  induction hm with
  | shared hc hshared => exact .shared (hsource hc) hshared
  | object hc hcopied hd hobject hs4 _ _ ihattrib ihbody =>
    exact .object (hsource hc) hcopied (hcopy hd) hobject hs4 ihattrib ihbody
  | flat hc hflat hcopied hmade hd hkind hp =>
    exact .flat (hsource hc) hflat hcopied hmade (hcopy hd) hkind hp
  | vector hc hkind hp hmade hd hdkind hdp hsize _ ih =>
    exact .vector (hsource hc) hkind hp hmade (hcopy hd) hdkind hdp hsize ih
  | pair hc hpair hp hmade hd hkind hdp _ _ ihcar ihcdr =>
    exact .pair (hsource hc) hpair hp hmade (hcopy hd) hkind hdp ihcar ihcdr
  | cell hc hpair hd hattrib hobject hs4 _ ih =>
    exact .cell (hsource hc) hpair (hcopy hd) hattrib hobject hs4 ih
  | last hc hlast _ ih => exact .last (hsource hc) hlast ih

theorem CopyOf.around {first : Heap} (hbefore : first.SameObjectsAside heap)
    (hy : heap.CopyOf mid part start h r cells) (hafter : mid.SameObjectsAside last) :
    first.CopyOf last part start h r cells :=
  ⟨hy.toGrows.around hbefore hafter, hy.mirrors.around hbefore hafter⟩

theorem BareCopyOf.around {first : Heap} (hbefore : first.SameObjectsAside heap)
    (he : heap.BareCopyOf mid start h r cells) (hafter : mid.SameObjectsAside last) :
    first.BareCopyOf last start h r cells := by
  obtain ⟨kind, payload, d, hd, hsame⟩ := he.bare
  exact ⟨he.toCopyOf.around hbefore hafter, kind, payload, d, (hafter.get? r).trans hd, hsame⟩

theorem StartsRooted.sameObjectsAside (hm : heap.StartsRooted depth start) (ha : heap.SameRoots mid depth)
    (hl : heap.SameObjectsAside mid) : mid.StartsRooted depth start :=
  hm.carried ha fun k c _ hc => ⟨c, (hl.get? k).trans hc, .refl c⟩

theorem AnswersBareCopy.of_scope {opened : Heap} (ha : heap.SameRoots opened heap.protect.depth)
    (hopened : heap.SameObjectsAside opened) (hsound : opened.Sound)
    (hlast : opened.SameRoots mid heap.protect.depth)
    (hforms : ∀ start, opened.Source start h → opened.StartsRooted heap.protect.depth start →
      ∃ cells, opened.BareCopyOf mid start h r cells) :
    heap.AnswersBareCopy h r (mid.unwound heap.protect.depth) := by
  refine ⟨(ha.trans hlast).unwound, fun start hsrc hm => ?_⟩
  obtain ⟨cells, he⟩ := hforms start (hsrc.sameObjectsAside hopened hsound) (hm.sameObjectsAside ha hopened)
  exact ⟨cells, he.around hopened ⟨rfl, rfl, rfl⟩⟩

theorem Grows.written (hg : heap.Grows mid start h r cells) (hsrc : heap.Source start h)
    (hmid : mid.Sound) (hr : mid.Refers heap' t f news) (ht : t ∈ cells)
    (hnews : ∀ k ∈ news, k = .nil ∨ heap.ReachedFrom (· = h) k) :
    heap.Grows heap' start h r cells := by
  have hroot : r ∈ cells := hg.root.resolve_right fun hno => by simp [hno.1] at ht
  refine ⟨hg.createsBeside.written hr ht fun k hk => (hnews k hk).imp_right .inr, fun s hs =>
    hr.reached hmid (hg.createsBeside.ne_nil s hs) (hg.reached s hs), fun s hs => ?_, hg.root⟩
  refine hr.slots (hg.live hs) (hg.createsBeside.ne_nil r hroot) (fun hmem => ?_) (hg.unheld s hs)
  exact (hnews r hmem).elim (hg.createsBeside.ne_nil r hroot) (hg.apart hsrc hroot)

theorem Grows.within (hg : heap.Grows mid start k r cells) (hk : heap.ReachedFrom (· = h) k)
    (hr : r ∈ cells) : heap.Grows mid start h r cells :=
  ⟨hg.createsBeside.mono (fun _ hx => hx.trans fun _ _ hj _ => hj ▸ hk) fun _ => id, hg.reached, hg.unheld,
    .inl hr⟩

section Provides

variable {length : Nat} {kept : List Handle}

theorem Provides.grows (hp : heap.Provides mid kind length kept t) (hnil : t ≠ .nil)
    (hcopied : ∀ payload, (Cell.blank kind payload).isShared = false)
    (hstart : ∀ p, start p → heap.Rooted p ∨ p ∈ kept) : heap.Grows mid start h t {t} := by
  have hw : heap.CreatesBeside mid (· = h) start {t} := hp.createsBeside hnil hcopied hstart
  refine ⟨hw, fun s hs => ?_, fun s hs hmem => ?_, .inl (Finset.mem_singleton_self t)⟩
  · obtain ⟨d, hd, -⟩ := hw.made s hs
    exact .start (Finset.mem_singleton.mp hs) hd
  · exact hnil (hp.slots_nil hcopied t (Finset.mem_singleton.mp hs ▸ hmem))

theorem Grows.headed (hg : heap.Grows mid start k v more) (hsrc : heap.Source start k)
    (hstart : ∀ p, start p → mid.Rooted p) (hp : mid.Provides last kind length [v] t)
    (hlast : last.Sound) (hcopied : ∀ payload, (Cell.blank kind payload).isShared = false)
    (hmid : mid.Sound) (hr : last.Refers heap' t f [v]) :
    heap.Grows heap' start k t (more ∪ {t}) ∧ t ∉ more ∧ mid.KeepsMade heap' (· ∈ more) := by
  obtain ⟨payload, -, hblank⟩ := hp.blank
  obtain ⟨d, hd, hseen⟩ := graph_eq_some.mp hblank
  have hperm : d.flags.permanent = false :=
    (congrArg (fun c : Cell => c.header.flags.permanent) hseen :)
  have hnil : t ≠ .nil := hlast.ne_nil hd hperm
  have hpinned : ∀ p, start p ∨ p = v → mid.Rooted p ∨ p ∈ [v] := fun p hp =>
    hp.imp (hstart p) fun hv => by simp [hv]
  have hnew : mid.CreatesBeside last (fun _ => False) (fun p => start p ∨ p = v) {t} :=
    hp.createsBeside hnil hcopied hpinned
  have hkept : ∀ s ∈ more, mid.ReachedFrom (fun p => start p ∨ p = v) s :=
    fun s hs => (hg.reached s hs).mono fun p hp => .inr hp
  have hw : heap.CreatesBeside last (· = k) start (more ∪ {t}) :=
    hg.createsBeside.trans hnew (fun p hp => .inl hp) hkept (fun _ hx => hsrc.within hx)
      fun _ hx => hx.started.elim fun _ => False.elim
  have hresult : v ∈ more ∨ heap.ReachedFrom (· = k) v := by
    obtain ⟨c, hc⟩ := hsrc.reached.live
    refine hg.root.imp_right ?_
    rintro ⟨-, rfl⟩
    exact .start rfl hc
  -- the new object is none that was there
  have hfresh : ∀ y, y ∈ more ∨ heap.ReachedFrom (· = k) y → y ≠ t := by
    rintro y (hmore | hreached) rfl
    · exact hnew.fresh y (Finset.mem_singleton_self y) (hkept y hmore)
    · exact hnew.fresh y (Finset.mem_singleton_self y)
        ((hg.createsBeside.carries.reached (hsrc.within hreached)).mono fun p hp => .inl hp)
  have ht : t ∈ more ∪ {t} := Finset.mem_union_right more (Finset.mem_singleton_self t)
  have hself : heap'.ReachedFrom (· = t) t := by
    obtain ⟨e, he, -⟩ := hr.self hd
    exact .start rfl he
  have hapart : t ∉ more := fun hmore => hfresh t (.inl hmore) rfl
  refine ⟨⟨hw.written hr ht fun y hy => ?_, fun s hs => ?_, fun s hs => ?_, .inl ht⟩, hapart,
    (hg.createsBeside.keepsMade hmid hnew.carries hkept).trans (hr.keepsMade hapart)⟩
  · exact .inr (List.mem_singleton.mp hy ▸ hresult.imp_left (Finset.mem_union_left {t}))
  · rcases Finset.mem_union.mp hs with hmore | hs
    · have hcarries : mid.Carries last (· = v) :=
        hnew.carries.of_reached fun p c hp hc => .start (.inr hp) hc
      exact hr.reaches hlast hd hperm hself (hg.createsBeside.ne_nil s hmore)
        (hcarries.reached (hg.reached s hmore))
    · exact Finset.mem_singleton.mp hs ▸ hself
  · have hlive : ∃ c, last.arena.get? s = some c := by
      obtain ⟨e, he, -⟩ := hw.made s hs
      exact ⟨e, he⟩
    refine hr.slots hlive hnil (fun hv => hfresh v hresult (List.mem_singleton.mp hv).symm) ?_
    rcases Finset.mem_union.mp hs with hmore | hs
    · obtain ⟨c, hc⟩ := (hkept s hmore).live
      obtain ⟨e, he, hlasts, -⟩ := hnew.keeps s c (hkept s hmore) hc
      rw [slotsAt_of_lasts hc he hlasts]
      intro hmem
      rcases hg.createsBeside.within s hmore t hmem with hno | hother
      · exact hnil hno
      · exact hfresh t hother rfl
    · exact fun hmem => hnil (hp.slots_nil hcopied t (Finset.mem_singleton.mp hs ▸ hmem))

end Provides

/-- A part of a copy, made while the copy so far was pinned by its first object. -/
structure PartOfCopy (heap mid last : Heap) (start start' : Handle → Prop) (h r k v : Handle)
    (cells more : Finset Handle) : Prop where
  source : heap.Source start h
  first : heap.Grows mid start h r cells
  part : mid.Grows last start' k v more
  sound : mid.Sound
  sound' : last.Sound
  starts : ∀ p, start p ∨ p = r → start' p
  within : heap.ReachedFrom (· = h) k
  root : r ∈ cells

namespace PartOfCopy

variable (hj : heap.PartOfCopy mid last start start' h r k v cells more)

include hj

theorem kept (ht : t ∈ cells) : mid.ReachedFrom start' t :=
  (hj.first.reached t ht).mono fun p hp => hj.starts p (.inr hp)

theorem disjoint : Disjoint cells more :=
  Finset.disjoint_left.mpr fun t ht hmore => hj.part.createsBeside.fresh t hmore (hj.kept ht)

theorem createsBeside : heap.CreatesBeside last (· = h) start (cells ∪ more) :=
  hj.first.createsBeside.trans hj.part.createsBeside (fun p hp => hj.starts p (.inl hp))
    (fun _ ht => hj.kept ht) (fun _ hk => hj.source.within hk)
    fun _ hx => .inr (hj.source.back hj.first.createsBeside hj.within hx)

theorem keepsMade : mid.KeepsMade last (· ∈ cells) :=
  hj.first.createsBeside.keepsMade hj.sound hj.part.createsBeside.carries fun _ ht => hj.kept ht

theorem result : v ∈ more ∨ heap.ReachedFrom (· = h) v := by
  refine hj.part.root.imp_right fun hv => ?_
  exact hv.2 ▸ hj.within

theorem result_not_mem : v ∉ cells := by
  intro hv
  rcases hj.result with hmore | hreached
  · exact Finset.disjoint_left.mp hj.disjoint hv hmore
  · exact hj.first.apart hj.source hv hreached

theorem unheld (ht : t ∈ cells ∪ more) : r ∉ last.slotsAt t := by
  intro hmem
  rcases Finset.mem_union.mp ht with hcell | hmore
  · obtain ⟨c, hc⟩ := hj.first.live hcell
    obtain ⟨d, hd, hsame⟩ := hj.keepsMade t c hcell hc
    rw [slotsAt_of_content hd hsame, ← slotsAt_of_content hc rfl] at hmem
    exact hj.first.unheld t hcell hmem
  · rcases hj.part.createsBeside.within t hmore r hmem with hnil | hin | hreached
    · exact hj.first.createsBeside.ne_nil r hj.root hnil
    · exact Finset.disjoint_left.mp hj.disjoint hj.root hin
    · exact hj.first.apart hj.source hj.root
        (hj.source.back hj.first.createsBeside hj.within hreached)

theorem attach (hr : last.Refers heap' t f [v]) (ht : t ∈ cells) :
    heap.Grows heap' start h r (cells ∪ more) := by
  have hslot : v = .nil ∨ v ∈ cells ∪ more ∨ heap.ReachedFrom (· = h) v :=
    .inr (hj.result.imp_left (Finset.mem_union_right cells))
  have hold : ∀ s ∈ cells, heap'.ReachedFrom (· = r) s := by
    intro s hs
    have hcarries : mid.Carries last (· = r) := hj.part.createsBeside.carries.of_reached
      fun p c hp hc => .start (hj.starts p (.inr hp)) hc
    obtain ⟨c, hc⟩ := hj.first.live hs
    obtain ⟨d, hd, -⟩ := hj.keepsMade s c hs hc
    exact hr.reached hj.sound' (hj.first.createsBeside.ne_nil s hs)
      (hcarries.reached (hj.first.reached s hs))
  refine ⟨hj.createsBeside.written hr (Finset.mem_union_left more ht) fun k hk => ?_,
    fun s hs => ?_, fun s hs => ?_, .inl (Finset.mem_union_left more hj.root)⟩
  · exact List.mem_singleton.mp hk ▸ hslot
  · rcases Finset.mem_union.mp hs with hcell | hmore
    · exact hold s hcell
    · obtain ⟨d, hd, hperm, -⟩ := hj.createsBeside.made t (Finset.mem_union_left more ht)
      exact hr.reaches hj.sound' hd hperm (hold t ht) (hj.part.createsBeside.ne_nil s hmore)
        (hj.part.reached s hmore)
  · have hlive : ∃ c, last.arena.get? s = some c := by
      obtain ⟨d, hd, -⟩ := hj.createsBeside.made s hs
      exact ⟨d, hd⟩
    refine hr.slots hlive (hj.first.createsBeside.ne_nil r hj.root) ?_ (hj.unheld hs)
    intro hmem
    exact hj.result_not_mem (List.mem_singleton.mp hmem ▸ hj.root)

theorem keepsMade_written (hr : last.Refers heap' t f news) :
    mid.KeepsMade heap' (· ∈ cells.erase t) :=
  (hj.keepsMade.mono fun _ hs => Finset.mem_of_mem_erase hs).trans
    (hr.keepsMade (Finset.notMem_erase t cells))

theorem mirrors (hm : mid.Mirrors last made part x y) (hmade : ∀ s, made s → s ∈ more)
    (hx : heap.ReachedFrom (· = h) x) (hr : last.Refers heap' t f news) (ht : t ∈ cells) :
    heap.Mirrors heap' made part x y := by
  have hfirst : heap.Mirrors last made part x y := hm.source hj.source.sound
    hj.source.copyable hj.first.createsBeside.carries (hj.source.within hx)
  exact hfirst.sustained hj.sound'
    (hr.keepsMade fun htm => Finset.disjoint_left.mp hj.disjoint ht (hmade t htm))
    fun s d hs => hj.part.createsBeside.copied s d (hmade s hs)

end PartOfCopy

end Heap

end ManagedHeap
