import ManagedHeap.Proofs.PairlistCopies

/-!
# Structural copies are made beside what is there

Each part of a copy is a structural copy of a part of the original and is made of new objects
alone: data, vectors of strings and closures at once, pairlists and generic vectors piece by
piece, and the attribute at last, while the copy is protected.
-/

namespace ManagedHeap

/-- The elements of a vector at the other places are copied, and at these `places` there is
nothing yet. -/
structure Heap.ElementsCopied (heap mid : Heap) (start : Handle → Prop) (h copy : Handle)
    (places : List Nat) (cells : Finset Handle) : Prop where
  source : heap.Source start h
  startsRooted : heap.StartsRooted heap.protect.depth start
  sameRoots : heap.SameRoots mid heap.protect.depth
  sound : mid.Sound
  grows : heap.Grows mid start h copy cells
  pinned : copy ∈ mid.protect.slots.toList
  root : copy ∈ cells
  elements : ∃ (c : Cell) (es fs : Array Handle), heap.arena.get? h = some c ∧
    (c.kind = .list ∨ c.kind = .expression) ∧ c.payload = .handles es ∧
    mid.Shows copy c.kind (.handles fs) ∧ fs.size = es.size ∧
    (∀ i ∈ places, i < es.size → fs[i]? = some .nil) ∧
    ∀ i e f, i ∉ places → es[i]? = some e → fs[i]? = some f →
      heap.Mirrors mid (· ∈ cells.erase copy) .object e f

namespace Heap

variable {heap mid last heap' : Heap} {start : Handle → Prop} {h r k copy element : Handle}
  {cells more : Finset Handle} {kind : Kind} {length : Nat} {kept : List Handle} {c : Cell}

theorem isShared_blank (hcopied : c.isShared = false) (payload : Payload) :
    (Cell.blank c.kind payload).isShared = false := by
  have huncached : (Cell.blank c.kind payload).flags.cached = false := rfl
  have hkind : (Cell.blank c.kind payload).kind = c.kind := rfl
  unfold Cell.isShared at hcopied ⊢
  rw [hkind, huncached]
  split at hcopied <;> simp_all

theorem Provides.ne_nil (hp : heap.Provides heap' kind length kept r) (hs : heap'.Sound) :
    r ≠ .nil := by
  obtain ⟨payload, -, hblank⟩ := hp.blank
  obtain ⟨d, hd, hseen⟩ := graph_eq_some.mp hblank
  exact hs.ne_nil hd (congrArg (fun c : Cell => c.header.flags.permanent) hseen :)

theorem Repeats.forms (hr : heap.Repeats h r heap')
    (hflat : ∀ c, heap.arena.get? h = some c → c.kind.isFlat = true ∧ c.isShared = false) :
    heap.AnswersBareCopy h r heap' := by
  obtain ⟨c, kept, hc, hplain, hkept, hfills⟩ := hr
  have hshows := hfills.shows
  obtain ⟨mid, hmid, hprovides, hcontrol, hcounts, hlives⟩ := hfills.made
  obtain ⟨hkind, hcopied⟩ := hflat c hc
  refine ⟨hprovides.restoresRoots.trans (.of_control hcontrol), fun start hsrc hm => ?_⟩
  have hslot : ∀ {k}, k ∈ c.payload.children true → heap.ReachedFrom (· = h) k :=
    hsrc.slot (.start rfl hc) hc hcopied
  have hfirst : heap.Grows mid start h r {r} := hprovides.grows (hprovides.ne_nil hmid)
    (isShared_blank hcopied) fun p hp => .inl (hm.pinned p hp)
  have hrefers : mid.Refers heap' r (fun d => { d with payload := c.payload })
      (c.payload.children true) := by
    refine .of_counts ⟨hcontrol, rfl⟩ (hlives rfl) (Cell.visible_payload _) hcounts fun d hd => ?_
    obtain ⟨blank, hblank, hgraph⟩ := hprovides.blank
    obtain ⟨e, he, hseen⟩ := graph_eq_some.mp hgraph
    rw [hd, Option.some.injEq] at he
    subst he
    have hempty : d.content = (Cell.blank c.kind blank).content := by
      rw [← Cell.content_seen d, hseen]
    refine Cell.takes_payload hempty fun k hk => ?_
    · have hnone : k ∉ blank.children true := fun hmem =>
        hk (Payload.children_blank hblank (isShared_blank hcopied blank) hmem)
      rw [List.count_eq_zero.mpr hnone, Nat.zero_add]
  have hroot := Finset.mem_singleton_self r
  refine ⟨{r}, ⟨hfirst.written hsrc hmid hrefers hroot fun k hk => .inr (hslot hk), ?_⟩, _, _, hshows⟩
  obtain ⟨d, hd, hdkind, hdp⟩ := hshows.get? hplain
  exact .flat hc hkind hcopied hroot hd hdkind hdp

theorem Provides.elementsCopied (hp : heap.Provides mid c.kind c.payload.length [h] copy)
    (hsrc : heap.Source start h) (hm : heap.StartsRooted heap.protect.depth start)
    (hc : heap.arena.get? h = some c) (hkind : c.kind = .list ∨ c.kind = .expression)
    (hmid : mid.Sound) (hopened : (mid.pushed copy).Sound) :
    heap.ElementsCopied (mid.pushed copy) start h copy (List.range c.payload.length) {copy} := by
  have hcopied := Cell.isShared_of_vector hkind
  obtain ⟨es, hes⟩ : ∃ es, c.payload = .handles es := by
    have hsuits := (hsrc.sound.proper hc).suits
    rcases hkind with hkind | hkind <;> rw [hkind] at hsuits <;>
      cases hp : c.payload <;> simp_all [Payload.suits]
  have hgrows : heap.Grows mid start h copy {copy} := hp.grows (hp.ne_nil hmid)
    (isShared_blank hcopied) fun p hstart => .inl (hm.pinned p hstart)
  obtain ⟨blank, hblank, hgraph⟩ := hp.blank
  obtain rfl : .handles (Array.replicate es.size .nil) = blank := by
    rw [hes] at hblank
    rcases hkind with hkind | hkind <;> rw [hkind] at hblank <;>
      simp_all [Payload.forKind?, Payload.length]
  have hsameRoots : mid.SameRoots (mid.pushed copy) mid.protect.depth := .pushed
  have hdepth : mid.protect.depth = heap.protect.depth :=
    congrArg Array.size hp.restoresRoots.slots
  refine ⟨hsrc, hm, hp.restoresRoots.sameRoots.trans (hdepth ▸ hsameRoots), hopened,
    hgrows.around .refl ⟨rfl, rfl, rfl⟩, by simp [pushed], Finset.mem_singleton_self copy,
    c, es, _, hc, hkind, hes, Shows.of_graph hgraph rfl, by simp, fun i _ hi => by simp [hi], ?_⟩
  intro i e f hi he
  have hlt := (Array.getElem?_eq_some_iff.mp he).1
  exact absurd (by simpa [hes, Payload.length] using hlt) hi

namespace ElementsCopied

variable {i : Nat} {rest : List Nat} {old : Handle}

theorem step (ht : heap.ElementsCopied mid start h copy (i :: rest) cells) (hi : i ∉ rest)
    (hread : (HeapM.vectorElt h i).run mid = .ok (.ok old, mid))
    (hone : mid.AnswersCopy old element last) (hlast : last.Sound) (hend : heap'.Sound)
    (hrun : (HeapM.setVectorElt copy i element).run last = .ok (.ok (), heap')) :
    ∃ more, heap.ElementsCopied heap' start h copy rest more := by
  obtain ⟨c, es, fs, hc, hkind, hp, hshows, hsize, hblank, helementsCopied⟩ := ht.elements
  have hcopied := Cell.isShared_of_vector hkind
  have hself : heap.ReachedFrom (· = h) h := .start rfl hc
  obtain ⟨d, hd, -, hdp⟩ := ht.source.read ht.grows.createsBeside hself hc hcopied
  obtain ⟨elements, helements, hold⟩ := HeapM.Safe.run_vectorElt hd hread
  obtain rfl : es = elements := by
    rw [hdp, hp] at helements
    exact Payload.handles.inj helements
  have hlt := (Array.getElem?_eq_some_iff.mp hold).1
  have hreached : heap.ReachedFrom (· = h) old := ht.source.slot hself hc hcopied
    (by simpa [hp, Payload.children] using Array.mem_of_getElem? hold)
  have hstartsRooted := (ht.startsRooted.carried ht.sameRoots ht.grows.createsBeside.carries).deepen ht.pinned
    (ht.grows.live ht.root)
  obtain ⟨more, hpart⟩ := hone.copyOf _ (ht.source.later ht.grows.createsBeside ht.sound hstartsRooted.live
    (fun _ => .inl) hreached) hstartsRooted
  have hj : heap.PartOfCopy mid last start (fun p => start p ∨ p = copy) h copy old element cells more :=
    ⟨ht.source, ht.grows, hpart.toGrows, ht.sound, hlast, fun _ => id, hreached, ht.root⟩
  have hafter := hj.keepsMade.shows ht.root hshows
  have hr := HeapM.refers_setVectorElt hafter (hblank i (by simp) hlt) hrun
  have hrestoresRoots : mid.RestoresRoots heap' := hone.toRestoresRoots.trans (.of_control hr.control)
  refine ⟨cells ∪ more, ht.source, ht.startsRooted, ht.sameRoots.trans hrestoresRoots.sameRoots, hend,
    hj.attach hr ht.root, by rw [hrestoresRoots.slots]; exact ht.pinned,
    Finset.mem_union_left more ht.root, c, es, _, hc, hkind, hp, hr.shows hafter, by simp [hsize],
    fun j hj' hjlt => ?_, fun j e f hj' he hf => ?_⟩
  · have hne : i ≠ j := fun heq => hi (heq ▸ hj')
    rw [Array.getElem?_setIfInBounds_ne hne]
    exact hblank j (by simp [hj']) hjlt
  · by_cases hij : i = j
    · subst hij
      rw [Array.getElem?_setIfInBounds_self_of_lt (by omega), Option.some.injEq] at hf
      rw [hold, Option.some.injEq] at he
      subst he hf
      refine (hj.mirrors hpart.mirrors (fun _ => id) hreached hr ht.root).mono fun t hmem =>
        Finset.mem_erase.mpr ⟨?_, Finset.mem_union_right cells hmem⟩
      rintro rfl
      exact Finset.disjoint_left.mp hj.disjoint ht.root hmem
    · rw [Array.getElem?_setIfInBounds_ne hij] at hf
      refine ((helementsCopied j e f (by simp [Ne.symm hij, hj']) he hf).sustained ht.sound
        (hj.keepsMade_written hr) fun t d hmem =>
          ht.grows.createsBeside.copied t d (Finset.mem_of_mem_erase hmem)).mono fun t hmem => ?_
      exact Finset.erase_subset_erase copy Finset.subset_union_left hmem

theorem finish (ht : heap.ElementsCopied mid start h copy [] cells) :
    heap.BareCopyOf mid start h copy cells := by
  obtain ⟨c, es, fs, hc, hkind, hp, hshows, hsize, -, helementsCopied⟩ := ht.elements
  obtain ⟨d, hd, hdkind, hdp⟩ := hshows.get? ⟨nofun, nofun⟩
  refine ⟨⟨ht.grows, .vector hc hkind hp ht.root hd hdkind hdp hsize fun i e f he hf =>
    (helementsCopied i e f (by simp) he hf).mono fun t => Finset.mem_of_mem_erase⟩, _, _, hshows⟩

end ElementsCopied

end Heap

namespace HostM

variable {ω : Type} {fuel : Nat} {copyOne : Handle → Attempt ω Handle}

theorem elementsCopied_copyElements (hone : ∀ h, Attempt.Quietly (copyOne h)
      fun heap r heap' => heap.AnswersCopy h r heap') {h copy : Handle} (places : List Nat)
    (hplaces : places.Nodup) :
    Attempt.Quietly (copyElements copyOne h copy places) fun mid _ last => mid.RestoresRoots last ∧
      ∀ heap start cells, Heap.ElementsCopied heap mid start h copy places cells →
        ∃ more, Heap.ElementsCopied heap last start h copy [] more := by
  induction places with
  | nil =>
    refine Attempt.Quietly.pure.conseq ?_
    rintro heap r heap' - ⟨-, rfl⟩
    exact ⟨.refl, fun _ _ cells ht => ⟨cells, ht⟩⟩
  | cons i rest ih =>
    refine (Attempt.Quietly.bind (.attempt (.of_reads .vectorElt) (Q := fun heap old heap' =>
      (HeapM.vectorElt h i).run heap = .ok (.ok old, heap) ∧ heap' = heap)
        fun heap r heap' _ hrun => ?_) fun old => .bind (hone old) fun element =>
        .bind (.attempt .setVectorElt (Q := fun heap u heap' => heap'.control = heap.control ∧
          (HeapM.setVectorElt copy i element).run heap = .ok (.ok u, heap'))
          fun heap r heap' _ hrun => ?_) fun _ => ih (List.nodup_cons.mp hplaces).2).conseq ?_
    · obtain rfl := HeapM.Reads.vectorElt _ _ _ hrun
      exact ⟨rfl, fun a ha => ⟨ha ▸ hrun, rfl⟩⟩
    · rcases HeapM.redrawn_setVectorElt hrun with ⟨-, hr⟩ | ⟨_, _, _, -, -, -, -, hr⟩ <;>
        exact ⟨congrArg (fun c : Control => c.finalizers.run) hr.control,
          fun u hu => ⟨hr.control, hu ▸ hrun⟩⟩
    · rintro mid r last - ⟨old, mid, -, ⟨hread, rfl⟩, element, m₁, hs₁, hdup, _, m₂, hs₂,
        ⟨hcontrol, hrun⟩, hrestoresRoots, hrest⟩
      refine ⟨hdup.toRestoresRoots.trans ((Heap.RestoresRoots.of_control hcontrol).trans hrestoresRoots),
        fun heap start cells ht => ?_⟩
      obtain ⟨more, hnext⟩ := ht.step (List.nodup_cons.mp hplaces).1 hread hdup hs₁ hs₂ hrun
      exact hrest heap start more hnext

theorem forms_copyVector (hone : ∀ h, Attempt.Quietly (copyOne h)
      fun heap r heap' => heap.AnswersCopy h r heap') {h : Handle} :
    Attempt.Quietly (copyVector (.mute fuel) copyOne h) fun heap r heap' =>
      (∃ c, heap.arena.get? h = some c ∧ (c.kind = .list ∨ c.kind = .expression)) →
        heap.AnswersBareCopy h r heap' := by
  refine (Attempt.Quietly.bind (.reads .kind) fun kind => .bind (.reads .length) fun length =>
    .protecting (.bind quietly_allocate fun copy => .bind .pushRoot fun _ =>
      .bind (elementsCopied_copyElements hone _ List.nodup_range) fun _ => .pure)).conseq ?_
  rintro heap r heap' hs ⟨kind, _, -, ⟨hkind, rfl⟩, length, heap, -, ⟨hlength, rfl⟩, last, -,
    ⟨copy, mid, hmid, hprovides, _, opened, hopened, ⟨-, rfl⟩, _, _, -, ⟨hrestoresRoots, helementsCopied⟩, rfl, rfl⟩,
    rfl⟩ ⟨c, hc, hvector⟩
  obtain ⟨d, hd, rfl, -⟩ := HeapM.run_kind.mp hkind
  rw [hc, Option.some.injEq] at hd
  subst hd
  obtain rfl : c.payload.length = length := by
    simp only [HeapM.length, run_bind, HeapM.run_payload, run_pure] at hlength
    obtain ⟨_, _, ⟨d, hd, rfl, rfl⟩, rfl, -⟩ := hlength
    rw [hc, Option.some.injEq] at hd
    rw [hd]
  have hdepth : mid.protect.depth = heap.protect.depth := congrArg Array.size hprovides.slots
  have hpushed : mid.SameRoots (mid.pushed r) heap.protect.depth := hdepth ▸ .pushed
  refine .of_scope (show heap.SameRoots heap heap.protect.depth from .refl) .refl hs
    ((hprovides.restoresRoots.sameRoots.trans hpushed).trans hrestoresRoots.sameRoots) fun start hsrc hm => ?_
  obtain ⟨cells, ht⟩ := helementsCopied heap start _ (hprovides.elementsCopied hsrc hm hc hvector hmid hopened)
  exact ⟨cells, ht.finish⟩

end HostM

/-- A bare copy, from which the attribute and the class bits are missing. -/
structure Heap.BareReplica (heap mid : Heap) (start : Handle → Prop) (h copy : Handle) (c : Cell)
    (cells : Finset Handle) : Prop extends heap.BareCopyOf mid start h copy cells where
  source : heap.Source start h
  startsRooted : heap.StartsRooted heap.protect.depth start
  restoresRoots : heap.RestoresRoots mid
  sound : mid.Sound
  original : heap.arena.get? h = some c
  copied : c.isShared = false

/-- A copy with its attribute, from which the class bits are missing. -/
structure Heap.ReplicaWithAttribute (heap mid : Heap) (start : Handle → Prop) (h copy : Handle) (c : Cell)
    (cells : Finset Handle) : Prop extends heap.CopyOf mid .body start h copy cells where
  attrib : ∃ d, mid.arena.get? copy = some d ∧ d.flags.object = false ∧ d.flags.s4Object = false ∧
    heap.Mirrors mid (· ∈ cells) .object c.attached d.attached

namespace Heap

variable {heap mid opened last heap' : Heap} {start made : Handle → Prop} {h r copy value : Handle}
  {cells more : Finset Handle} {c d : Cell} {f : Cell → Cell} {news : List Handle} {u : PUnit}

theorem Refers.attributesCopied (hr : mid.Refers heap' r f news) (hmid : mid.Sound)
    (hf : ∀ c, (f c).kind = c.kind ∧ (f c).payload = c.payload)
    (hcopied : ∀ t d, made t → mid.arena.get? t = some d → d.isShared = false)
    (hunheld : ∀ t, made t → r ∉ mid.slotsAt t) (hmade : made r) :
    mid.AttributesCopied heap' made (· = r) := by
  refine ⟨hcopied, hr.keepsMade fun hno => hno.2 rfl, ?_, ?_⟩
  · rintro t d rfl hd
    obtain ⟨e, he, hsame⟩ := hr.self hd
    obtain ⟨hkind, hpayload⟩ := hf d
    have hplain := (hmid.proper hd).plain (hcopied t d hmade hd)
    exact ⟨e, he, (Cell.kind_of_content hsame).trans hkind,
      (Cell.payload_of_plain hsame (hpayload ▸ hplain)).trans hpayload⟩
  · rintro t d k ht hd hk rfl
    exact hunheld t ht (by rwa [slotsAt_of_content hd rfl])

theorem ReplicaWithAttribute.around {first : Heap} (hbefore : first.SameObjectsAside heap)
    (hw : heap.ReplicaWithAttribute mid start h copy c cells) (hafter : mid.SameObjectsAside last) :
    first.ReplicaWithAttribute last start h copy c cells := by
  obtain ⟨d, hd, hobject, hs4, hm⟩ := hw.attrib
  exact ⟨hw.toCopyOf.around hbefore hafter, d, (hafter.get? copy).trans hd, hobject, hs4,
    hm.around hbefore hafter⟩

namespace BareReplica

variable (hl : heap.BareReplica mid start h copy c cells)

include hl

theorem mem : copy ∈ cells := hl.mirrors.made_of_body

theorem attached_reached : heap.ReachedFrom (· = h) c.attached :=
  ReachedFrom.slot hl.source.sound hl.source.copyable (.start rfl hl.original) hl.original hl.copied
    (Cell.attached_mem_edges
      (Cell.cached_of_not_isShared (hl.source.sound.proper hl.original) hl.copied) true)

theorem reads (hd : mid.arena.get? h = some d) : d.flags.object = c.flags.object ∧
    d.flags.s4Object = c.flags.s4Object ∧ d.attached = c.attached := by
  obtain ⟨e, he, hsame, -⟩ := hl.source.read hl.createsBeside (.start rfl hl.original) hl.original hl.copied
  rw [hd, Option.some.injEq] at he
  subst he
  exact ⟨Cell.object_of_content hsame, Cell.s4Object_of_content hsame,
    Cell.attached_of_content hsame⟩

theorem replicaWithAttribute (hnil : c.attached = .nil) : heap.ReplicaWithAttribute mid start h copy c cells := by
  obtain ⟨kind, payload, d, hd, hsame⟩ := hl.bare
  have hattached : d.attached = .nil := Cell.attached_of_content hsame
  obtain ⟨e, he⟩ := hl.attached_reached.live
  have hperm : e.flags.permanent = true := by
    by_contra hno
    exact hl.source.sound.ne_nil he (by simpa using hno) hnil
  refine ⟨hl.toCopyOf, d, hd, Cell.object_of_content hsame, Cell.s4Object_of_content hsame, ?_⟩
  rw [hattached, ← hnil]
  exact .shared he (Copyable.isShared hl.source.copyable he hperm)

theorem replicaWithAttribute_attached (hopened : (mid.pushed copy).Sound)
    (hone : (mid.pushed copy).AnswersCopy c.attached value last) (hlast : last.Sound)
    (hrun : (HeapM.setAttrib copy value).run last = .ok (u, heap')) :
    ∃ more, heap.ReplicaWithAttribute heap' start h copy c more := by
  have hopen : mid.SameObjectsAside (mid.pushed copy) := ⟨rfl, rfl, rfl⟩
  have hemb := hl.toBareCopyOf.around .refl hopen
  have hpinned : (mid.pushed copy).StartsRooted (mid.pushed copy).protect.depth
      fun p => start p ∨ p = copy :=
    (hl.startsRooted.carried (hl.restoresRoots.sameRoots.trans (by
      have hdepth : mid.protect.depth = heap.protect.depth := congrArg Array.size hl.restoresRoots.slots
      exact hdepth ▸ .pushed)) hemb.createsBeside.carries).deepen (by simp [pushed]) (hemb.live hl.mem)
  obtain ⟨more, hpart⟩ := hone.copyOf _ (hl.source.later hemb.createsBeside hopened hpinned.live
    (fun _ => .inl) hl.attached_reached) hpinned
  have hj : heap.PartOfCopy (mid.pushed copy) last start (fun p => start p ∨ p = copy) h copy c.attached
      value cells more := ⟨hl.source, hemb.toGrows, hpart.toGrows, hopened, hlast, fun _ => id,
    hl.attached_reached, hl.mem⟩
  obtain ⟨kind, payload, hshows⟩ := hemb.bare
  have hafter := hj.keepsMade.shows hl.mem hshows
  have hr := HeapM.refers_setAttrib hafter hrun
  obtain ⟨d, hd, hsame⟩ := hafter
  obtain ⟨e, he, hesame⟩ := hr.self hd
  have hshown := hesame.trans ((Cell.visible_attrib value).content _ _ hsame)
  have hattributesCopied : last.AttributesCopied heap' (· ∈ cells) (· = copy) := hr.attributesCopied hlast
    (fun _ => ⟨rfl, rfl⟩) (fun t d hmem => hj.createsBeside.copied t d (Finset.mem_union_left more hmem))
    (fun t hmem => hj.unheld (Finset.mem_union_left more hmem)) hl.mem
  have hbody := (hemb.mirrors.sustained hopened hj.keepsMade hemb.createsBeside.copied).dressed hlast hattributesCopied
    (.inr rfl)
  refine ⟨cells ∪ more, ⟨hj.attach hr hl.mem, hbody.mono fun t => Finset.mem_union_left more⟩, e, he,
    (Cell.object_of_content hshown), (Cell.s4Object_of_content hshown), ?_⟩
  have hattached : e.attached = value := Cell.attached_of_content hshown
  rw [hattached]
  exact (hj.mirrors hpart.mirrors (fun _ => id) hl.attached_reached hr hl.mem).mono
    fun t => Finset.mem_union_right cells

end BareReplica

theorem ReplicaWithAttribute.finish {flags : Flags} (hw : heap.ReplicaWithAttribute mid start h copy c cells)
    (hsrc : heap.Source start h) (hmid : mid.Sound) (hc : heap.arena.get? h = some c)
    (hcopied : c.isShared = false) (hobject : flags.object = c.flags.object)
    (hs4 : flags.s4Object = c.flags.s4Object)
    (hrun : (HeapM.updateCell copy (Cell.classed flags)).run mid = .ok (u, heap')) :
    heap.CopyOf heap' .object start h copy cells := by
  have hmem : copy ∈ cells := hw.mirrors.made_of_body
  have hr := HeapM.refers_classed hrun
  have hattributesCopied : mid.AttributesCopied heap' (· ∈ cells) (· = copy) :=
    hr.attributesCopied hmid (fun _ => ⟨rfl, rfl⟩) hw.createsBeside.copied (fun t => hw.unheld t) hmem
  obtain ⟨d, hd, hdobject, hds4, hattrib⟩ := hw.attrib
  obtain ⟨e, he, hsame⟩ := hr.self hd
  have hattached : e.attached = d.attached := (Cell.attached_of_content hsame :)
  have huncached := Cell.cached_of_not_isShared (hmid.proper hd) (hw.createsBeside.copied copy d hmem hd)
  have hne : d.attached ≠ copy := by
    intro heq
    refine hw.unheld copy hmem ?_
    rw [slotsAt_of_content hd rfl]
    exact heq ▸ Cell.attached_mem_edges huncached true
  refine ⟨hw.toGrows.written hsrc hmid hr hmem nofun, .object hc hcopied he ?_ ?_
    (hattached ▸ hattrib.dressed hmid hattributesCopied (.inl hne)) (hw.mirrors.dressed hmid hattributesCopied (.inr rfl))⟩
  · rw [Cell.object_of_content hsame, ← hobject]
    change (d.flags.object || flags.object) = flags.object
    rw [hdobject, Bool.false_or]
  · rw [Cell.s4Object_of_content hsame, ← hs4]
    change (d.flags.s4Object || flags.s4Object) = flags.s4Object
    rw [hds4, Bool.false_or]

theorem AnswersCopy.shared (hc : heap.arena.get? h = some c) (hshared : c.isShared = true) :
    heap.AnswersCopy h h heap :=
  ⟨.refl, ⟨c, hc⟩, fun _ _ _ => ⟨rfl, rfl⟩, fun start _ _ => ⟨∅, ⟨.beside rfl rfl rfl, by simp, by simp, .inr ⟨rfl, rfl⟩⟩, .shared hc hshared⟩⟩

theorem AnswersCopy.after (hl : heap.SameObjectsAside mid) (hr : heap.RestoresRoots mid)
    (hmid : mid.Sound) (hd : mid.AnswersCopy h r heap') : heap.AnswersCopy h r heap' := by
  refine ⟨hr.trans hd.toRestoresRoots, hl.get? h ▸ hd.live, fun c hc hshared =>
    (hd.itself c ((hl.get? h).trans hc) hshared).imp_right (·.trans hl.arena), fun start hsrc hm => ?_⟩
  have hdepth : mid.protect.depth = heap.protect.depth := congrArg Array.size hr.slots
  obtain ⟨cells, hy⟩ := hd.copyOf start (hsrc.sameObjectsAside hl hmid) (hdepth ▸ hm.sameObjectsAside hr.sameRoots hl)
  exact ⟨cells, hy.around hl .refl⟩

end Heap

/-- What copying the attribute and the class bits makes of a heap with a bare copy. -/
structure Heap.CompletesReplica (mid : Heap) (h copy : Handle) (last : Heap) : Prop
    extends mid.RestoresRoots last where
  copyOf : ∀ heap start c cells, Heap.BareReplica heap mid start h copy c cells →
    ∃ more, Heap.CopyOf heap last .object start h copy more

namespace Heap

variable {heap mid last : Heap} {h copy : Handle} {c : Cell}

theorem AnswersBareCopy.answersCopy (hf : heap.AnswersBareCopy h copy mid) (hmid : mid.Sound)
    (hc : heap.arena.get? h = some c) (hcopied : c.isShared = false)
    (hd : mid.CompletesReplica h copy last) : heap.AnswersCopy h copy last := by
  refine ⟨hf.toRestoresRoots.trans hd.toRestoresRoots, ⟨c, hc⟩, fun d hd' hshared => ?_, fun start hsrc hm => ?_⟩
  · rw [hc, Option.some.injEq] at hd'
    rw [← hd', hcopied] at hshared
    exact nomatch hshared
  obtain ⟨cells, hemb⟩ := hf.bareCopyOf start hsrc hm
  exact hd.copyOf heap start c cells ⟨hemb, hsrc, hm, hf.toRestoresRoots, hmid, hc, hcopied⟩

end Heap

namespace HostM

variable {ω : Type} {fuel : Nat} {copyOne : Handle → Attempt ω Handle}

theorem dresses_copyAttributes (hone : ∀ h, Attempt.Quietly (copyOne h)
      fun heap r heap' => heap.AnswersCopy h r heap') {h copy : Handle} :
    Attempt.Quietly (copyAttributes copyOne h copy) fun mid r last =>
      r = copy ∧ mid.CompletesReplica h copy last := by
  have hend : ∀ flags : Flags, Attempt.Quietly (ω := ω) (do
      HeapM.updateCell copy (Cell.classed flags)
      return copy) fun mid r last => r = copy ∧ mid.RestoresRoots last ∧
        (HeapM.updateCell copy (Cell.classed flags)).run mid = .ok ((), last) := by
    intro flags
    have hsafe : HeapM.Safe (HeapM.updateCell copy (Cell.classed flags)) :=
      .updateCell fun _ _ _ _ => ⟨.header rfl rfl rfl rfl rfl rfl rfl rfl id, rfl⟩
    refine (Attempt.Quietly.bind (.exact hsafe fun heap u heap' hrun => ⟨_,
      (HeapM.redrawn_updateCell (Cell.classed flags) (fun _ => rfl) (Cell.seen_classed flags) hrun).2⟩)
      fun _ => .pure).conseq ?_
    rintro heap r heap' - ⟨_, mid, -, hrun, rfl, rfl⟩
    exact ⟨rfl, .of_control (HeapM.refers_classed hrun).control, hrun⟩
  refine (Attempt.Quietly.bind (.reads .attrib) fun attached => .bind (.reads .flags) fun flags =>
    (?_ : Attempt.Quietly _ fun mid r last => r = copy ∧ mid.RestoresRoots last ∧
      ((∃ d, mid.arena.get? h = some d ∧ d.attached = attached ∧ d.flags = flags) →
      ∀ heap start c cells, Heap.BareReplica heap mid start h copy c cells →
        ∃ more, Heap.CopyOf heap last .object start h copy more))).conseq ?_
  · dsimp only
    split
    · refine (Attempt.Quietly.bind (.protecting (.bind .pushRoot fun _ => .bind (hone attached)
        fun value => .exact .setAttrib fun heap u heap' hrun => ?_)) fun _ => hend flags).conseq ?_
      · obtain ⟨c, -, -, hr⟩ := HeapM.redrawn_setAttrib hrun
        exact ⟨_, hr⟩
      · rintro mid r last - ⟨_, closed, hclosed, ⟨inner, hinner, ⟨_, _, hopened, ⟨-, rfl⟩, value, made,
          hmade, hdup, hset⟩, rfl⟩, rfl, hrest, hrun⟩
        obtain ⟨_, -, -, hr⟩ := HeapM.redrawn_setAttrib hset
        have hsameRoots : mid.SameRoots inner mid.protect.depth := .trans .pushed
          (hdup.toRestoresRoots.trans (.of_control hr.control)).sameRoots
        refine ⟨rfl, hsameRoots.unwound.trans hrest, ?_⟩
        rintro ⟨d, hd, rfl, rfl⟩ heap start c cells hl
        obtain ⟨hobject, hs4, hattached⟩ := hl.reads hd
        obtain ⟨more, hw⟩ := hl.replicaWithAttribute_attached hopened (hattached ▸ hdup) hmade hset
        have hclose : inner.SameObjectsAside (inner.unwound mid.protect.depth) := ⟨rfl, rfl, rfl⟩
        exact ⟨more, (hw.around .refl hclose).finish hl.source hclosed hl.original hl.copied
          hobject hs4 hrun⟩
    · rename_i hstop
      refine (hend flags).conseq ?_
      rintro mid r last hmid ⟨rfl, hrest, hrun⟩
      refine ⟨rfl, hrest, ?_⟩
      rintro ⟨d, hd, rfl, rfl⟩ heap start c cells hl
      obtain ⟨hobject, hs4, hattached⟩ := hl.reads hd
      exact ⟨cells, (hl.replicaWithAttribute (by simpa [Handle.isNil, hattached] using hstop)).finish hl.source hmid
        hl.original hl.copied hobject hs4 hrun⟩
  · rintro mid r last - ⟨attached, _, -, ⟨hattached, rfl⟩, flags, _, -, ⟨hflags, rfl⟩, rfl, hrest, hlast⟩
    refine ⟨rfl, hrest, hlast ?_⟩
    obtain ⟨d, hd, rfl, -⟩ := HeapM.run_flags.mp hflags
    simp only [HeapM.attrib, run_bind, HeapM.run_cell, run_pure] at hattached
    obtain ⟨_, _, ⟨hd', -⟩, rfl, -⟩ := hattached
    rw [hd, Option.some.injEq] at hd'
    exact ⟨d, hd, hd' ▸ rfl, rfl⟩

theorem answersCopy_completed (hone : ∀ h, Attempt.Quietly (copyOne h)
      fun heap r heap' => heap.AnswersCopy h r heap') {h : Handle} {P : Heap → Prop}
    {make : Attempt ω Handle}
    (hmake : Attempt.QuietlyFrom P make fun heap r heap' => heap.AnswersBareCopy h r heap')
    (hP : ∀ heap, P heap → ∃ c, heap.arena.get? h = some c ∧ c.isShared = false) :
    Attempt.QuietlyFrom P (do copyAttributes copyOne h (← make))
      fun heap r heap' => heap.AnswersCopy h r heap' := by
  refine (hmake.bind fun copy => dresses_copyAttributes hone).conseq ?_
  rintro heap r heap' - hheap ⟨copy, mid, hmid, hforms, rfl, hcompletesReplica⟩
  obtain ⟨c, hc, hcopied⟩ := hP heap hheap
  exact hforms.answersCopy hmid hc hcopied hcompletesReplica

theorem answersCopy_repeated (hone : ∀ h, Attempt.Quietly (copyOne h)
      fun heap r heap' => heap.AnswersCopy h r heap') {h : Handle} {P : Heap → Prop}
    {make : Attempt ω Handle}
    (hmake : Attempt.QuietlyFrom P make fun heap r heap' => heap.Repeats h r heap')
    (hP : ∀ heap, P heap →
      ∃ c, heap.arena.get? h = some c ∧ c.kind.isFlat = true ∧ c.isShared = false) :
    Attempt.QuietlyFrom P (do copyAttributes copyOne h (← make))
      fun heap r heap' => heap.AnswersCopy h r heap' := by
  refine answersCopy_completed hone (hmake.conseq fun heap r heap' _ hheap hrepeats =>
    hrepeats.forms fun d hd => ?_) fun heap hheap => ?_
  · obtain ⟨c, hc, hflat⟩ := hP heap hheap
    rw [hc, Option.some.injEq] at hd
    exact hd ▸ hflat
  · obtain ⟨c, hc, -, hcopied⟩ := hP heap hheap
    exact ⟨c, hc, hcopied⟩

theorem answersCopy_copyWithin (steps : Nat) (h : Handle) :
    Attempt.Quietly (copyWithin (.mute fuel : Host ω) steps h)
      fun heap r heap' => heap.AnswersCopy h r heap' := by
  induction steps generalizing h with
  | zero => exact .throwFault
  | succ steps ih =>
    refine (Attempt.Quietly.bind (.lift .awaitOutput (Q := fun heap _ heap' =>
        ∃ tasks counters, heap' = { heap with tasks, counters }) fun heap u heap' _ hrun => ?_)
      fun _ => (?_ : Attempt.Quietly _ fun heap r heap' => heap.AnswersCopy h r heap')).conseq ?_
    · obtain ⟨tasks, counters, rfl⟩ := HeapM.run_awaitOutput hrun
      exact ⟨rfl, tasks, counters, rfl⟩
    · refine Attempt.QuietlyFrom.quietly (.reads_first .kind fun k => ?_)
      have hkind : ∀ {heap : Heap}, True ∧ (HeapM.kind h).run heap = .ok (k, heap) →
          ∃ c, heap.arena.get? h = some c ∧ c.kind = k := fun hP => by
        obtain ⟨c, hc, hk, -⟩ := HeapM.run_kind.mp hP.2
        exact ⟨c, hc, hk⟩
      cases k
      case pair | language =>
        refine answersCopy_completed ih ((forms_copyPairlist ih).start.conseq
          fun heap r heap' _ hP hforms => hforms ?_) fun heap hP => ?_ <;>
        · obtain ⟨c, hc, hk⟩ := hkind hP
          exact ⟨c, hc, by simp [hk, Kind.isPairLike, Cell.isShared]⟩
      case list | expression =>
        refine answersCopy_completed ih ((forms_copyVector ih).start.conseq
          fun heap r heap' _ hP hforms => hforms ?_) fun heap hP => ?_ <;>
        · obtain ⟨c, hc, hk⟩ := hkind hP
          exact ⟨c, hc, by simp [hk, Cell.isShared]⟩
      case stringVector =>
        refine answersCopy_repeated ih quietly_copyStrings.start fun heap hP => ?_
        obtain ⟨c, hc, hk⟩ := hkind hP
        exact ⟨c, hc, by simp [hk, Kind.isFlat], by simp [hk, Cell.isShared]⟩
      case charString =>
        refine .reads_first .flags fun flags => ?_
        have hflags : ∀ {heap : Heap}, (True ∧ (HeapM.kind h).run heap = .ok (.charString, heap)) ∧
            (HeapM.flags h).run heap = .ok (flags, heap) → ∃ c, heap.arena.get? h = some c ∧
              c.kind = .charString ∧ c.flags.cached = flags.cached := fun hP => by
          obtain ⟨c, hc, hk⟩ := hkind hP.1
          obtain ⟨d, hd, rfl, -⟩ := HeapM.run_flags.mp hP.2
          rw [hc, Option.some.injEq] at hd
          exact ⟨c, hc, hk, hd ▸ rfl⟩
        split
        · rename_i hcached
          refine Attempt.Quietly.pure.start.conseq ?_
          rintro heap r heap' - hP ⟨rfl, rfl⟩
          obtain ⟨c, hc, hk, hsame⟩ := hflags hP
          exact .shared hc (by simp [Cell.isShared, hk, hsame, hcached])
        · rename_i hcached
          refine answersCopy_repeated ih ((quietly_copyData (by simp)).strengthen fun _ hP => hP.1.2)
            fun heap hP => ?_
          obtain ⟨c, hc, hk, hsame⟩ := hflags hP
          exact ⟨c, hc, by simp [hk, Kind.isFlat], by simpa [Cell.isShared, hk, hsame] using hcached⟩
      case logicalVector | integerVector | realVector | rawVector =>
        refine answersCopy_repeated ih ((quietly_copyData (by simp)).strengthen fun _ hP => hP.2)
          fun heap hP => ?_
        obtain ⟨c, hc, hk⟩ := hkind hP
        exact ⟨c, hc, by simp [hk, Kind.isFlat], by simp [hk, Cell.isShared]⟩
      case closure =>
        refine .reads_first .closureParts fun parts => ?_
        obtain ⟨formals, body, env⟩ := parts
        refine answersCopy_repeated ih ((fills_construct
          (by exact ⟨rfl, by simp, by simp [Payload.children]⟩)).start.conseq
            fun heap r heap' _ hP hfills => ?_) fun heap hP => ?_
        · obtain ⟨c, hc, hk⟩ := hkind hP.1
          exact .closure hc hk (HeapM.run_closureParts hc hP.2) hfills
        · obtain ⟨c, hc, hk⟩ := hkind hP.1
          exact ⟨c, hc, by simp [hk, Kind.isFlat], by simp [hk, Cell.isShared]⟩
      all_goals
        refine Attempt.Quietly.pure.start.conseq ?_
        rintro heap r heap' - hP ⟨rfl, rfl⟩
        obtain ⟨c, hc, hk⟩ := hkind hP
        exact .shared hc (by simp [Cell.isShared, hk])
    · rintro heap r heap' - ⟨_, mid, hmid, ⟨tasks, counters, rfl⟩, hd⟩
      have hl : heap.SameObjectsAside { heap with tasks, counters } := ⟨rfl, rfl, rfl⟩
      exact hd.after hl ⟨rfl, rfl, rfl⟩ hmid

end HostM

/-- What a call that answers a copy makes of a heap. -/
structure Heap.AnswersReplica (heap : Heap) (h r : Handle) (heap' : Heap) : Prop
    extends heap.RestoresRoots heap' where
  live : ∃ c, heap.arena.get? h = some c
  itself : ∀ c, heap.arena.get? h = some c → c.isShared = true → r = h ∧ heap'.arena = heap.arena
  copyOf : heap.Copyable → ∃ cells, heap.CopyOf heap' .object
    (fun p => (heap.Rooted p ∨ p = h) ∧ ∃ c, heap.arena.get? p = some c) h r cells

theorem HostM.answersReplica_duplicate {ω : Type} {fuel : Nat} {h : Handle} :
    Attempt.Quietly (duplicate (.mute fuel : Host ω) h)
      fun heap r heap' => heap.AnswersReplica h r heap' := by
  refine (Attempt.Quietly.protecting (.bind .pushRoot fun _ => .bind (.liftHost .stepBound)
    fun bound => answersCopy_copyWithin bound h)).conseq ?_
  rintro heap r heap' hs ⟨mid, -, ⟨_, opened, hopened, ⟨-, rfl⟩, _, _, -, rfl, hdup⟩, rfl⟩
  have hl : heap.SameObjectsAside (heap.pushed h) := ⟨rfl, rfl, rfl⟩
  have hsameRoots : heap.SameRoots mid heap.protect.depth := .trans .pushed hdup.sameRoots
  refine ⟨hsameRoots.unwound, hdup.live, hdup.itself, fun hcopy => ?_⟩
  obtain ⟨c, hc⟩ := hdup.live
  have hsrc : heap.Source (fun p => (heap.Rooted p ∨ p = h) ∧ ∃ c, heap.arena.get? p = some c) h :=
    ⟨hs, hcopy, fun p hp => hp.2, .start ⟨.inr rfl, c, hc⟩ hc⟩
  have hstartsRooted : (heap.pushed h).StartsRooted (heap.pushed h).protect.depth
      fun p => (heap.Rooted p ∨ p = h) ∧ ∃ c, heap.arena.get? p = some c := by
    refine ⟨fun p hp => ?_, fun p hp => hp.2⟩
    rcases hp.1 with (hpin | hsymbol) | rfl
    · exact .inl (Heap.Pins.below (hpin.imp_right fun hmem => by simp [Heap.pushed, hmem]))
    · exact .inr hsymbol
    · exact .inl (Heap.Pins.below (.inr (by simp [Heap.pushed])))
  obtain ⟨cells, hy⟩ := hdup.copyOf _ (hsrc.sameObjectsAside hl hopened) hstartsRooted
  exact ⟨cells, hy.around hl ⟨rfl, rfl, rfl⟩⟩

namespace Heap

variable {heap heap' : Heap} {made : Handle → Prop} {h r : Handle} {c : Cell}

theorem Mirrors.flat_same (hm : heap.Mirrors heap' made .object h r) (hc : heap.arena.get? h = some c)
    (hflat : c.kind.isFlat = true) (hcopied : c.isShared = false) :
    ∃ d, heap'.arena.get? r = some d ∧ d.kind = c.kind ∧ d.payload = c.payload := by
  have hsame : ∀ {d}, heap.arena.get? h = some d → d = c := fun hd =>
    Option.some.inj (hd.symm.trans hc)
  cases hm with
  | shared hd hshared =>
    rw [hsame hd, hcopied] at hshared
    exact nomatch hshared
  | object _ _ _ _ _ _ hbody =>
    cases hbody with
    | flat hd _ _ _ he hkind hp => exact ⟨_, he, hsame hd ▸ hkind, hsame hd ▸ hp⟩
    | vector hd hvector => rcases hsame hd ▸ hvector with hkind | hkind <;> simp [hkind, Kind.isFlat] at hflat
    | pair hd hpair =>
      rw [hsame hd] at hpair
      cases hkind : c.kind <;> simp [hkind, Kind.isFlat, Kind.isPairLike] at hflat hpair

namespace AnswersReplica

variable (hr : heap.AnswersReplica h r heap')

include hr

theorem same (hcopy : heap.Copyable) : (∃ d, heap'.arena.get? r = some d) ∧
    ∀ c, heap.arena.get? h = some c → c.kind ∉ [.pair, .language, .list, .expression] →
      ∃ d, heap'.arena.get? r = some d ∧ d.kind = c.kind ∧ d.payload = c.payload := by
  obtain ⟨c, hc⟩ := hr.live
  obtain ⟨cells, hy⟩ := hr.copyOf hcopy
  cases hshared : c.isShared with
  | true =>
    obtain ⟨rfl, harena⟩ := hr.itself c hc hshared
    rw [harena]
    exact ⟨⟨c, hc⟩, fun d hd _ => ⟨d, hd, rfl, rfl⟩⟩
  | false =>
    refine ⟨?_, fun d hd hkind => ?_⟩
    · cases hy.mirrors with
      | shared hd hcopied =>
        rw [hc, Option.some.injEq] at hd
        rw [← hd, hshared] at hcopied
        exact nomatch hcopied
      | object _ _ hd => exact ⟨_, hd⟩
    · obtain rfl : d = c := Option.some.inj (hd.symm.trans hc)
      refine hy.mirrors.flat_same hc ?_ hshared
      unfold Cell.isShared at hshared
      cases hk : d.kind <;> simp_all [Kind.isFlat]

theorem spares (hcopy : heap.Copyable) : heap.Spares heap' [h] := by
  obtain ⟨cells, hy⟩ := hr.copyOf hcopy
  refine ⟨hr.roots, hr.slots, fun start hstart => hy.createsBeside.carries.of_reached fun k c hk hc => ?_⟩
  exact .start ⟨(hstart k hk).imp Or.inl List.mem_singleton.mp, c, hc⟩ hc

end AnswersReplica

end Heap

end ManagedHeap
