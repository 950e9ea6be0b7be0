import ManagedHeap.Proofs.QuietConstructors

/-!
# Environments, weak records and symbols, without finalizers

The calls that allocate more than once. Each object that such a call has made so far is kept
alive by the next allocation, and so is what it refers to.
-/

namespace ManagedHeap

namespace Heap

variable {heap mid heap' : Heap} {h k : Handle} {kind : Kind} {payload : Payload}
  {kept kept' : List Handle} {start start' : Handle → Prop}

theorem Carries.of_reached (hcarries : heap.Carries heap' start')
    (hsub : ∀ k c, start k → heap.arena.get? k = some c → heap.ReachedFrom start' k) :
    heap.Carries heap' start := fun h c hr hc => hcarries h c (hr.trans hsub) hc

namespace Spares

theorem refl (heap : Heap) (kept : List Handle) : heap.Spares heap kept :=
  ⟨rfl, rfl, fun start _ => .refl heap start⟩

theorem pins (hs : heap.Spares heap' kept) (p : Handle) : heap'.Pins p ↔ heap.Pins p := by
  unfold Heap.Pins
  rw [hs.roots, hs.slots]

theorem trans (hfirst : heap.Spares mid kept) (hlast : mid.Spares heap' kept')
    (hsub : ∀ k ∈ kept, ∀ c, mid.arena.get? k = some c →
      mid.ReachedFrom (fun p => mid.Pins p ∨ p ∈ kept') k) : heap.Spares heap' kept := by
  refine ⟨hlast.roots.trans hfirst.roots, hlast.slots.trans hfirst.slots, fun start hstart => ?_⟩
  refine (hfirst.carries start hstart).trans
    ((hlast.carries _ fun p hp => hp).of_reached fun k c hk hc => ?_)
  rcases hstart k hk with hpin | hkept
  · exact .start (.inl ((hfirst.pins k).mpr hpin)) hc
  · exact hsub k hkept c hc

theorem weaken (hs : heap.Spares heap' kept) (hsub : ∀ k ∈ kept', heap.Pins k ∨ k ∈ kept) :
    heap.Spares heap' kept' :=
  ⟨hs.roots, hs.slots, fun start hstart => hs.carries start fun p hp =>
    (hstart p hp).elim .inl (hsub p)⟩

theorem closed (hs : Heap.Spares
      { heap with roots := { heap.roots with transient := heap.roots.transient ++ kept.toArray } }
      mid []) :
    heap.Spares { mid with roots :=
      { mid.roots with transient := mid.roots.transient.shrink heap.roots.transient.size } } kept := by
  have hopen : ∀ start, heap.Carries { heap with roots :=
      { heap.roots with transient := heap.roots.transient ++ kept.toArray } } start :=
    fun start => .beside rfl
  have hclose : ∀ start, mid.Carries { mid with roots := { mid.roots with
      transient := mid.roots.transient.shrink heap.roots.transient.size } } start :=
    fun start => .beside rfl
  refine ⟨?_, hs.slots, fun start hstart => ?_⟩
  · change { mid.roots with transient := mid.roots.transient.shrink heap.roots.transient.size } = _
    rw [show mid.roots = _ from hs.roots]
    simp
  · refine ((hopen start).trans (hs.carries start fun p hp => .inl ?_)).trans (hclose start)
    have hpin := hstart p hp
    unfold Heap.Pins at hpin ⊢
    simp only [RootSet.handles, List.mem_append, Array.toList_append] at hpin ⊢
    tauto

end Spares

theorem Shows.reached (hshows : heap.Shows h kind payload) (hk : k ∈ payload.children true)
    {c : Cell} (hc : heap.arena.get? k = some c) : heap.ReachedFrom (· = h) k := by
  obtain ⟨d, hd, hcontent⟩ := hshows
  refine .edge (.start rfl hd) hd ?_ ?_ hc
  · exact Cell.permanent_of_content hcontent
  · rw [← Cell.edges_content, hcontent, Cell.edges_content]
    exact List.mem_cons_of_mem _ hk

theorem Binds.carried {frame : Handle} {bindings : List (Handle × Handle)}
    (hb : heap.Binds frame bindings) (hcarries : heap.Carries heap' (· = frame)) :
    heap'.Binds frame bindings := by
  induction hb with
  | nil => exact .nil
  | cons hshows _ ih =>
    refine .cons (hshows.carried nofun hcarries) (ih (hcarries.of_reached ?_))
    rintro k c rfl hc
    exact hshows.reached (by simp [Payload.children]) hc

end Heap

namespace HostM

variable {ω : Type} {fuel : Nat}

theorem bindAll_cons (host : Host ω) (frame name value : Handle) (rest : List (Handle × Handle)) :
    bindAll host frame ((name, value) :: rest) = (do
      let cell ← allocate host .pair 0 [frame]
      setPayload cell (.pair value frame name)
      countReferences [value, frame, name]
      return cell) >>= fun cell => bindAll host cell rest := by
  simp only [bindAll, bind_assoc, pure_bind]

theorem quietly_bindAll (bindings : List (Handle × Handle)) (frame : Handle) :
    Attempt.Quietly (bindAll (.mute fuel : Host ω) frame bindings) fun heap h heap' =>
      heap.Spares heap' [frame] ∧
        ∀ done, heap.Binds frame done → heap'.Binds h (bindings.reverse ++ done) := by
  induction bindings generalizing frame with
  | nil =>
    refine Attempt.Quietly.pure.conseq ?_
    rintro heap h heap' - ⟨rfl, rfl⟩
    exact ⟨.refl _ _, fun done => id⟩
  | cons b rest ih =>
    obtain ⟨name, value⟩ := b
    rw [bindAll_cons]
    refine (Attempt.Quietly.bind (quietly_construct
      (by exact ⟨rfl, nofun, by simp [Payload.children]⟩)) ih).conseq ?_
    rintro heap h heap' - ⟨cell, mid, -, ⟨hfirst, hshows, -⟩, hlast, hbinds⟩
    refine ⟨hfirst.trans hlast fun k hk c hc => ?_, fun done hdone => ?_⟩
    · obtain rfl := List.mem_singleton.mp hk
      exact (hshows.reached (by simp [Payload.children]) hc).mono fun p hp => .inr (by simp [hp])
    · have hmid : mid.Binds cell ((name, value) :: done) :=
        .cons hshows (hdone.carried (hfirst.carries _ fun p hp => .inr (by simp [hp])))
      simpa using hbinds _ hmid

theorem quietly_makeEnvironment {names values : List Handle} {parent : Handle} :
    Attempt.Quietly (makeEnvironment (.mute fuel : Host ω) names values parent)
      fun heap h heap' => names.length = values.length ∧
        heap.Spares heap' (names ++ values ++ [parent]) ∧
        ∃ frame, heap'.Shows h .environment (.environment frame parent) ∧
          heap'.Binds frame (names.zip values) := by
  unfold makeEnvironment
  dsimp only
  split
  · exact .throw_bind
  · rename_i hlength
    have hinner : Attempt.Quietly (do
        let frame ← bindAll (.mute fuel : Host ω) .nil (names.zip values).reverse
        let env ← allocate (.mute fuel : Host ω) .environment 0 [frame]
        setPayload env (.environment frame parent)
        countReferences [frame, parent]
        return env) fun heap h heap' => heap.Spares heap' [] ∧
          ∃ frame, heap'.Shows h .environment (.environment frame parent) ∧
            heap'.Binds frame (names.zip values) := by
      refine (Attempt.Quietly.bind (quietly_bindAll _ .nil) fun frame => quietly_construct
        (by exact ⟨rfl, by simp, by simp [Payload.children]⟩)).conseq ?_
      rintro heap h heap' - ⟨frame, mid, -, ⟨hfirst, hbinds⟩, hlast, hshows, -⟩
      refine ⟨(hfirst.weaken (by simp)).trans hlast (by simp), frame, hshows, ?_⟩
      have hmid := hbinds [] .nil
      rw [List.reverse_reverse, List.append_nil] at hmid
      exact hmid.carried (hlast.carries _ fun p hp => .inr (by simp [hp]))
    refine .mk ((Quietly.withTransient hinner).conseq ?_)
    rintro heap r heap' - ⟨mid, -, hmid, rfl⟩ h hr
    obtain ⟨hspares, frame, hshows, hbinds⟩ := hmid h hr
    exact ⟨by simpa using hlength, hspares.closed, frame, hshows, hbinds.carried (.beside rfl)⟩

end HostM

/-- The object is a weak record with these fields, as it was made. -/
def Heap.ShowsRecord (heap : Heap) (h key value finalizer : Handle) (onExit : Bool) : Prop :=
  ∃ d, heap.arena.get? h = some d ∧ d.content =
    ((Cell.blank .weakRef .free).enlisted key value finalizer .nil onExit).content

/-- The object is a cached string with these bytes. -/
def Heap.ShowsString (heap : Heap) (h : Handle) (bytes : Bytes) (encoding : Encoding) : Prop :=
  ∃ d hash, heap.arena.get? h = some d ∧ d.kind = .charString ∧ d.flags.cached = true ∧
    d.payload = .charString bytes encoding hash

def Heap.PinsBelow (heap : Heap) (depth : Nat) (h : Handle) : Prop :=
  h ∈ heap.roots.handles ∨ h ∈ heap.protect.slots.toList.take depth

/-- What happens inside a protection scope leaves as it is what was protected before, and what
the starting points reach. -/
structure Heap.Secures (heap heap' : Heap) (depth : Nat) (start : Handle → Prop) : Prop where
  roots : heap'.roots = heap.roots
  slots : heap'.protect.slots.toList.take depth = heap.protect.slots.toList.take depth
  carries : heap.Carries heap' start

namespace Heap

variable {heap mid heap' : Heap} {h : Handle} {depth : Nat} {start : Handle → Prop}
  {kept : List Handle}

theorem PinsBelow.pins (hp : heap.PinsBelow depth h) : heap.Pins h :=
  hp.imp_right List.mem_of_mem_take

theorem Pins.below (hp : heap.Pins h) : heap.PinsBelow heap.protect.depth h :=
  hp.imp_right fun hmem => (List.take_of_length_le (Nat.le_refl _)).symm ▸ hmem

namespace Secures

theorem pinsBelow (hs : heap.Secures heap' depth start) (p : Handle) :
    heap'.PinsBelow depth p ↔ heap.PinsBelow depth p := by
  unfold Heap.PinsBelow
  rw [hs.roots, hs.slots]

theorem trans (hfirst : heap.Secures mid depth start) (hlast : mid.Secures heap' depth start) :
    heap.Secures heap' depth start :=
  ⟨hlast.roots.trans hfirst.roots, hlast.slots.trans hfirst.slots,
    hfirst.carries.trans hlast.carries⟩

theorem push (hdepth : depth ≤ heap.protect.slots.size) : heap.Secures
    { heap with protect := { heap.protect with slots := heap.protect.slots.push h } }
    depth start := by
  refine ⟨rfl, ?_, .beside rfl⟩
  rw [Array.toList_push, List.take_append_of_le_length (by simpa using hdepth)]

end Secures

theorem Spares.secures (hs : heap.Spares heap' kept)
    (hstart : ∀ p, start p → heap.Pins p ∨ p ∈ kept) : heap.Secures heap' depth start :=
  ⟨hs.roots, by rw [hs.slots], hs.carries start hstart⟩

theorem Spares.of_scope (hs : ∀ start, (∀ p, start p → heap.Pins p ∨ p ∈ kept) →
      heap.Secures mid heap.protect.depth start) :
    heap.Spares { mid with protect := mid.protect.truncate heap.protect.depth } kept := by
  have hnone := hs (fun _ => False) nofun
  refine ⟨hnone.roots, ?_, fun start hstart =>
    (hs start hstart).carries.trans (.beside rfl)⟩
  change mid.protect.slots.shrink heap.protect.depth = _
  apply Array.toList_inj.mp
  rw [Array.toList_shrink, hnone.slots]
  exact List.take_of_length_le (Nat.le_refl _)

end Heap

namespace HostM

variable {ω : Type} {fuel : Nat}

theorem quietly_makeWeakRef {key value finalizer : Handle} {onExit : Bool} :
    Attempt.Quietly (makeWeakRef (.mute fuel : Host ω) key value finalizer onExit)
      fun heap h heap' => heap.Spares heap' [key, value, finalizer] ∧
        heap'.ShowsRecord h key value finalizer onExit := by
  have hmake : Attempt.Quietly (do
      let record ← allocate (.mute fuel : Host ω) .weakRef 0 [key, value, finalizer]
      HeapM.linkWeakRef record key value finalizer onExit
      return record)
      fun heap h heap' => heap.Spares heap' [key, value, finalizer] ∧
        heap'.ShowsRecord h key value finalizer onExit := by
    refine (quietly_allocate_bind ?_ fun record => .bind (.lift (Q := fun heap _ heap' =>
      heap'.control = { heap.control with weak := ⟨record, heap.weak.length + 1⟩ } ∧
      heap'.graph = heap.graph.edit record
        (Cell.enlisted key value finalizer heap.weak.head onExit)) ?_) fun _ => .pure).quietly.conseq ?_
    · refine Attempt.Safe.start ?_
      exact Attempt.Triple.bind (allocate_fresh (Host.mute_safe fuel)) fun record =>
        .bind (.lift HeapM.linkWeakRef_safe) fun _ => .pure fun _ => id
    · intro heap u heap' _ hrun
      obtain ⟨-, hcontrol, hgraph⟩ := HeapM.run_linkWeakRef hrun
      exact ⟨congrArg (fun c : Control => c.finalizers.run) hcontrol, hcontrol, hgraph⟩
    · rintro heap h heap' - ⟨_, mid, -, hprovides, _, _, ⟨hcontrol, hgraph⟩, rfl, rfl⟩
      obtain ⟨payload, -, hblank⟩ := hprovides.blank
      refine ⟨hprovides.spares (congrArg Control.roots hcontrol)
        (congrArg (fun c : Control => c.protect.slots) hcontrol) (hgraph ▸ .edit rfl), ?_⟩
      obtain ⟨d, hd, hdc⟩ := Heap.graph_eq_some.mp (hgraph ▸ Graph.edit_self hblank)
      refine ⟨d, hd, ?_⟩
      rw [← Cell.content_seen d, hdc, Cell.content_seen]
      rfl
  unfold makeWeakRef
  dsimp only
  split
  · refine (Attempt.Quietly.bind (.reads .kind) fun k => (?_ : Attempt.Quietly _
      fun heap h heap' => heap.Spares heap' [key, value, finalizer] ∧
        heap'.ShowsRecord h key value finalizer onExit)).conseq ?_
    · split
      · exact .throw_bind
      · exact hmake
    · rintro heap h heap' - ⟨_, _, -, ⟨-, rfl⟩, hlast⟩
      exact hlast
  · exact hmake

@[simp]
def Finalizer.closures : Finalizer → List Handle
  | .native _ => []
  | .closure f => [f]

def Finalizer.ShownBy (heap : Heap) (function : Handle) : Finalizer → Prop
  | .native routine => heap.Shows function .nativeFunction (.nativeFunction (some routine))
  | .closure f => function = f

theorem quietly_registerFinalizer {key : Handle} {finalizer : Finalizer} {onExit : Bool} :
    Attempt.Quietly (registerFinalizer (.mute fuel : Host ω) key finalizer onExit)
      fun heap h heap' => ∃ function, heap.Spares heap' (key :: finalizer.closures) ∧
        finalizer.ShownBy heap' function ∧
        heap'.ShowsRecord h key .nil function onExit := by
  cases finalizer with
  | native routine =>
    refine (Attempt.Quietly.protecting (Attempt.Quietly.bind .pushRoot fun _ =>
      Attempt.Quietly.bind (quietly_construct (by exact ⟨rfl, by simp, by simp [Payload.children]⟩))
        fun function => Attempt.Quietly.bind .pushRoot fun _ => quietly_makeWeakRef)).conseq ?_
    rintro heap h heap' - ⟨last, -, ⟨_, _, -, ⟨-, rfl⟩, function, mid, -, ⟨hmake, hshows, -⟩,
      _, _, -, ⟨-, rfl⟩, hlink, hrecord⟩, rfl⟩
    refine ⟨function, .of_scope fun start hstart => ?_, ?_, hrecord⟩
    · have hfirst : heap.Secures mid heap.protect.depth start :=
        .trans (.push (h := key) (Nat.le_refl _)) (hmake.secures fun p hp => .inl ?_)
      · refine hfirst.trans (.trans (.push ?_) (hlink.secures fun p hp => ?_))
        · rw [hmake.slots, Array.size_push]
          exact Nat.le_succ _
        · refine (hstart p hp).imp (fun hpin => ?_) fun hkey => by simp_all
          exact ((hfirst.pinsBelow p).mpr hpin.below).pins.imp_right fun hmem => by simp [hmem]
      · exact (hstart p hp).elim (fun hpin => hpin.imp_right fun hmem => by simp [hmem])
          fun hkey => .inr (by simp_all)
    · refine hshows.carried (by simp) ?_
      have hopen : mid.Carries { mid with protect :=
          { mid.protect with slots := mid.protect.slots.push function } } (· = function) :=
        .beside rfl
      refine (hopen.trans (hlink.carries _ fun p hp => .inr (by simp [hp]))).trans
        (.beside rfl)
  | closure f =>
    refine (Attempt.Quietly.protecting (Attempt.Quietly.bind .pushRoot fun _ =>
      Attempt.Quietly.bind .pure fun function => Attempt.Quietly.bind .pushRoot fun _ =>
        quietly_makeWeakRef)).conseq ?_
    rintro heap h heap' - ⟨last, -, ⟨_, _, -, ⟨-, rfl⟩, function, _, -, ⟨rfl, rfl⟩,
      _, _, -, ⟨-, rfl⟩, hlink, hrecord⟩, rfl⟩
    refine ⟨function, .of_scope fun start hstart => ?_, rfl, hrecord⟩
    refine (Heap.Secures.push (Nat.le_refl _)).trans (.trans (.push (by simp))
      (hlink.secures fun p hp => ?_))
    exact (hstart p hp).imp (fun hpin => hpin.imp_right fun hmem => by simp [hmem])
      fun hkept => by
        simp only [Finalizer.closures, List.mem_cons, List.not_mem_nil, or_false] at hkept ⊢
        tauto

end HostM

end ManagedHeap
