import ManagedHeap.Proofs.QuietEnvironments
import ManagedHeap.Proofs.FrameUpdates

/-!
# What calls leave as it is, also where they fail

A call keeps alive what it was given, and what the heap holds anyway. Unless a finalizer runs,
all that can be reached from there is afterwards what it was, whether the call succeeds or not,
and the objects that it made are others.
-/

namespace ManagedHeap

open Arena

/-- The objects in `cells` were made between two heaps, beside what a call that was given `kept`
leaves as it is. -/
structure Heap.Adds (heap heap' : Heap) (kept cells : List Handle) : Prop where
  roots : heap'.roots = heap.roots
  slots : heap'.protect.slots = heap.protect.slots
  symbols : heap'.symbols = heap.symbols
  carries : heap.Carries heap' (heap.RootedOr kept)
  fresh : ∀ k ∈ cells, ¬ heap.ReachedFrom (heap.RootedOr kept) k
  once : cells.Nodup

namespace Heap

variable {heap mid heap' : Heap} {start : Handle → Prop} {kept kept' cells more : List Handle}
  {h k : Handle} {p : Payload} {kind : Kind} {length : Nat} {cursor : Handle} {bs : List Binding}
  {s : Scope}

theorem ReachedFrom.body (hr : heap.ReachedFrom start h) (hb : heap.graph.body h = some p)
    (hk : k ∈ p.children true) (hlive : heap.arena.contains k = true) :
    heap.ReachedFrom start k := by
  obtain ⟨c, hc, hperm, rfl⟩ := Heap.body_eq_some.mp hb
  obtain ⟨d, hd⟩ := contains_iff.mp hlive
  rw [Cell.children_forgetting] at hk
  exact .edge hr hc hperm (Cell.mem_edges_of_children hk) hd

theorem Carries.body (hcarries : heap.Carries heap' start) (hr : heap.ReachedFrom start h)
    (hb : heap.graph.body h = some p) (hp : ∀ key value finalizer next,
      p ≠ .weakRef key value finalizer next) : heap'.graph.body h = some p := by
  obtain ⟨c, hc, hperm, rfl⟩ := Heap.body_eq_some.mp hb
  have hplain : ∀ key value finalizer next, c.payload ≠ .weakRef key value finalizer next := by
    intro key value finalizer next heq
    exact hp key value finalizer next (by rw [heq]; rfl)
  obtain ⟨d, hd, he | ⟨key, value, next, hweak, -⟩⟩ := hcarries h c hr hc
  · exact Heap.body_eq_some.mpr ⟨d, hd, (Cell.permanent_of_content he).trans hperm,
      Cell.payload_of_content he hplain⟩
  · exact absurd hweak (hplain key value .nil next)

theorem Carries.frames (hcarries : heap.Carries heap' start) (hs : heap.Sound)
    (hf : Frames heap.graph.body cursor bs) (hr : bs ≠ [] → heap.ReachedFrom start cursor) :
    Frames heap'.graph.body cursor bs := by
  induction hf with
  | nil => exact .nil
  | @cons b next bs hne hb _ ih =>
    have hreached := hr (by simp)
    refine .cons hne (hcarries.body hreached hb nofun) (ih fun _ => ?_)
    have hchild : next ∈ (Payload.pair b.value next b.sym).children true := by
      simp [Payload.children]
    exact hreached.body hb hchild (hs.live_of_body hb hchild)

theorem ReachedFrom.frames (hs : heap.Sound) (hf : Frames heap.graph.body cursor bs)
    (hr : bs ≠ [] → heap.ReachedFrom start cursor) :
    ∀ k ∈ bs.map (·.cell), heap.ReachedFrom start k := by
  induction hf with
  | nil => simp
  | @cons b next bs hne hb _ ih =>
    have hreached := hr (by simp)
    have hchild : next ∈ (Payload.pair b.value next b.sym).children true := by
      simp [Payload.children]
    intro k hk
    rcases List.mem_cons.mp hk with rfl | hk
    · exact hreached
    · exact ih (fun _ => hreached.body hb hchild (hs.live_of_body hb hchild)) k hk

theorem ReachedFrom.parts (hs : heap.Sound) (ho : s.On heap.graph.body)
    (hr : heap.ReachedFrom start s.env) : ∀ k ∈ s.parts, heap.ReachedFrom start k := by
  obtain ⟨frame, henv, hf⟩ := ho.frame
  have hchild : frame ∈ (Payload.environment frame s.parent).children true := by
    simp [Payload.children]
  intro k hk
  rcases List.mem_cons.mp hk with rfl | hk
  · exact hr
  · exact ReachedFrom.frames hs hf (fun _ => hr.body henv hchild (hs.live_of_body henv hchild)) k hk

namespace Adds

theorem refl (heap : Heap) (kept : List Handle) : heap.Adds heap kept [] :=
  ⟨rfl, rfl, rfl, .refl heap _, nofun, .nil⟩

theorem rooted (ha : heap.Adds heap' kept cells) (p : Handle) : heap'.Rooted p ↔ heap.Rooted p := by
  unfold Heap.Rooted Heap.Pins
  rw [ha.roots, ha.slots, ha.symbols]

theorem trans (hfirst : heap.Adds mid kept cells) (hlast : mid.Adds heap' kept' more)
    (hkept : ∀ k ∈ kept, ∀ c, mid.arena.get? k = some c → mid.ReachedFrom (mid.RootedOr kept') k)
    (hcells : ∀ k ∈ cells, mid.ReachedFrom (mid.RootedOr kept') k) :
    heap.Adds heap' kept (more ++ cells) := by
  have hstart : ∀ k c, heap.RootedOr kept k → mid.arena.get? k = some c →
      mid.ReachedFrom (mid.RootedOr kept') k := by
    rintro k c (hroot | hmem) hc
    · exact .start (.inl ((hfirst.rooted k).mpr hroot)) hc
    · exact hkept k hmem c hc
  refine ⟨hlast.roots.trans hfirst.roots, hlast.slots.trans hfirst.slots,
    hlast.symbols.trans hfirst.symbols, hfirst.carries.trans (hlast.carries.of_reached hstart),
    fun k hk hr => ?_, List.nodup_append.mpr ⟨hlast.once, hfirst.once, ?_⟩⟩
  · rcases List.mem_append.mp hk with hk | hk
    · exact hlast.fresh k hk ((hfirst.carries.reached hr).trans hstart)
    · exact hfirst.fresh k hk hr
  · rintro k hk _ hk' rfl
    exact hlast.fresh k hk (hcells k hk')

theorem forget (ha : heap.Adds heap' kept cells) : heap.Adds heap' kept [] :=
  ⟨ha.roots, ha.slots, ha.symbols, ha.carries, nofun, .nil⟩

theorem weaken (ha : heap.Adds heap' kept cells) (hsub : ∀ k ∈ kept', k ∈ kept) :
    heap.Adds heap' kept' cells := by
  have hstart : ∀ p, heap.RootedOr kept' p → heap.RootedOr kept p := fun p => Or.imp_right (hsub p)
  exact ⟨ha.roots, ha.slots, ha.symbols, ha.carries.of_reached fun k c hk hc => .start (hstart k hk) hc,
    fun k hk hr => ha.fresh k hk (hr.mono hstart), ha.once⟩

theorem closed (ha : Heap.Adds
      { heap with roots := { heap.roots with transient := heap.roots.transient ++ kept.toArray } }
      mid [] cells) :
    heap.Adds { mid with roots :=
      { mid.roots with transient := mid.roots.transient.shrink heap.roots.transient.size } }
      kept cells := by
  have hopen : ∀ start, heap.Carries { heap with roots :=
      { heap.roots with transient := heap.roots.transient ++ kept.toArray } } start :=
    fun start => .beside rfl
  have hstart : ∀ p, heap.RootedOr kept p → Heap.RootedOr { heap with roots :=
      { heap.roots with transient := heap.roots.transient ++ kept.toArray } } [] p := by
    unfold Heap.RootedOr Heap.Rooted Heap.Pins
    intro p hp
    simp only [RootSet.handles, List.mem_append, Array.toList_append] at hp ⊢
    tauto
  refine ⟨?_, ha.slots, ha.symbols, ?_, fun k hk hr => ?_, ha.once⟩
  · change { mid.roots with transient := mid.roots.transient.shrink heap.roots.transient.size } = _
    rw [show mid.roots = _ from ha.roots]
    simp
  · exact ((hopen _).trans (ha.carries.of_reached fun k c hk hc => .start (hstart k hk) hc)).trans
      (.beside rfl)
  · exact ha.fresh k hk (((hopen _).reached hr).mono hstart)

end Adds

theorem KeepsPinned.adds (hw : heap.KeepsPinned heap') : heap.Adds heap' [] [] :=
  ⟨hw.roots, hw.slots, hw.symbols,
    (hw.conserves _ fun _ hp => hp.resolve_right List.not_mem_nil).carries, nofun, .nil⟩

theorem Provides.adds (hp : heap.Provides mid kind length kept h)
    (hroots : heap'.roots = mid.roots) (hslots : heap'.protect.slots = mid.protect.slots)
    (hsymbols : heap'.symbols = mid.symbols)
    (hg : Graph.Agrees (· = h) mid.graph heap'.graph) : heap.Adds heap' kept [h] := by
  have hfresh := hp.unrooted (heap.RootedOr kept) fun _ => id
  refine ⟨hroots.trans hp.roots, hslots.trans hp.slots, hsymbols.trans hp.symbols,
    (hp.conserves _ fun _ => id).carries.before hg ?_, ?_, List.nodup_singleton h⟩
  · rintro k rfl
    exact hfresh
  · intro k hk
    obtain rfl := List.mem_singleton.mp hk
    exact hfresh

theorem Fills.adds {slots : List Handle} (hf : heap.Fills heap' kind length p kept slots h) :
    heap.Adds heap' kept [h] := by
  obtain ⟨mid, -, hprovides, hcontrol, hcounts, -⟩ := hf.made
  refine hprovides.adds (congrArg Control.roots hcontrol)
    (congrArg (fun c : Control => c.protect.slots) hcontrol) (congrArg Control.symbols hcontrol) ?_
  exact hcounts.agrees

theorem Fills.body {slots : List Handle} (hf : heap.Fills heap' kind length p kept slots h)
    (hp : ∀ key value finalizer next, p ≠ .weakRef key value finalizer next) :
    heap'.graph.body h = some p.forgetting := by
  obtain ⟨d, hd, hcontent⟩ := hf.shows
  exact Heap.body_eq_some.mpr ⟨d, hd, Cell.permanent_of_content hcontent,
    Cell.payload_of_content hcontent hp⟩

theorem Provides.body (hp : heap.Provides heap' kind length kept h) :
    ∃ p, Payload.forKind? kind length = some p ∧ heap'.graph.body h = some p.forgetting := by
  obtain ⟨p, hkind, hgraph⟩ := hp.blank
  exact ⟨p, hkind, by rw [Graph.body, hgraph]; rfl⟩

end Heap

theorem Regular.untouched {heap heap' : Heap} {kept cells : List Handle} {ss : List Scope}
    (hr : Regular heap.graph.body ss) (hs : heap.Sound) (ha : heap.Adds heap' kept cells)
    (hreached : ∀ s ∈ ss, heap.ReachedFrom (heap.RootedOr kept) s.env) :
    ∀ s ∈ ss, ∀ h ∈ s.parts, heap'.graph.body h = heap.graph.body h ∧ h ∉ cells := by
  intro s hmem h hh
  have hpart := Heap.ReachedFrom.parts hs (hr.on s hmem) (hreached s hmem) h hh
  obtain ⟨p, hb, hp⟩ := (hr.on s hmem).body_of_part hh
  exact ⟨(ha.carries.body hpart hb hp).trans hb.symm, fun hcell => ha.fresh h hcell hpart⟩

def Attempt.Fails {ω α : Type} (act : Attempt ω α) (E : Heap → Heap → Prop) : Prop :=
  ∀ state heap e state' heap', heap.Sound →
    (act.run.run state).run heap = .ok ((.error e, state'), heap') →
    heap'.finalizers.run = heap.finalizers.run → E heap heap'

def Attempt.Sure {ω α : Type} (act : Attempt ω α) : Prop :=
  ∀ state heap e state' heap', (act.run.run state).run heap ≠ .ok ((.error e, state'), heap')

namespace Attempt

variable {ω α β : Type} {x : Attempt ω α} {f : α → Attempt ω β} {Q : Heap → α → Heap → Prop}
  {R : α → Heap → β → Heap → Prop} {E E' : Heap → Heap → Prop} {F : α → Heap → Heap → Prop}

theorem run_bind_error {state state' : ω} {heap heap' : Heap} {e : HeapError}
    (hrun : ((x >>= f).run.run state).run heap = .ok ((.error e, state'), heap')) :
    (x.run.run state).run heap = .ok ((.error e, state'), heap') ∨
      ∃ a middle mid, (x.run.run state).run heap = .ok ((.ok a, middle), mid) ∧
        ((f a).run.run middle).run mid = .ok ((.error e, state'), heap') := by
  rw [ExceptT.run_bind, StateT.run_bind] at hrun
  obtain ⟨⟨r, middle⟩, mid, hfirst, hlast⟩ := run_bind.mp hrun
  cases r with
  | error e' =>
    obtain ⟨hr, rfl⟩ := run_pure.mp hlast
    injection hr with hr hstate
    injection hr with hr
    subst hr hstate
    exact .inl hfirst
  | ok a => exact .inr ⟨a, middle, mid, hfirst, hlast⟩

theorem run_lift {act : HeapM α} {r : Except HeapError α} {state state' : ω} {heap heap' : Heap} :
    ((liftM act : Attempt ω α).run.run state).run heap = .ok ((r, state'), heap') ↔
      ∃ a, r = .ok a ∧ state' = state ∧ act.run heap = .ok (a, heap') := by
  change ((Functor.map Except.ok (liftM act : HostM ω α)).run state).run heap = _ ↔ _
  rw [← bind_pure_comp, HostM.run_bindM]
  constructor
  · rintro ⟨a, mid, between, hact, hpure⟩
    obtain ⟨hstate, hact⟩ := HostM.run_liftM.mp hact
    obtain ⟨hr, rfl⟩ := run_pure.mp hpure
    obtain ⟨rfl, rfl⟩ := Prod.mk.inj hr
    exact ⟨a, rfl, hstate, hact⟩
  · rintro ⟨a, rfl, rfl, hact⟩
    exact ⟨a, _, _, HostM.run_liftM.mpr ⟨rfl, hact⟩, run_pure.mpr ⟨rfl, rfl⟩⟩

theorem run_bind_ok {state state' : ω} {heap heap' : Heap} {b : β}
    (hrun : ((x >>= f).run.run state).run heap = .ok ((.ok b, state'), heap')) :
    ∃ a middle mid, (x.run.run state).run heap = .ok ((.ok a, middle), mid) ∧
      ((f a).run.run middle).run mid = .ok ((.ok b, state'), heap') := by
  rw [ExceptT.run_bind, StateT.run_bind] at hrun
  obtain ⟨⟨r, middle⟩, mid, hfirst, hlast⟩ := run_bind.mp hrun
  cases r with
  | error e =>
    obtain ⟨hr, -⟩ := run_pure.mp hlast
    cases congrArg Prod.fst hr
  | ok a => exact ⟨a, middle, mid, hfirst, hlast⟩

theorem run_lift_bind {act : HeapM α} {state state' : ω} {heap heap' : Heap} {b : β}
    (hrun : (((liftM act : Attempt ω α) >>= f).run.run state).run heap = .ok ((.ok b, state'), heap')) :
    ∃ a mid, act.run heap = .ok (a, mid) ∧
      ((f a).run.run state).run mid = .ok ((.ok b, state'), heap') := by
  obtain ⟨a, middle, mid, hfirst, hlast⟩ := run_bind_ok hrun
  obtain ⟨_, hr, rfl, hact⟩ := run_lift.mp hfirst
  obtain rfl := Except.ok.inj hr
  exact ⟨a, mid, hact, hlast⟩

namespace Sure

theorem pure {a : α} : Sure (pure a : Attempt ω α) := by
  intro state heap e state' heap' hrun
  obtain ⟨hr, -⟩ := run_pure.mp hrun
  injection hr with hr
  exact nomatch hr

theorem lift {act : HeapM α} : Sure (liftM act : Attempt ω α) := by
  intro state heap e state' heap' hrun
  obtain ⟨a, hr, -⟩ := run_lift.mp hrun
  exact nomatch hr

theorem bind (hx : Sure x) (hf : ∀ a, Sure (f a)) : Sure (x >>= f) := by
  intro state heap e state' heap' hrun
  rcases run_bind_error hrun with hfirst | ⟨a, middle, mid, -, hlast⟩
  · exact hx _ _ _ _ _ hfirst
  · exact hf a _ _ _ _ _ hlast

end Sure

namespace Fails

theorem sure (hx : Sure x) : Fails x E := fun _ _ _ _ _ _ hrun => absurd hrun (hx _ _ _ _ _)

theorem mono (hx : Fails x E) (hE : ∀ heap heap', heap.Sound → E heap heap' → E' heap heap') :
    Fails x E' := fun _ _ _ _ _ hs hrun hquiet => hE _ _ hs (hx _ _ _ _ _ hs hrun hquiet)

theorem throw {e : HeapError} : Fails (throwThe HeapError e : Attempt ω α) fun heap heap' =>
    heap' = heap := fun _ _ _ _ _ _ hrun _ => (run_pure.mp hrun).2.symm

theorem throw_bind {e : HeapError} : Fails ((throwThe HeapError e : Attempt ω α) >>= f)
    fun heap heap' => heap' = heap := throw (α := β)

theorem mk {act : HostM ω (Except HeapError α)}
    (h : HostM.Quietly act fun heap r heap' => ∀ e, r = .error e → E heap heap') :
    Fails (ExceptT.mk act) E := fun _ _ _ _ _ hs hrun hquiet =>
  (h _ _ _ _ _ hs hrun).2.2 hquiet _ rfl

theorem bind (hx : Quietly x Q) (he : Fails x E) (hq : ∀ a, Quietly (f a) (R a))
    (hf : ∀ a, Fails (f a) (F a)) : Fails (x >>= f) fun heap heap' =>
      E heap heap' ∨ ∃ a mid, mid.Sound ∧ Q heap a mid ∧ F a mid heap' := by
  intro state heap e state' heap' hs hrun hquiet
  rcases run_bind_error hrun with hfirst | ⟨a, middle, mid, hfirst, hlast⟩
  · exact .inl (he _ _ _ _ _ hs hfirst hquiet)
  · obtain ⟨hmid, hle, hQ⟩ := hx _ _ _ _ _ hs hfirst
    obtain ⟨-, hle', -⟩ := hq a _ _ _ _ _ hmid hlast
    exact .inr ⟨a, mid, hmid, hQ (by omega) a rfl, hf a _ _ _ _ _ hmid hlast (by omega)⟩

theorem quietly (he : Fails x E) (hx : Quietly x Q) :
    HostM.Quietly x.run fun heap r heap' => ∀ e, r = .error e → E heap heap' := by
  intro state heap r state' heap' hs hrun
  obtain ⟨hs', hle, -⟩ := hx _ _ _ _ _ hs hrun
  refine ⟨hs', hle, fun hquiet e hr => ?_⟩
  subst hr
  exact he _ _ _ _ _ hs hrun hquiet

theorem bind_sure (he : Fails x E) (hf : ∀ a, Sure (f a)) : Fails (x >>= f) E := by
  intro state heap e state' heap' hs hrun hquiet
  rcases run_bind_error hrun with hfirst | ⟨a, middle, mid, -, hlast⟩
  · exact he _ _ _ _ _ hs hfirst hquiet
  · exact absurd hlast (hf a _ _ _ _ _)

theorem lift_bind {act : HeapM α} (hact : ∀ heap a heap', heap.Sound →
      act.run heap = .ok (a, heap') → heap'.Sound ∧ heap'.finalizers.run = heap.finalizers.run ∧
        Q heap a heap') (hf : ∀ a, Fails (f a) (F a)) :
    Fails ((liftM act : Attempt ω α) >>= f) fun heap heap' =>
      ∃ a mid, Q heap a mid ∧ F a mid heap' := by
  intro state heap e state' heap' hs hrun hquiet
  rcases run_bind_error hrun with hfirst | ⟨a, middle, mid, hfirst, hlast⟩
  · exact absurd hfirst (Sure.lift _ _ _ _ _)
  · obtain ⟨b, hr, -, hfirst⟩ := run_lift.mp hfirst
    obtain rfl := Except.ok.inj hr
    obtain ⟨hmid, hcount, hQ⟩ := hact _ _ _ hs hfirst
    exact ⟨a, mid, hQ, hf a _ _ _ _ _ hmid hlast (hquiet.trans hcount.symm)⟩

end Fails

end Attempt

def Heap.FailsKeeping (heap heap' : Heap) (kept : List Handle) : Prop :=
  heap' = heap ∨ ∃ start mid, heap.Redrawn start heap.graph ∧ Heap.KeepsPinned
      { start with roots := { start.roots with transient := start.roots.transient ++ kept.toArray } }
      mid ∧
    heap' = { mid with roots :=
      { mid.roots with transient := mid.roots.transient.shrink start.roots.transient.size } }

theorem Heap.FailsKeeping.adds {heap heap' : Heap} {kept : List Handle} (hm : heap.FailsKeeping heap' kept) :
    heap.Adds heap' kept [] := by
  rcases hm with rfl | ⟨start, mid, hr, hw, rfl⟩
  · exact .refl heap' kept
  · have hfirst : heap.Adds start kept [] :=
      ⟨congrArg Control.roots hr.control, congrArg (fun c : Control => c.protect.slots) hr.control,
        congrArg Control.symbols hr.control, .beside hr.graph, by simp, .nil⟩
    exact hfirst.trans (Heap.Adds.closed hw.adds) (fun k hk c hc => .start (.inr hk) hc) (by simp)

namespace HostM

variable {ω : Type} {fuel : Nat} {kind : Kind} {length : Nat} {kept : List Handle}

theorem failsKeeping_allocate : Attempt.Fails (allocate (.mute fuel : Host ω) kind length kept)
    fun heap heap' => heap.FailsKeeping heap' kept := by
  unfold allocate
  dsimp only
  split
  · exact Attempt.Fails.throw_bind.mono fun _ _ _ => .inl
  rename_i hallocatable
  replace hallocatable : kind ≠ .free := HeapM.kind_ne_free (by simpa using hallocatable)
  split
  · exact Attempt.Fails.throw_bind.mono fun _ _ _ => .inl
  refine (Attempt.Fails.lift_bind (Q := fun heap h heap' => h = .noObject →
    heap.Redrawn heap' heap.graph) (F := fun h start heap' => h = .noObject ∧ ∃ mid, Heap.KeepsPinned
      { start with roots := { start.roots with transient := start.roots.transient ++ kept.toArray } }
      mid ∧ heap' = { mid with roots :=
        { mid.roots with transient := mid.roots.transient.shrink start.roots.transient.size } })
      (fun heap h heap' hs hrun => ?_) fun h => ?_).mono ?_
  · rcases HeapM.gains_allocateFast hs hrun with ⟨-, hsame⟩ | hgains
    · exact ⟨(HeapM.run_allocateFast hs hrun).1,
        congrArg (fun c : Control => c.finalizers.run) hsame.control, fun _ => hsame⟩
    · refine ⟨(HeapM.run_allocateFast hs hrun).1,
        congrArg (fun c : Control => c.finalizers.run) hgains.control, ?_⟩
      rintro rfl
      obtain ⟨payload, -, hgraph⟩ := hgains.graph
      obtain ⟨d, hd, -⟩ := Heap.graph_eq_some.mp (hgraph ▸ Graph.add_self)
      exact ((HeapM.run_allocateFast hs hrun).1.tidy.not_noObject
        (Arena.get?_eq_some.mp hd).1 rfl).elim
  · split
    · exact .sure .pure
    · rename_i hobject
      refine .mk ((Quietly.withTransient (Quietly.allocateSlow hallocatable)).conseq ?_)
      rintro start r heap' - ⟨mid, -, htries, rfl⟩ e rfl
      exact ⟨by simpa [Handle.isNoObject] using hobject, mid, htries, rfl⟩
  · rintro heap heap' - ⟨h, start, hfast, hnone, mid, hw, hclosed⟩
    exact .inr ⟨start, mid, hfast hnone, hw, hclosed⟩

theorem fails_allocate : Attempt.Fails (allocate (.mute fuel : Host ω) kind length kept)
    fun heap heap' => heap.Adds heap' kept [] := failsKeeping_allocate.mono fun _ _ _ hm => hm.adds

end HostM

end ManagedHeap
