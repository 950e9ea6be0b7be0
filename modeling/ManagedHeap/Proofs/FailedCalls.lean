import ManagedHeap.Proofs.CallEffects
import ManagedHeap.Proofs.ServiceBalance

/-!
# What failing calls leave

A call that fails leaves the roots, what they reach and what it was given. It has put nothing on
the chain of weak records, though the last resort of an allocation may have taken records without
a finalizer off it. Only an environment counts references before the last thing that can fail:
once for each binding that it had made by then.
-/

namespace ManagedHeap

variable {ω α β : Type} {fuel : Nat}

/-- The references in the first bindings of a frame that goes on with `frame`. -/
def references (frame : Handle) : List (Handle × Handle) → List Handle
  | [] => []
  | (name, value) :: rest => value :: frame :: name :: rest.flatMap fun b => [b.2, b.1]

/-- A call that was given `kept` leaves the roots and what they reach, but for the references to
`counted`, and at most takes records off the chain. -/
structure Heap.Leaves (heap heap' : Heap) (kept counted : List Handle) : Prop where
  roots : heap'.roots = heap.roots
  symbols : heap'.symbols = heap.symbols
  slots : heap.protect.slots.toList <+: heap'.protect.slots.toList
  losesUnreached : ∀ records, heap.Chain records →
    ∃ rs, heap.LosesUnreached heap' (heap.RootedOr kept) counted records rs

/-- Beside that, it makes an object. -/
structure Heap.LeavesAndMakes (heap heap' : Heap) (kept counted : List Handle) (h : Handle) : Prop where
  roots : heap'.roots = heap.roots
  symbols : heap'.symbols = heap.symbols
  slots : heap.protect.slots.toList <+: heap'.protect.slots.toList
  losesUnreached : ∀ records, heap.Chain records →
    ∃ rs, heap.LosesUnreached heap' (heap.RootedOr kept) counted records rs ∧
      ¬ heap.ReachedFrom (heap'.ReachedInTheEnd (heap.RootedOr kept) rs) h

namespace Heap

variable {heap mid heap' : Heap} {kept kept' counted more : List Handle} {h : Handle} {kind : Kind}
  {length : Nat}

theorem RootedOr.carried {p : Handle} (hroots : heap'.roots = heap.roots)
    (hsymbols : heap'.symbols = heap.symbols)
    (hslots : heap.protect.slots.toList <+: heap'.protect.slots.toList)
    (hp : heap.RootedOr kept p) : heap'.RootedOr kept p := by
  unfold RootedOr Rooted Pins at hp ⊢
  rw [hroots, hsymbols]
  exact hp.imp_left (Or.imp_left (Or.imp_right fun hmem => hslots.subset hmem))

theorem LeavesAndMakes.leaves (hb : heap.LeavesAndMakes heap' kept counted h) : heap.Leaves heap' kept counted :=
  ⟨hb.roots, hb.symbols, hb.slots, fun records hc => (hb.losesUnreached records hc).imp fun _ => And.left⟩

namespace Leaves

theorem aside (hroots : heap'.roots = heap.roots) (hsymbols : heap'.symbols = heap.symbols)
    (hslots : heap.protect.slots.toList <+: heap'.protect.slots.toList)
    (harena : heap'.arena = heap.arena) (hweak : heap'.weak = heap.weak)
    (htasks : heap'.tasks = heap.tasks) : heap.Leaves heap' kept [] :=
  ⟨hroots, hsymbols, hslots, fun records hc => ⟨records, .aside hc harena hweak htasks⟩⟩

theorem refl (heap : Heap) : heap.Leaves heap kept [] :=
  .aside rfl rfl (List.prefix_refl _) rfl rfl rfl

theorem weaken (hl : heap.Leaves heap' kept counted) (hsub : ∀ k ∈ kept', heap.RootedOr kept k) :
    heap.Leaves heap' kept' counted := by
  refine ⟨hl.roots, hl.symbols, hl.slots, fun records hc => ?_⟩
  obtain ⟨rs, hrs⟩ := hl.losesUnreached records hc
  exact ⟨rs, hrs.mono fun p hp => hp.elim .inl (hsub p)⟩

theorem trans (hfirst : heap.Leaves mid kept counted) (hlast : mid.Leaves heap' kept more) :
    heap.Leaves heap' kept (counted ++ more) := by
  refine ⟨hlast.roots.trans hfirst.roots, hlast.symbols.trans hfirst.symbols,
    hfirst.slots.trans hlast.slots, fun records hc => ?_⟩
  obtain ⟨ms, hms⟩ := hfirst.losesUnreached records hc
  obtain ⟨rs, hrs⟩ := hlast.losesUnreached ms hms.chain
  exact ⟨rs, hms.trans (hrs.mono fun p => .carried hfirst.roots hfirst.symbols hfirst.slots)⟩

theorem closed (hl : Heap.Leaves
      { heap with roots := { heap.roots with transient := heap.roots.transient ++ kept.toArray } }
      mid [] counted) :
    heap.Leaves { mid with roots :=
      { mid.roots with transient := mid.roots.transient.shrink heap.roots.transient.size } }
      kept counted := by
  refine ⟨?_, hl.symbols, hl.slots, fun records hc => ?_⟩
  · change { mid.roots with transient := mid.roots.transient.shrink heap.roots.transient.size } = _
    rw [show mid.roots = _ from hl.roots]
    simp
  · obtain ⟨rs, hrs⟩ := hl.losesUnreached records (hc.aside rfl rfl)
    refine ⟨rs, (hrs.mono fun p hp => ?_).between hc rfl rfl⟩
    unfold RootedOr Rooted Pins at hp ⊢
    simp only [RootSet.handles, List.mem_append, Array.toList_append] at hp ⊢
    tauto

theorem of_scope (hl : heap.Leaves mid kept counted) :
    heap.Leaves { mid with protect := mid.protect.truncate heap.protect.depth } kept counted := by
  refine ⟨hl.roots, hl.symbols, ?_, fun records hc => ?_⟩
  · have hcut : (mid.protect.truncate heap.protect.depth).slots.toList =
        heap.protect.slots.toList := by
      change (mid.protect.slots.shrink heap.protect.depth).toList = _
      rw [Array.toList_shrink]
      exact (List.prefix_iff_eq_take.mp hl.slots).symm
    exact hcut ▸ List.prefix_refl _
  · exact (hl.losesUnreached records hc).imp fun rs hrs => hrs.between hc rfl rfl

end Leaves

theorem KeepsPinned.leaves (hw : heap.KeepsPinned heap') : heap.Leaves heap' [] [] :=
  ⟨hw.roots, hw.symbols, hw.slots ▸ List.prefix_refl _, fun records hc =>
    (hw.losesUnreached records hc).imp fun _ hrs => hrs.mono fun _ hp => hp.resolve_right List.not_mem_nil⟩

theorem Leaves.of_redrawn (hr : heap.Redrawn heap' heap.graph) : heap.Leaves heap' kept [] :=
  ⟨congrArg Control.roots hr.control, congrArg Control.symbols hr.control,
    congrArg (fun c : Control => c.protect.slots.toList) hr.control ▸ List.prefix_refl _,
    fun records hc => ⟨records, .of_redrawn hc hr⟩⟩

theorem FailsKeeping.leaves (hm : heap.FailsKeeping heap' kept) : heap.Leaves heap' kept [] := by
  rcases hm with rfl | ⟨start, mid, hr, hw, rfl⟩
  · exact .refl heap'
  · exact (Leaves.of_redrawn hr).trans (Leaves.closed hw.leaves)

theorem LeavesAndMakes.weaken (hb : heap.LeavesAndMakes heap' kept counted h) (hsub : ∀ k ∈ kept', k ∈ kept) :
    heap.LeavesAndMakes heap' kept' counted h := by
  refine ⟨hb.roots, hb.symbols, hb.slots, fun records hc => ?_⟩
  obtain ⟨rs, hrs, hout⟩ := hb.losesUnreached records hc
  exact ⟨rs, hrs.mono fun p => Or.imp_right (hsub p),
    fun hr => hout (hr.mono fun p => Or.imp_left (Or.imp_right (hsub p)))⟩

theorem LeavesAndMakes.bind {frame cell name value : Handle} {built : List (Handle × Handle)}
    (hfirst : heap.LeavesAndMakes mid kept [value, frame, name] cell)
    (hlast : mid.Leaves heap' kept (references cell built)) :
    heap.Leaves heap' kept (references frame ((name, value) :: built)) := by
  have htrans := hfirst.leaves.trans hlast
  refine ⟨htrans.roots, htrans.symbols, htrans.slots, fun records hc => ?_⟩
  obtain ⟨ms, hms, hout⟩ := hfirst.losesUnreached records hc
  obtain ⟨rs, hrs⟩ := hlast.losesUnreached ms hms.chain
  have hrs := hrs.mono fun p => RootedOr.carried hfirst.roots hfirst.symbols hfirst.slots
  refine ⟨rs, (hms.trans hrs).recount fun k hk => ?_⟩
  have hne : k ≠ cell := by
    rintro rfl
    exact hout (hk.mono fun p => hrs.bases)
  cases built with
  | nil => rfl
  | cons b rest => simp [references, List.count_cons, Ne.symm hne]

end Heap

namespace Attempt

variable {x : Attempt ω α} {Q : Heap → α → Heap → Prop} {E : Heap → Heap → Prop}

theorem Fails.reads_bind {act : HeapM α} {f : α → Attempt ω β} (hact : act.Reads)
    (hf : ∀ a, Fails (f a) E) : Fails ((liftM act : Attempt ω α) >>= f) E := by
  refine (Fails.lift_bind (Q := fun heap _ heap' => heap' = heap) (fun heap a heap' hs hrun => ?_)
    hf).mono ?_
  · obtain rfl := hact _ _ _ hrun
    exact ⟨hs, rfl, rfl⟩
  · rintro heap heap' - ⟨a, mid, rfl, hE⟩
    exact hE

theorem Fails.protecting (he : Fails x E) (hx : Quietly x Q) : Fails (HostM.protecting x)
    fun heap heap' => ∃ mid, E heap mid ∧
      heap' = { mid with protect := mid.protect.truncate heap.protect.depth } := by
  refine .mk ((HostM.Quietly.bind (.reads .protectDepth) fun base => .bind (he.quietly hx) fun r =>
    .bind (.lift (HeapM.Safe.closeScope : HeapM.Safe (HeapM.closeScope base))
      (Q := fun heap _ heap' =>
      heap' = { heap with protect := heap.protect.truncate base }) ?_) fun _ => .pure).conseq ?_)
  · intro heap u heap' _ hrun
    obtain rfl := HeapM.run_closeScope hrun
    exact ⟨rfl, rfl⟩
  · rintro heap r heap' - ⟨base, _, -, ⟨hbase, rfl⟩, r', mid, -, hE, _, _, -, rfl, rfl, rfl⟩ e he
    simp only [HeapM.protectDepth, run_bind, run_get, run_pure] at hbase
    obtain ⟨_, _, ⟨rfl, rfl⟩, rfl, -⟩ := hbase
    exact ⟨mid, hE e he, rfl⟩

end Attempt

namespace HostM

variable {kind : Kind} {payload : Payload} {kept slots : List Handle}

theorem leavesAndMakes_construct (hfits : payload.Fits kind slots) (hkind : kind ≠ .weakRef) :
    Attempt.Quietly (do
      let h ← allocate (.mute fuel : Host ω) kind 0 kept
      setPayload h payload
      countReferences slots
      return h) fun heap h heap' => heap.LeavesAndMakes heap' kept slots h := by
  refine (quietly_allocate_bind ?_ fun h => .bind (setPayload_writes h payload) fun _ =>
      .bind (countReferences_writes slots) fun _ => .pure).quietly.conseq ?_
  · refine Attempt.Safe.start ?_
    exact Attempt.Triple.bind (allocate_fresh (Host.mute_safe fuel)) fun _ =>
      .bind (.lift HeapM.setPayload_filled) fun _ =>
      .bind (.lift (HeapM.countReferences_filled hfits)) fun _ => .pure fun _ => id
  · rintro heap h heap' -
      ⟨_, mid, hmid, hprovides, _, next, ⟨hfill, -⟩, _, _, ⟨hcount, -, -⟩, rfl, rfl⟩
    have hcontrol := hcount.control.trans hfill.control
    have hgraph := hcount.graph
    rw [hfill.graph] at hgraph
    obtain ⟨blank, hblank, hnew⟩ := hprovides.blank
    have hplain : ∀ {p : Payload}, p.suits kind = true → p.fields? = none :=
      fun hsuits => Payload.fields?_of_suits hsuits hkind
    refine ⟨(congrArg Control.roots hcontrol).trans hprovides.roots,
      (congrArg Control.symbols hcontrol).trans hprovides.symbols, ?_, fun records hc => ?_⟩
    · have hslots := (congrArg (fun c : Control => c.protect.slots) hcontrol).trans hprovides.slots
      exact hslots ▸ List.prefix_refl _
    · obtain ⟨rs, hlosesUnreached, hout⟩ := hprovides.losesUnreached records hc
      have hbases : heap'.ReachedInTheEnd (heap.RootedOr kept) rs = mid.ReachedInTheEnd (heap.RootedOr kept) rs :=
        Heap.bases_congr (congrArg Control.tasks hcontrol)
      refine ⟨rs, hlosesUnreached.fill (hbases ▸ hout) hcontrol hgraph hnew ?_ (hplain hfits.suits),
        hbases ▸ hout⟩
      exact hplain (Payload.suits_forKind? hblank)

theorem setback_construct : Attempt.Fails (do
      let h ← allocate (.mute fuel : Host ω) kind 0 kept
      setPayload h payload
      countReferences slots
      return h) fun heap heap' => heap.Leaves heap' kept [] :=
  (failsKeeping_allocate.bind_sure fun _ => .bind .lift fun _ => .bind .lift fun _ => .pure).mono
    fun _ _ _ hf => hf.leaves

theorem setback_constructor : Attempt.Fails (construct (.mute fuel : Host ω) kind payload slots)
    fun heap heap' => heap.Leaves heap' slots [] := setback_construct

theorem leaves_bindAll (bindings : List (Handle × Handle)) (frame : Handle) :
    Attempt.Quietly (bindAll (.mute fuel : Host ω) frame bindings)
      fun heap _ heap' => heap.Leaves heap' [] (references frame bindings) := by
  induction bindings generalizing frame with
  | nil =>
    refine Attempt.Quietly.pure.conseq ?_
    rintro heap h heap' - ⟨-, rfl⟩
    exact .refl heap'
  | cons b rest ih =>
    obtain ⟨name, value⟩ := b
    rw [bindAll_cons]
    refine (Attempt.Quietly.bind (leavesAndMakes_construct
      (by exact ⟨rfl, nofun, by simp [Payload.children]⟩) (by decide)) ih).conseq ?_
    rintro heap h heap' - ⟨cell, mid, -, hfirst, hlast⟩
    exact (hfirst.weaken (by simp)).bind hlast

theorem setback_bindAll (bindings : List (Handle × Handle)) (frame : Handle) :
    Attempt.Fails (bindAll (.mute fuel : Host ω) frame bindings) fun heap heap' =>
      ∃ built, built <+: bindings ∧ heap.Leaves heap' [] (references frame built) := by
  induction bindings generalizing frame with
  | nil => exact .sure .pure
  | cons b rest ih =>
    obtain ⟨name, value⟩ := b
    rw [bindAll_cons]
    refine (Attempt.Fails.bind (leavesAndMakes_construct
      (by exact ⟨rfl, nofun, by simp [Payload.children]⟩) (by decide)) setback_construct
      (leaves_bindAll rest) ih).mono ?_
    rintro heap heap' - (hfirst | ⟨cell, mid, -, hfirst, built, hbuilt, hlast⟩)
    · exact ⟨[], List.nil_prefix, hfirst.weaken (by simp)⟩
    · exact ⟨(name, value) :: built, List.cons_prefix_cons.mpr ⟨rfl, hbuilt⟩,
        (hfirst.weaken (by simp)).bind hlast⟩

theorem setback_makeEnvironment {names values : List Handle} {parent : Handle} :
    Attempt.Fails (makeEnvironment (.mute fuel : Host ω) names values parent) fun heap heap' =>
      ∃ built, built <+: (names.zip values).reverse ∧
        heap.Leaves heap' (names ++ values ++ [parent]) (references .nil built) := by
  unfold makeEnvironment
  dsimp only
  split
  · refine Attempt.Fails.throw_bind.mono ?_
    rintro heap heap' - rfl
    exact ⟨[], List.nil_prefix, .refl heap'⟩
  · have hmake : ∀ frame, Attempt.Quietly (do
        let env ← allocate (.mute fuel : Host ω) .environment 0 [frame]
        setPayload env (.environment frame parent)
        countReferences [frame, parent]
        return env) fun heap env heap' => heap.LeavesAndMakes heap' [frame] [frame, parent] env :=
      fun frame => leavesAndMakes_construct ⟨rfl, nofun, by simp [Payload.children]⟩ (by decide)
    refine .mk ((Quietly.withTransient (Attempt.Fails.quietly (Attempt.Fails.bind
      (leaves_bindAll _ .nil) (setback_bindAll _ .nil) hmake fun frame => setback_construct)
      (Attempt.Quietly.bind (leaves_bindAll _ .nil) hmake))).conseq ?_)
    rintro heap r heap' - ⟨mid, -, hinner, rfl⟩ e rfl
    rcases hinner e rfl with ⟨built, hbuilt, hleaves⟩ | ⟨frame, last, -, hbuilt, hleaves⟩
    · exact ⟨built, hbuilt, hleaves.closed⟩
    · have hall := hbuilt.trans (hleaves.weaken fun k (hk : k ∈ []) => absurd hk List.not_mem_nil)
      rw [List.append_nil] at hall
      exact ⟨_, List.prefix_refl _, hall.closed⟩

variable (kept) in
theorem setback_pushRoot {h : Handle} :
    Attempt.Fails (HostM.attempt (HeapM.pushRoot h) : Attempt ω Nat)
    fun heap heap' => heap.Leaves heap' kept [] := by
  refine .mk (.lift .pushRoot fun heap result heap' _ hrun => ?_)
  simp only [HeapM.pushRoot, run_bind] at hrun
  obtain ⟨result', mid, hpush, hrest⟩ := hrun
  obtain ⟨protect, hprotect, rfl⟩ := HeapM.run_onProtect hpush
  obtain ⟨journal, rfl, rfl⟩ : ∃ journal, result = result' ∧
      heap' = { heap with protect, journal } := by
    split at hrest
    · simp only [HeapM.note, run_bind, run_modify, run_pure] at hrest
      obtain ⟨_, _, rfl, rfl, rfl⟩ := hrest
      exact ⟨_, rfl, rfl⟩
    · obtain ⟨rfl, rfl⟩ := run_pure.mp hrest
      exact ⟨_, rfl, rfl⟩
  refine ⟨rfl, fun e he => .aside rfl rfl ?_ rfl rfl rfl⟩
  subst he
  unfold ProtectStack.push at hprotect
  split at hprotect
  · cases hprotect
  · split at hprotect
    · obtain ⟨-, rfl⟩ := Prod.mk.inj (Except.ok.inj hprotect)
      exact List.prefix_refl _
    · cases hprotect

theorem Heap.Leaves.push {heap : Heap} {h : Handle} : Heap.Leaves heap
    { heap with protect := { heap.protect with slots := heap.protect.slots.push h } } kept [] := by
  refine .aside rfl rfl ?_ rfl rfl rfl
  rw [Array.toList_push]
  exact List.prefix_append _ _

theorem setback_makeWeakRef {key value finalizer : Handle} {onExit : Bool} :
    Attempt.Fails (makeWeakRef (.mute fuel : Host ω) key value finalizer onExit)
      fun heap heap' => heap.Leaves heap' [key, value, finalizer] [] := by
  have hmake : Attempt.Fails (do
      let record ← allocate (.mute fuel : Host ω) .weakRef 0 [key, value, finalizer]
      HeapM.linkWeakRef record key value finalizer onExit
      return record) fun heap heap' => heap.Leaves heap' [key, value, finalizer] [] :=
    (failsKeeping_allocate.bind_sure fun _ => .bind .lift fun _ => .pure).mono fun _ _ _ hf => hf.leaves
  unfold makeWeakRef
  dsimp only
  split
  · refine (Attempt.Fails.reads_bind .kind fun k =>
      (?_ : Attempt.Fails _ fun heap heap' => heap.Leaves heap' [key, value, finalizer] []))
    split
    · refine Attempt.Fails.throw_bind.mono ?_
      rintro heap heap' - rfl
      exact .refl heap'
    · exact hmake
  · exact hmake

theorem setback_enlist {key function : Handle} {onExit : Bool} :
    Attempt.Fails (do
      let _ ← HostM.attempt (HeapM.pushRoot function)
      makeWeakRef (.mute fuel : Host ω) key .nil function onExit)
      fun heap heap' => heap.Leaves heap' [key, function] [] := by
  refine (Attempt.Fails.bind .pushRoot (setback_pushRoot [key, function])
    (fun _ => quietly_makeWeakRef)
    fun _ => setback_makeWeakRef).mono ?_
  rintro heap heap' - (hpush | ⟨_, _, -, ⟨-, rfl⟩, hlast⟩)
  · exact hpush
  · exact Heap.Leaves.push.trans (hlast.weaken fun k hk => .inr (by simp_all; tauto))

theorem setback_registerFinalizer {key : Handle} {finalizer : Finalizer} {onExit : Bool} :
    Attempt.Fails (registerFinalizer (.mute fuel : Host ω) key finalizer onExit)
      fun heap heap' => heap.Leaves heap' (key :: finalizer.closures) [] := by
  have henlist : ∀ function, Attempt.Quietly (do
      let _ ← HostM.attempt (HeapM.pushRoot function)
      makeWeakRef (.mute fuel : Host ω) key .nil function onExit) fun _ _ _ => True :=
    fun function => (Attempt.Quietly.bind .pushRoot fun _ => quietly_makeWeakRef).conseq
      fun _ _ _ _ _ => trivial
  have hscope : ∀ heap heap' : Heap, heap.Sound → (∃ mid,
      heap.Leaves mid (key :: finalizer.closures) [] ∧
        heap' = { mid with protect := mid.protect.truncate heap.protect.depth }) →
      heap.Leaves heap' (key :: finalizer.closures) [] := by
    rintro heap heap' - ⟨mid, hmid, rfl⟩
    exact hmid.of_scope
  cases finalizer with
  | native routine =>
    have hnative : Attempt.Quietly (makeNativeFunction (.mute fuel : Host ω) routine)
        fun heap h heap' => heap.LeavesAndMakes heap' [] [] h :=
      leavesAndMakes_construct ⟨rfl, nofun, by simp [Payload.children]⟩ (by decide)
    refine (Attempt.Fails.protecting ((Attempt.Fails.bind .pushRoot (setback_pushRoot [key])
      (fun _ => Attempt.Quietly.bind hnative fun function => henlist function)
      fun _ => Attempt.Fails.bind hnative setback_construct henlist
        fun function => setback_enlist).mono ?_)
      (Attempt.Quietly.bind .pushRoot fun _ => Attempt.Quietly.bind hnative henlist)).mono hscope
    rintro heap heap' - (hpush | ⟨_, mid, -, ⟨-, rfl⟩, hmade | ⟨function, last, -, hmade, hlast⟩⟩)
    · exact hpush
    all_goals
      -- the key is protected by now
      have hkey : ∀ k ∈ [key], Heap.RootedOr
          { heap with protect := { heap.protect with slots := heap.protect.slots.push key } }
          [] k := by
        intro k hk
        exact .inl (.inl (.inr (by simp_all)))
    · exact Heap.Leaves.push.trans (hmade.weaken hkey)
    · exact Heap.Leaves.push.trans ((hmade.leaves.weaken hkey).trans
        (hlast.weaken fun k hk => .inr (by simp_all)))
  | closure f =>
    refine (Attempt.Fails.protecting ((Attempt.Fails.bind .pushRoot (setback_pushRoot [key, f])
      (fun _ => henlist f) fun _ => setback_enlist).mono ?_)
      (Attempt.Quietly.bind .pushRoot fun _ => henlist f)).mono hscope
    rintro heap heap' - (hpush | ⟨_, mid, -, ⟨-, rfl⟩, hlast⟩)
    · exact hpush
    · exact Heap.Leaves.push.trans hlast

theorem setback_defineVar {env sym value : Handle} :
    Attempt.Fails (defineVar (.mute fuel : Host ω) env sym value)
      fun heap heap' => heap.Leaves heap' [env, sym, value] [] := by
  refine Attempt.Fails.reads_bind .frameBinding fun binding => ?_
  cases binding with
  | some cell => exact .sure .lift
  | none =>
    exact Attempt.Fails.reads_bind .envFrame fun frame => (failsKeeping_allocate.bind_sure fun _ =>
      .bind .lift fun _ => .bind .lift fun _ => .bind .lift fun _ => .lift).mono
        fun _ _ _ hf => hf.leaves

theorem setback_setVectorElt {h value : Handle} {i : Nat} :
    Attempt.Fails (HostM.attempt (HeapM.setVectorElt h i value) : Attempt ω Unit)
      fun heap heap' => heap.Leaves heap' [h, value] [] := by
  refine .mk ((HostM.Quietly.lift .setVectorElt (Q := fun heap result heap' =>
    ∀ e, result = .error e → heap.Redrawn heap' heap.graph) fun heap result heap' _ hrun => ?_).conseq
      fun heap result heap' _ hr e he => .of_redrawn (hr e he))
  rcases HeapM.redrawn_setVectorElt hrun with ⟨-, hr⟩ | ⟨c, elements, old, -, -, -, rfl, hr⟩
  · exact ⟨congrArg (fun c : Control => c.finalizers.run) hr.control, fun _ _ => hr⟩
  · exact ⟨congrArg (fun c : Control => c.finalizers.run) hr.control, nofun⟩

end HostM

/-- The calls that make an object of their arguments or bind a symbol. -/
def Call.Plain : Call → Prop
  | .symbol _ | .duplicate _ => False
  | _ => True

/-- What is asked of a heap and ends with an error where it cannot be done. -/
inductive FallibleCall
  | call (c : Call) (plain : c.Plain)
  | setVectorElt (vector : Handle) (index : Nat) (value : Handle)

namespace FallibleCall

/-- Run the call. Answers the object that it makes, or the vector that it writes. -/
def run (host : Host ω) : FallibleCall → Attempt ω Handle
  | call c _ => c.run host
  | setVectorElt vector index value => do
    HostM.attempt (HeapM.setVectorElt vector index value)
    return vector

/-- The handles that the call is given. -/
def args : FallibleCall → List Handle
  | call c _ => c.args
  | setVectorElt vector _ value => [vector, value]

/-- The references that a call that fails may have counted: those in the bindings that an
environment had made by then, which it makes from the last to the first. -/
def Counts : FallibleCall → List Handle → Prop
  | call (.environment names values _) _, counted =>
      ∃ built, built <+: (names.zip values).reverse ∧ counted = references .nil built
  | _, counted => counted = []

theorem balanced {host : Host ω} (fallibleCall : FallibleCall) : Attempt.Balanced host (fallibleCall.run host) := by
  cases fallibleCall with
  | call c _ => exact c.balanced
  | setVectorElt => exact .bind (.mk (.leavesRootsAndTasks .setVectorElt)) fun _ => .pure

theorem fails (fallibleCall : FallibleCall) : Attempt.Fails (fallibleCall.run (.mute fuel : Host ω))
    fun heap heap' => ∃ counted, fallibleCall.Counts counted ∧ heap.Leaves heap' fallibleCall.args counted := by
  cases fallibleCall with
  | setVectorElt =>
    exact (HostM.setback_setVectorElt.bind_sure fun _ => .pure).mono fun _ _ _ hl => ⟨[], rfl, hl⟩
  | call c hplain =>
    cases c with
    | cons | lcons | closure | promise | externalPtr | byteCode =>
      exact HostM.setback_constructor.mono fun _ _ _ hl => ⟨[], rfl, hl⟩
    | environment =>
      refine HostM.setback_makeEnvironment.mono ?_
      rintro heap heap' - ⟨built, hbuilt, hleaves⟩
      exact ⟨_, ⟨built, hbuilt, rfl⟩, hleaves⟩
    | weakRef => exact HostM.setback_makeWeakRef.mono fun _ _ _ hl => ⟨[], rfl, hl⟩
    | register key finalizer onExit =>
      have hfails : Attempt.Fails
          (HostM.registerFinalizer (.mute fuel : Host ω) key finalizer onExit)
        fun heap heap' => heap.Leaves heap' (key :: finalizer.closures) [] :=
        HostM.setback_registerFinalizer
      cases finalizer with
      | native | closure => exact hfails.mono fun _ _ _ hl => ⟨[], rfl, hl⟩
    | defineVar =>
      exact (HostM.setback_defineVar.bind_sure fun _ => .pure).mono fun _ _ _ hl => ⟨[], rfl, hl⟩
    | symbol | duplicate => exact hplain.elim

end FallibleCall

namespace Session

/-- The weak chain of a heap that a session reaches is sound. -/
theorem Reachable.readable {state : State} {heap : Heap} (hr : Reachable state heap) :
    heap.Readable := by
  obtain ⟨_, _, _, hbuild, _, ht⟩ := hr.evolves
  exact WeakRun.readable ht.follows ⟨[], (Heap.build_chain hbuild).1⟩

/-- In whatever state: a call that ends with an error, and inside which no finalizer runs,
leaves the roots and the protection stack. What they reached, and what the call was given, lives
on with all that it held, and is referenced as often as it was, but for the bindings that an
environment had made. The chain of weak records is what it was, but for records without a
finalizer, whose keys were found dead: they may have been cleared and taken off. -/
theorem failures_leave_surroundings {state : State} {heap heap' : Heap} {fallibleCall : FallibleCall}
    {s s' : ω} {e : HeapError} (hr : Reachable state heap)
    (hrun : ((fallibleCall.run (Host.mute fuel)).run.run s).run heap = .ok ((.error e, s'), heap'))
    (hquiet : heap'.finalizers.run = heap.finalizers.run) :
    heap'.roots = heap.roots ∧ heap'.protect.slots = heap.protect.slots ∧
      ∃ counted records rs, fallibleCall.Counts counted ∧
        heap.LosesUnreached heap' (heap.RootedOr fallibleCall.args) counted records rs := by
  obtain ⟨counted, hcounts, hleaves⟩ := fallibleCall.fails _ _ _ _ _ hr.sound hrun hquiet
  obtain ⟨records, hc⟩ := hr.readable
  obtain ⟨rs, hlosesUnreached⟩ := hleaves.losesUnreached records hc
  have hdepth := (fallibleCall.balanced.run.balances hrun).1
  refine ⟨hleaves.roots, ?_, counted, records, rs, hcounts, hlosesUnreached⟩
  exact (Array.toList_inj.mp (hleaves.slots.eq_of_length hdepth.symm)).symm

/-- A full heap. A record without a finalizer watches a dead pair, and only a task holds a large
vector. -/
def crowded : List Step :=
  [.command (.request (.allocate .symbol 0 [])) (some "s"),
    .command (.preserve (.register "s")) none,
    .command (.request (.cons (.handle .nil) (.handle .nil))) (some "v"),
    .command (.preserve (.register "v")) none,
    .command (.request (.cons (.handle .nil) (.handle .nil))) (some "k"),
    .command (.request (.weakRef (.register "k") (.register "v") (.handle .nil) false)) (some "w"),
    .command (.preserve (.register "w")) none,
    .command (.request (.allocate .realVector 200 [])) (some "l"),
    .command (.setScheduler .registry) none,
    .command (.task .beginOutput (.register "l")) none,
    .times 2 [.command (.request (.cons (.handle .nil) (.handle .nil))) (some "x"),
      .command (.preserve (.register "x")) none]]

/-- An environment for which there is no room leaves what it was to bind. -/
theorem environment_leaves_crowded : ∃ heap e heap' counted records rs,
    called { segmentCells := 8, maxCells := some 16 } crowded
      (.environment [⟨2⟩] [⟨3⟩] .nil) = .ok (heap, .error e, heap') ∧
    heap'.finalizers.run = heap.finalizers.run ∧ heap'.roots = heap.roots ∧
    heap'.protect.slots = heap.protect.slots ∧
    FallibleCall.Counts (.call (.environment [⟨2⟩] [⟨3⟩] .nil) trivial) counted ∧
    heap.LosesUnreached heap' (heap.RootedOr [⟨2⟩, ⟨3⟩, .nil]) counted records rs := by
  obtain ⟨⟨heap, r, heap'⟩, hcalled, htest⟩ := except_of_test
    (x := called { segmentCells := 8, maxCells := some 16 } crowded
      (.environment [⟨2⟩] [⟨3⟩] .nil))
    (p := fun p : Heap × Except HeapError Handle × Heap =>
      !p.2.1.isOk && decide (p.2.2.finalizers.run = p.1.finalizers.run)) (by decide +kernel)
  simp only [Bool.and_eq_true, Bool.not_eq_true', decide_eq_true_eq] at htest
  obtain ⟨hfails, hquiet⟩ := htest
  cases r with
  | ok r => exact nomatch hfails
  | error e =>
    obtain ⟨ho, hrun⟩ := called_eq_ok hcalled
    obtain ⟨state, hr⟩ := reachable_of_opened rfl ho
    have hrun' : ((FallibleCall.run (.mute loopBound : Host Unit)
        (.call (.environment [⟨2⟩] [⟨3⟩] .nil) trivial)).run.run ()).run heap =
          .ok ((.error e, ()), heap') := hrun
    obtain ⟨hroots, hslots, counted, records, rs, hcounts, hlosesUnreached⟩ :=
      failures_leave_surroundings hr hrun' hquiet
    exact ⟨heap, e, heap', counted, records, rs, hcalled, hquiet, hroots, hslots, hcounts, hlosesUnreached⟩

/-- It has counted the references in the one binding that it made. The record is cleared and off the
chain, and the vector died with the end of the task. -/
theorem environment_spoils_crowded : ∃ heap e heap' c d,
    called { segmentCells := 8, maxCells := some 16 } crowded
      (.environment [⟨2⟩] [⟨3⟩] .nil) = .ok (heap, .error e, heap') ∧
    heap'.finalizers.run = heap.finalizers.run ∧
    (heap.arena.get? ⟨3⟩ = some c ∧ c.header.refcount = .zero ∧
      heap'.arena.get? ⟨3⟩ = some d ∧ d.header.refcount = .one) ∧
    (heap.arena.Record ⟨5⟩ ⟨⟨4⟩, ⟨3⟩, .nil, .nil⟩ ∧ heap'.arena.Record ⟨5⟩ .empty) ∧
    (heap.arena.weakRecords heap.weak = .ok [⟨5⟩] ∧
      heap'.arena.weakRecords heap'.weak = .ok []) ∧
    (heap.tasks.held = [⟨4096⟩] ∧ heap.arena.contains ⟨4096⟩ = true ∧
      heap'.arena.contains ⟨4096⟩ = false) := by
  obtain ⟨⟨heap, r, heap'⟩, hcalled, htest⟩ := except_of_test
    (x := called { segmentCells := 8, maxCells := some 16 } crowded
      (.environment [⟨2⟩] [⟨3⟩] .nil))
    (p := fun p : Heap × Except HeapError Handle × Heap =>
      !p.2.1.isOk && decide (p.2.2.finalizers.run = p.1.finalizers.run) &&
      (p.1.arena.get? ⟨3⟩).any (fun c : Cell => decide (c.header.refcount = .zero)) &&
      (p.2.2.arena.get? ⟨3⟩).any (fun d : Cell => decide (d.header.refcount = .one)) &&
      decide ((p.1.arena.weakFields ⟨5⟩).toOption = some ⟨⟨4⟩, ⟨3⟩, .nil, .nil⟩) &&
      decide ((p.2.2.arena.weakFields ⟨5⟩).toOption = some .empty) &&
      decide ((p.1.arena.weakRecords p.1.weak).toOption = some [⟨5⟩]) &&
      decide ((p.2.2.arena.weakRecords p.2.2.weak).toOption = some []) &&
      decide (p.1.tasks.held = [⟨4096⟩]) && p.1.arena.contains ⟨4096⟩ &&
      !p.2.2.arena.contains ⟨4096⟩)
    (by decide +kernel)
  simp only [Bool.and_eq_true, Bool.not_eq_true', decide_eq_true_eq, Option.any_eq_true] at htest
  obtain ⟨⟨⟨⟨⟨⟨⟨⟨⟨⟨hfails, hquiet⟩, c, hc, hzero⟩, d, hd, hone⟩, hfilled⟩, hcleared⟩, hchain⟩,
    hchain'⟩, hheld⟩, hlive⟩, hdead⟩ := htest
  cases r with
  | ok r => exact nomatch hfails
  | error e =>
    exact ⟨heap, e, heap', c, d, hcalled, hquiet, ⟨hc, hzero, hd, hone⟩,
      ⟨Arena.weakFields_eq_ok.mp (eq_ok_of_toOption hfilled),
        Arena.weakFields_eq_ok.mp (eq_ok_of_toOption hcleared)⟩,
      ⟨eq_ok_of_toOption hchain, eq_ok_of_toOption hchain'⟩, hheld, hlive, hdead⟩

end Session

end ManagedHeap
