import ManagedHeap.Proofs.OperationCacheSteps

/-!
# Foreign code and finalizers in cache steps

Foreign code keeps to rules if every run of it comes down to steps that they allow. Then so
do the finalizers that run it, between the steps of the collector. What is said of the state
of the foreign code is an invariant of its own.
-/

namespace ManagedHeap

variable {ω α β : Type} {r s : CacheRules} {pins : List Handle} {I : ω → Prop}

def HostM.CacheTriple (r : CacheRules) (pins : List Handle) (I : ω → Prop) (P : Heap → Prop)
    (act : HostM ω α) (Q : α → Heap → Prop) : Prop :=
  ∀ state heap a state' heap', I state → heap.Guards pins → P heap →
    (act.run state).run heap = .ok ((a, state'), heap') →
    I state' ∧ heap.CacheSteps r pins heap' ∧ Q a heap'

abbrev HostM.ByCacheSteps (r : CacheRules) (pins : List Handle) (I : ω → Prop) (act : HostM ω α) : Prop :=
  CacheTriple r pins I Heap.Sound act fun _ => Heap.Sound

/-- The foreign code keeps to the rules, whatever operations under way rely on. -/
structure Host.ByCacheSteps (s : CacheRules) (I : ω → Prop) (host : Host ω) : Prop where
  safe : host.Safe
  native : ∀ {pins}, s.Admits pins → ∀ routine key, HostM.ByCacheSteps s pins I (host.native routine key)
  evaluate : ∀ {pins}, s.Admits pins → ∀ evaluator function key,
    HostM.ByCacheSteps s pins I (host.evaluate evaluator function key)

theorem CacheRules.Within.admits (hw : s.Within r) (ha : r.Admits pins) : s.Admits pins :=
  fun hcuts => ha (hw.cuts hcuts)

theorem Heap.CacheSteps.between {deeper hs : List Handle} {heap stop : Heap}
    (hm : (heap.keeping (heap.roots.transient ++ hs.toArray)).CacheSteps s deeper stop)
    (hw : s.Within r) (hg : heap.Guards pins) (hle : pins <+: deeper)
    (hd : deeper <+: heap.pinned ++ hs) :
    heap.CacheSteps r pins (stop.keeping (stop.roots.transient.shrink heap.roots.transient.size)) := by
  have hopen : heap.CacheStep r pins (heap.keeping (heap.roots.transient ++ hs.toArray)) := by
    refine .aside ⟨fun _ => rfl, rfl, rfl, rfl, List.prefix_refl _⟩ fun hpins => ?_
    rw [Heap.PinsAll, Heap.pinned_added]
    exact hpins.trans (List.prefix_append _ _)
  have hdeeper : (heap.keeping (heap.roots.transient ++ hs.toArray)).PinsAll deeper := by
    rw [Heap.PinsAll, Heap.pinned_added]
    exact hd
  have hcacheExact := (Heap.CacheSteps.guards (.single hopen) hg).cacheExact
  refine (Relation.ReflTransGen.head hopen (hm.mono hw hle hcacheExact hdeeper)).tail ?_
  refine .aside ⟨fun _ => rfl, rfl, rfl, rfl, List.prefix_refl _⟩ fun hpins => ?_
  rw [Heap.PinsAll, Heap.pinned_cut]
  refine List.prefix_take_iff.mpr ⟨hpins, ?_⟩
  rw [← heap.length_pinned]
  exact hg.pins.length_le

namespace HostM

namespace CacheTriple

variable {x act : HostM ω α} {f : α → HostM ω β} {P P' N : Heap → Prop} {Q Q' : α → Heap → Prop}
  {R : β → Heap → Prop}

theorem bind (hx : CacheTriple r pins I P x Q) (hf : ∀ a, CacheTriple r pins I (Q a) (f a) R) :
    CacheTriple r pins I P (x >>= f) R := by
  intro state heap b state' heap' hI hg hP hrun
  obtain ⟨a, between, mid, hfirst, hrest⟩ := run_bindM.mp hrun
  obtain ⟨hI', hmoves, hQ⟩ := hx state heap a between mid hI hg hP hfirst
  obtain ⟨hI'', hmoves', hR⟩ := hf a between mid b state' heap' hI' (hmoves.guards hg) hQ hrest
  exact ⟨hI'', hmoves.trans hmoves', hR⟩

theorem pure {a : α} (h : ∀ heap, P heap → Q a heap) :
    CacheTriple r pins I P (pure a : HostM ω α) Q := by
  intro state heap b state' heap' hI _ hP hrun
  obtain ⟨hsame, rfl⟩ := run_pure.mp hrun
  obtain ⟨rfl, rfl⟩ := Prod.mk.inj hsame
  exact ⟨hI, .refl, h heap hP⟩

theorem conseq (hx : CacheTriple r pins I P x Q) (hP : ∀ heap, P' heap → P heap)
    (hQ : ∀ a heap, Q a heap → Q' a heap) : CacheTriple r pins I P' x Q' := by
  intro state heap a state' heap' hI hg hstart hrun
  obtain ⟨hI', hmoves, hend⟩ := hx state heap a state' heap' hI hg (hP heap hstart) hrun
  exact ⟨hI', hmoves, hQ a heap' hend⟩

theorem throw {e : Fault} : CacheTriple r pins I P (throwThe Fault e : HostM ω α) Q :=
  fun _ _ _ _ _ _ _ _ hrun => nomatch hrun

theorem lift {act : HeapM α} (h : act.CacheTriple r pins P Q) :
    CacheTriple r pins I P (liftM act : HostM ω α) Q := by
  intro state heap a state' heap' hI hg hP hrun
  obtain ⟨rfl, hact⟩ := run_liftM.mp hrun
  exact ⟨hI, h heap a heap' hg hP hact⟩

theorem mono (hw : s.Within r) (hx : CacheTriple s pins I P x Q) : CacheTriple r pins I P x Q := by
  intro state heap a state' heap' hI hg hP hrun
  obtain ⟨hI', hmoves, hQ⟩ := hx state heap a state' heap' hI hg hP hrun
  exact ⟨hI', hmoves.mono hw (List.prefix_refl _) hg.cacheExact hg.pins, hQ⟩

theorem frame (hN : ∀ heap heap', heap.Guards pins → heap.CacheSteps r pins heap' → N heap → N heap')
    (hx : CacheTriple r pins I P x Q) :
    CacheTriple r pins I (fun heap => P heap ∧ N heap) x fun a heap => Q a heap ∧ N heap := by
  intro state heap a state' heap' hI hg hP hrun
  obtain ⟨hI', hmoves, hQ⟩ := hx state heap a state' heap' hI hg hP.1 hrun
  exact ⟨hI', hmoves, hQ, hN heap heap' hg hmoves hP.2⟩

theorem of_and {φ : Prop} (h : φ → CacheTriple r pins I P x Q) :
    CacheTriple r pins I (fun heap => P heap ∧ φ) x Q :=
  fun state heap a state' heap' hI hg hP hrun =>
    h hP.2 state heap a state' heap' hI hg hP.1 hrun

theorem and_triple {M : α → Heap → Prop} (hx : CacheTriple r pins I P x Q) (h : Triple P x M) :
    CacheTriple r pins I P x fun a heap => Q a heap ∧ M a heap := by
  intro state heap a state' heap' hI hg hP hrun
  obtain ⟨hI', hmoves, hQ⟩ := hx state heap a state' heap' hI hg hP hrun
  exact ⟨hI', hmoves, hQ, h state heap _ heap' hP hrun⟩

theorem getHeap {Q : Heap → Heap → Prop} (h : ∀ heap, P heap → Q heap heap) :
    CacheTriple r pins I P (getThe Heap : HostM ω Heap) Q :=
  lift (.of_byCacheSteps (.get h) (.of_reads .get))

theorem getState {Q : ω → Heap → Prop} (h : ∀ heap a, I a → P heap → Q a heap) :
    CacheTriple r pins I P (getThe ω : HostM ω ω) Q := by
  intro state heap a state' heap' hI _ hP hrun
  obtain ⟨hsame, rfl⟩ := run_pure.mp hrun
  obtain ⟨rfl, rfl⟩ := Prod.mk.inj hsame
  exact ⟨hI, .refl, h heap _ hI hP⟩

theorem modifyState {g : ω → ω} {Q : PUnit → Heap → Prop} (hI : ∀ a, I a → I (g a))
    (h : ∀ heap, P heap → Q ⟨⟩ heap) : CacheTriple r pins I P (modifyThe ω g : HostM ω PUnit) Q := by
  intro state heap a state' heap' hstart _ hP hrun
  obtain ⟨hsame, rfl⟩ := run_pure.mp hrun
  obtain ⟨rfl, rfl⟩ := Prod.mk.inj hsame
  exact ⟨hI state hstart, .refl, h heap hP⟩

theorem withTransient {hs : List Handle} {Q Q' : α → Heap → Prop} (hact : CacheTriple r pins I P' act Q')
    (hP : ∀ heap transient, P heap → P' (heap.keeping transient))
    (hQ : ∀ a heap transient, Q' a heap → Q a (heap.keeping transient)) :
    CacheTriple r pins I P (HostM.withTransient hs act) Q := by
  intro state heap a state' heap' hI hg hstart hrun
  obtain ⟨stop, hbody, rfl⟩ := run_withTransient hrun
  have hopen : heap.CacheStep r pins (heap.keeping (heap.roots.transient ++ hs.toArray)) := by
    refine .aside ⟨fun _ => rfl, rfl, rfl, rfl, List.prefix_refl _⟩ fun hpins => ?_
    rw [Heap.PinsAll, Heap.pinned_added]
    exact hpins.trans (List.prefix_append _ _)
  obtain ⟨hI', hmoves, hend⟩ := hact state _ a state' stop hI (Heap.CacheSteps.guards (.single hopen) hg)
    (hP _ _ hstart) hbody
  exact ⟨hI', hmoves.between (.refl r) hg (List.prefix_refl _)
    (hg.pins.trans (List.prefix_append _ _)), hQ a stop _ hend⟩

end CacheTriple

namespace ByCacheSteps

variable {x : HostM ω α} {f : α → HostM ω β}

theorem bind (hx : ByCacheSteps r pins I x) (hf : ∀ a, ByCacheSteps r pins I (f a)) : ByCacheSteps r pins I (x >>= f) :=
  CacheTriple.bind hx hf

theorem pure {a : α} : ByCacheSteps r pins I (pure a : HostM ω α) := CacheTriple.pure fun _ => id

theorem throw {e : Fault} : ByCacheSteps r pins I (throwThe Fault e : HostM ω α) := CacheTriple.throw

theorem lift {act : HeapM α} (hsafe : act.Safe) (hbyCacheSteps : act.ByCacheSteps r pins) :
    ByCacheSteps r pins I (liftM act : HostM ω α) := CacheTriple.lift (.of_byCacheSteps hsafe hbyCacheSteps)

theorem reads {act : HeapM α} (h : act.Reads) : ByCacheSteps r pins I (liftM act : HostM ω α) :=
  lift (.of_reads h) (.of_reads h)

theorem getHeap : ByCacheSteps r pins I (getThe Heap : HostM ω Heap) := CacheTriple.getHeap fun _ => id

theorem modifyState {g : ω → ω} (hI : ∀ a, I a → I (g a)) :
    ByCacheSteps r pins I (modifyThe ω g : HostM ω PUnit) := CacheTriple.modifyState hI fun _ => id

theorem note {e : Event} : ByCacheSteps r pins I (liftM (HeapM.note e) : HostM ω PUnit) := lift .note .note

theorem modifyHeap {g : Heap → Heap} (hconfig : ∀ heap, (g heap).config = heap.config)
    (harena : ∀ heap, (g heap).arena = heap.arena)
    (hstrings : ∀ heap, (g heap).strings = heap.strings)
    (hremembered : ∀ heap, (g heap).remembered = heap.remembered)
    (htasks : ∀ heap, (g heap).tasks = heap.tasks)
    (hsymbols : ∀ heap, (g heap).symbols = heap.symbols)
    (htransient : ∀ heap, (g heap).roots.transient = heap.roots.transient)
    (hhistory : ∀ heap, (g heap).history = heap.history) :
    ByCacheSteps r pins I (modifyThe Heap g : HostM ω PUnit) :=
  lift (.modify hconfig harena hstrings hremembered htasks)
    (.modify (fun heap => ⟨fun h => by rw [harena], hstrings heap, hsymbols heap, hconfig heap,
      hhistory heap ▸ List.prefix_refl _⟩) htransient)

theorem withTransient {hs : List Handle} {act : HostM ω α} (hact : ByCacheSteps r pins I act) :
    ByCacheSteps r pins I (HostM.withTransient hs act) :=
  CacheTriple.withTransient hact (fun _ transient hs => hs.keeping transient)
    fun _ _ transient hs => hs.keeping transient

variable {host : Host ω}

theorem stepBound : ByCacheSteps r pins I (stepBound host) := bind (reads .walkBound) fun _ => pure

theorem invoke (hhost : host.ByCacheSteps s I) (ha : s.Admits pins) (function key : Handle) :
    ByCacheSteps s pins I (invoke host function key) := by
  refine bind (reads .kind) fun k => ?_
  cases k
  case nativeFunction =>
    refine bind (reads .payload) fun p => ?_
    cases p
    case nativeFunction routine =>
      cases routine with
      | none => exact pure
      | some routine => exact hhost.native ha routine key
    all_goals exact reads .wrongKind
  case closure =>
    refine bind getHeap fun heap => ?_
    cases heap.evaluator with
    | none => exact pure
    | some evaluator =>
      refine bind ?_ fun _ => bind (hhost.evaluate ha evaluator function key) fun outcome =>
        bind getHeap fun after => ?_
      · exact modifyHeap (fun _ => rfl) (fun _ => rfl) (fun _ => rfl) (fun _ => rfl) (fun _ => rfl)
          (fun _ => rfl) (fun _ => rfl) fun _ => rfl
      · split
        · refine bind ?_ fun _ => pure
          exact modifyHeap (fun _ => rfl) (fun _ => rfl) (fun _ => rfl) (fun _ => rfl)
            (fun _ => rfl) (fun _ => rfl) (fun _ => rfl) fun _ => rfl
        · exact pure
  all_goals exact throw

theorem runFinalizer (hhost : host.ByCacheSteps s I) (ha : s.Admits pins) (record function key : Handle) :
    ByCacheSteps s pins I (runFinalizer host record function key) := by
  refine bind (withTransient (bind (lift .noteCall .noteCall) fun _ => ?_)) fun outcome =>
    bind (lift .countRun .countRun) fun _ => ?_
  · refine CacheTriple.bind (Q := fun scope heap => heap.Sound ∧ pins.length ≤ scope.transient)
      (.lift ?_) fun scope => .of_and fun hscope => ?_
    · intro heap scope heap' hg hs hrun
      obtain ⟨hdepth, rfl⟩ := HeapM.run_enterRecovery hrun
      refine ⟨.refl, hs, ?_⟩
      rw [hdepth, ← Heap.length_pinned]
      exact hg.pins.length_le
    · refine bind (invoke hhost ha function key) fun outcome =>
        bind (lift .leaveRecovery (.leaveRecovery hscope)) fun changed => ?_
      split
      · exact bind note fun _ => pure
      · exact pure
  · cases outcome with
    | ok u => exact pure
    | error e => exact bind (lift .modifyFinalizers .modifyFinalizers) fun _ => note

theorem finalizePass (hhost : host.ByCacheSteps s I) (ha : s.Admits pins) (fuel : Nat)
    (previous cursor : Handle) (found : Bool) (ran : Nat) :
    ByCacheSteps s pins I (finalizePass host previous cursor found ran fuel) := by
  induction fuel generalizing previous cursor found ran with
  | zero => exact throw
  | succ fuel ih =>
    unfold HostM.finalizePass
    split
    · exact pure
    · refine bind (reads .chainFields) fun fields => bind (reads .flags) fun flags => ?_
      split
      · exact ih cursor fields.next found ran
      · refine bind (CacheTriple.lift .unlinkWeakRef) fun _ => ?_
        split
        · exact ih previous fields.next true ran
        · exact bind (runFinalizer hhost ha cursor fields.finalizer fields.key) fun _ =>
            ih previous fields.next true (ran + 1)

theorem finalizePasses (hhost : host.ByCacheSteps s I) (ha : s.Admits pins) (fuel ran : Nat) :
    ByCacheSteps s pins I (finalizePasses host ran fuel) := by
  induction fuel generalizing ran with
  | zero => exact throw
  | succ fuel ih =>
    refine bind getHeap fun heap => bind stepBound fun bound =>
      bind (finalizePass hhost ha bound .nil heap.weak.head false ran) fun result => ?_
    obtain ⟨found, ran⟩ := result
    dsimp only
    split
    · exact ih ran
    · exact pure

theorem runPendingFinalizers (hhost : host.ByCacheSteps s I) (ha : s.Admits pins) :
    ByCacheSteps s pins I (runPendingFinalizers host) := by
  refine bind getHeap fun heap => ?_
  split
  · exact pure
  · exact bind (lift .modifyFinalizers .modifyFinalizers) fun _ =>
      bind (finalizePasses hhost ha host.fuel 0) fun ran =>
      bind (lift .modifyFinalizers .modifyFinalizers) fun _ => pure

theorem runExitFinalizers (hhost : host.ByCacheSteps s I) (ha : s.Admits pins) :
    ByCacheSteps s pins I (runExitFinalizers host) := by
  refine bind getHeap fun heap => ?_
  split
  · exact pure
  · exact bind (reads .weakRecords) fun records =>
      bind (lift (.flagOnExit records) (.flagOnExit records)) fun _ =>
      bind (runPendingFinalizers hhost ha) fun ran =>
      bind (lift .modifyFinalizers .modifyFinalizers) fun _ => bind note fun _ => pure

theorem requestCollection (hhost : host.ByCacheSteps s I) (ha : s.Admits pins) (level : Level) :
    ByCacheSteps s pins I (requestCollection host level) :=
  bind (CacheTriple.lift .collect) fun _ => bind (runPendingFinalizers hhost ha) fun _ => pure

end ByCacheSteps

end HostM

end ManagedHeap
