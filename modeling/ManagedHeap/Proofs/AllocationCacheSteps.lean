import ManagedHeap.Proofs.HostCacheSteps
import ManagedHeap.Proofs.MemoryShortage
import ManagedHeap.Proofs.AllocationWeakRuns

/-!
# Allocation and construction in cache steps

An allocation keeps to the rules of the foreign code that it may run, and what it is told to
keep it keeps, unless the foreign code cuts. The constructors fill what it answers. Where it
fails for want of memory, it has an excuse.
-/

namespace ManagedHeap

def HeapError.Plain (e : HeapError) : Prop := ∀ kind length, e ≠ .outOfMemory kind length

variable {ω α β : Type} {r s : CacheRules} {pins : List Handle} {I : ω → Prop}

def Attempt.CacheTriple (r : CacheRules) (pins : List Handle) (I : ω → Prop) (P : Heap → Prop)
    (act : Attempt ω α) (Q : α → Heap → Prop) : Prop :=
  HostM.CacheTriple r pins I P act.run fun
    | .ok a => Q a
    | .error e => fun heap => heap.Sound ∧ heap.NonePendingBefore e

abbrev Attempt.ByCacheSteps (r : CacheRules) (pins : List Handle) (I : ω → Prop) (act : Attempt ω α) : Prop :=
  CacheTriple r pins I Heap.Sound act fun _ => Heap.Sound

namespace Attempt.CacheTriple

variable {x : Attempt ω α} {f : α → Attempt ω β} {P P' N : Heap → Prop} {Q Q' : α → Heap → Prop}
  {R : β → Heap → Prop}

theorem bind (hx : CacheTriple r pins I P x Q) (hf : ∀ a, CacheTriple r pins I (Q a) (f a) R) :
    CacheTriple r pins I P (x >>= f) R := by
  unfold CacheTriple
  rw [ExceptT.run_bind]
  refine HostM.CacheTriple.bind hx ?_
  rintro (e | a)
  · exact .pure fun _ => id
  · exact hf a

theorem pure {a : α} (h : ∀ heap, P heap → Q a heap) :
    CacheTriple r pins I P (pure a : Attempt ω α) Q := HostM.CacheTriple.pure h

theorem throw {e : HeapError} (he : e.Plain) (h : ∀ heap, P heap → heap.Sound) :
    CacheTriple r pins I P (throw e : Attempt ω α) Q :=
  HostM.CacheTriple.pure fun heap hP => ⟨h heap hP, .of_ne he⟩

theorem throw_bind {e : HeapError} {R : β → Heap → Prop} (he : e.Plain)
    (h : ∀ heap, P heap → heap.Sound) :
    CacheTriple r pins I P ((throwThe HeapError e : Attempt ω α) >>= f) R := throw (α := β) he h

theorem throwFault {e : Fault} : CacheTriple r pins I P (throwThe Fault e : Attempt ω α) Q :=
  fun _ _ _ _ _ _ _ _ hrun => nomatch hrun

theorem conseq (hx : CacheTriple r pins I P x Q) (hP : ∀ heap, P' heap → P heap)
    (hQ : ∀ a heap, Q a heap → Q' a heap) : CacheTriple r pins I P' x Q' := by
  refine HostM.CacheTriple.conseq hx hP ?_
  rintro (e | a) heap h
  · exact h
  · exact hQ a heap h

theorem mk {act : HostM ω (Except HeapError α)} (h : HostM.CacheTriple r pins I P act fun result heap =>
      match result with
      | .ok a => Q a heap
      | .error e => heap.Sound ∧ heap.NonePendingBefore e) : CacheTriple r pins I P (ExceptT.mk act) Q := by
  refine HostM.CacheTriple.conseq h (fun _ => id) ?_
  rintro (e | a) heap h
  · exact h
  · exact h

theorem run (hx : CacheTriple r pins I P x Q) : HostM.CacheTriple r pins I P x.run fun result heap =>
      match result with
      | .ok a => Q a heap
      | .error e => heap.Sound ∧ heap.NonePendingBefore e := by
  refine HostM.CacheTriple.conseq hx (fun _ => id) ?_
  rintro (e | a) heap h
  · exact h
  · exact h

theorem liftHost {act : HostM ω α} (h : HostM.CacheTriple r pins I P act Q) :
    CacheTriple r pins I P (liftM act : Attempt ω α) Q := by
  unfold CacheTriple
  change HostM.CacheTriple r pins I P (Functor.map Except.ok act) _
  rw [← bind_pure_comp]
  exact HostM.CacheTriple.bind h fun a => .pure fun _ => id

theorem lift {act : HeapM α} (h : act.CacheTriple r pins P Q) :
    CacheTriple r pins I P (liftM act : Attempt ω α) Q := liftHost (.lift h)

theorem mono (hw : s.Within r) (hx : CacheTriple s pins I P x Q) : CacheTriple r pins I P x Q :=
  HostM.CacheTriple.mono hw hx

theorem frame (hN : ∀ heap heap', heap.Guards pins → heap.CacheSteps r pins heap' → N heap → N heap')
    (hx : CacheTriple r pins I P x Q) :
    CacheTriple r pins I (fun heap => P heap ∧ N heap) x fun a heap => Q a heap ∧ N heap := by
  refine HostM.CacheTriple.conseq (HostM.CacheTriple.frame hN hx) (fun _ => id) ?_
  rintro (e | a) heap h
  · exact h.1
  · exact h

theorem and_triple {M : α → Heap → Prop} {E : Heap → Prop} (hx : CacheTriple r pins I P x Q)
    (h : Triple P x M E) : CacheTriple r pins I P x fun a heap => Q a heap ∧ M a heap := by
  refine HostM.CacheTriple.conseq (HostM.CacheTriple.and_triple hx h) (fun _ => id) ?_
  rintro (e | a) heap h
  · exact h.1
  · exact h

end Attempt.CacheTriple

namespace Attempt.ByCacheSteps

variable {x : Attempt ω α} {f : α → Attempt ω β}

theorem bind (hx : ByCacheSteps r pins I x) (hf : ∀ a, ByCacheSteps r pins I (f a)) : ByCacheSteps r pins I (x >>= f) :=
  CacheTriple.bind hx hf

theorem pure {a : α} : ByCacheSteps r pins I (pure a : Attempt ω α) := CacheTriple.pure fun _ => id

theorem liftHost {act : HostM ω α} (h : HostM.ByCacheSteps r pins I act) :
    ByCacheSteps r pins I (liftM act : Attempt ω α) := CacheTriple.liftHost h

theorem lift {act : HeapM α} (hsafe : act.Safe) (hbyCacheSteps : act.ByCacheSteps r pins) :
    ByCacheSteps r pins I (liftM act : Attempt ω α) := liftHost (.lift hsafe hbyCacheSteps)

theorem reads {act : HeapM α} (h : act.Reads) : ByCacheSteps r pins I (liftM act : Attempt ω α) :=
  liftHost (.reads h)

theorem attempt {act : HeapM (Except HeapError α)} (hsafe : act.Safe) (hbyCacheSteps : act.ByCacheSteps r pins)
    (hplain : ∀ heap e heap', act.run heap = .ok (.error e, heap') → e.Plain) :
    ByCacheSteps r pins I (HostM.attempt act : Attempt ω α) := by
  refine CacheTriple.mk (.lift ?_)
  intro heap result heap' _ hs hrun
  refine ⟨hbyCacheSteps heap result heap' hrun, ?_⟩
  have hend := hsafe heap result heap' hs hrun
  cases result with
  | ok a => exact hend
  | error e => exact ⟨hend, .of_ne (hplain heap e heap' hrun)⟩

theorem protecting (hx : ByCacheSteps r pins I x) : ByCacheSteps r pins I (HostM.protecting x) := by
  refine CacheTriple.mk (HostM.CacheTriple.bind (HostM.ByCacheSteps.reads .protectDepth) fun base =>
    HostM.CacheTriple.bind hx.run fun result => HostM.CacheTriple.bind (.lift ?_) fun _ => .pure fun _ => id)
  refine .of_byCacheSteps ?_ .closeScope
  intro heap u heap' h hrun
  obtain rfl := HeapM.run_closeScope hrun
  cases result with
  | ok a => exact h.aside rfl rfl rfl rfl rfl
  | error e => exact ⟨h.1.aside rfl rfl rfl rfl rfl, h.2.congr rfl rfl rfl fun _ => rfl⟩

end Attempt.ByCacheSteps

namespace HeapM

variable {h : Handle} {heap heap' : Heap} {e : HeapError}

theorem plain_pushRoot (hrun : (pushRoot h).run heap = .ok (.error e, heap')) : e.Plain := by
  simp only [pushRoot, run_bind] at hrun
  obtain ⟨result, mid, hpush, hrest⟩ := hrun
  have hsame : result = .error e := by
    split at hrest
    · simp only [run_bind, run_pure] at hrest
      obtain ⟨_, _, -, hsame, -⟩ := hrest
      exact hsame
    · exact (run_pure.mp hrest).1
  subst hsame
  simp only [onProtect, StateT.run] at hpush
  split at hpush
  · rename_i hpushed
    rw [Except.ok.injEq, Prod.mk.injEq] at hpush
    obtain ⟨rfl, -⟩ := hpush
    unfold ProtectStack.push at hpushed
    split at hpushed
    · cases hpushed
    · split at hpushed
      · rw [Except.ok.injEq, Prod.mk.injEq] at hpushed
        obtain ⟨he, -⟩ := hpushed
        rintro kind length rfl
        cases he
      · cases hpushed
  · cases hpush

theorem plain_vectorElt {i : Nat} (hrun : (vectorElt h i).run heap = .ok (.error e, heap')) :
    e.Plain := by
  simp only [vectorElt, run_bind] at hrun
  obtain ⟨p, mid, -, hrest⟩ := hrun
  split at hrest
  · split at hrest
    · cases (run_pure.mp hrest).1
    · obtain ⟨he, -⟩ := run_pure.mp hrest
      rintro kind length rfl
      cases he
  · exact (run_wrongKind.mp hrest).elim

theorem plain_setVectorElt {i : Nat} {value : Handle}
    (hrun : (setVectorElt h i value).run heap = .ok (.error e, heap')) : e.Plain := by
  simp only [setVectorElt, run_bind] at hrun
  obtain ⟨_, mid, -, result, last, hread, hrest⟩ := hrun
  cases result with
  | error e' =>
    obtain ⟨he, rfl⟩ := run_pure.mp hrest
    obtain rfl := Except.error.inj he
    exact plain_vectorElt hread
  | ok old =>
    simp only [run_bind, run_pure] at hrest
    obtain ⟨_, _, -, _, _, -, hno, -⟩ := hrest
    cases hno

theorem plain_weakFields (hrun : (weakFields h).run heap = .ok (.error e, heap')) : e.Plain := by
  simp only [weakFields, run_bind] at hrun
  obtain ⟨p, mid, -, hrest⟩ := hrun
  split at hrest
  · exact nomatch (run_pure.mp hrest).1
  · obtain ⟨he, -⟩ := run_pure.mp hrest
    rintro kind length rfl
    exact nomatch he

end HeapM

theorem Attempt.ByCacheSteps.pushRoot {h : Handle} :
    ByCacheSteps r pins I (HostM.attempt (HeapM.pushRoot h) : Attempt ω Nat) :=
  attempt .pushRoot .pushRoot fun _ _ _ => HeapM.plain_pushRoot

def Heap.Lent (heap : Heap) (s : CacheRules) (lent : List (Handle × Text)) : Prop :=
  ¬ s.cuts → ¬ s.renews → ∀ p ∈ lent, heap.arena.textAt p.1 = some p.2

namespace HostM

variable {host : Host ω} {kind : Kind} {length : Nat} {payload : Payload} {slots roots : List Handle}

def Provides (kind : Kind) (result : Except HeapError Handle) (heap : Heap) : Prop :=
  heap.Sound ∧ (∀ h, result = .ok h → heap.Blank kind h) ∧ ∀ e, result = .error e → heap.NonePendingBefore e

theorem CacheTriple.retry {P : Heap → Prop} {x : HostM ω (Except Bool Handle)}
    {next : Bool → HostM ω (Except HeapError Handle)}
    (hx : CacheTriple r pins I P x fun taken heap => heap.Sound ∧ ∀ h, taken = .ok h → heap.Blank kind h)
    (hnext : ∀ reserved, CacheTriple r pins I Heap.Sound (next reserved) fun result heap =>
      heap.Sound ∧ ∀ h, result = .ok h → heap.Blank kind h) :
    CacheTriple r pins I P (do
      match ← x with
      | .ok h => return .ok h
      | .error reserved => next reserved) fun result heap =>
        heap.Sound ∧ ∀ h, result = .ok h → heap.Blank kind h := by
  refine .bind hx fun taken => ?_
  cases taken with
  | ok h => exact .pure fun heap hs => ⟨hs.1, fun g hg => hs.2 g (congrArg _ (Except.ok.inj hg))⟩
  | error reserved => exact (hnext reserved).conseq (fun _ h => h.1) fun _ _ => id

theorem goes_finalizeAndRetry (hhost : host.ByCacheSteps s I) (ha : s.Admits pins) (hkind : kind ≠ .free)
    {reserved : Bool} : CacheTriple s pins I Heap.Sound (finalizeAndRetry host kind length reserved)
      fun taken heap => heap.Sound ∧ ∀ h, taken = .ok h → heap.Blank kind h := by
  refine .bind (ByCacheSteps.reads .pendingFinalizerCount) fun n => ?_
  split
  · exact .pure fun heap hs => ⟨hs, nofun⟩
  · exact .bind (ByCacheSteps.runPendingFinalizers hhost ha) fun ran => .bind (.lift .collect) fun _ =>
      .lift (.takeOrGrow hkind)

theorem goes_allocateSlow (hhost : host.ByCacheSteps s I) (ha : s.Admits pins) (hkind : kind ≠ .free) :
    CacheTriple s pins I Heap.Sound (allocateSlow host kind length) (Provides kind) := by
  have hmoves : CacheTriple s pins I Heap.Sound (allocateSlow host kind length) fun result heap =>
      heap.Sound ∧ ∀ h, result = .ok h → heap.Blank kind h := by
    refine .bind (ByCacheSteps.reads .collectionDue) fun due => ?_
    dsimp only
    rcases due with _ | reason
    on_goal 2 =>
      refine .bind ByCacheSteps.getHeap fun heap => .bind (.lift .collect) fun _ => ?_
    all_goals
      refine .retry (.lift (.takeOrGrow hkind)) fun reserved => ?_
      refine .bind ByCacheSteps.getHeap fun heap =>
        .retry (.lift (.escalate hkind _ reserved)) fun reserved => ?_
      refine .retry (goes_finalizeAndRetry hhost ha hkind) fun reserved => ?_
      exact .bind ByCacheSteps.note fun _ => .pure fun heap hs => ⟨hs, nofun⟩
  exact (hmoves.and_triple (excused_allocateSlow hhost.safe hkind)).conseq (fun _ => id)
    fun _ _ h => ⟨h.1.1, h.1.2, h.2⟩

theorem goes_keeping (hhost : host.ByCacheSteps s I) (ha : s.Admits pins) (hkind : kind ≠ .free)
    {lent : List (Handle × Text)} (hin : ∀ p ∈ lent, p.1 ∈ roots) :
    CacheTriple s pins I (fun heap => heap.Sound ∧ heap.Lent s lent)
      (withTransient roots (allocateSlow host kind length))
      fun result heap => Provides kind result heap ∧ heap.Lent s lent := by
  have hkept : ∀ result (heap : Heap) transient, Provides kind result heap →
      Provides kind result (heap.keeping transient) := fun result heap transient hp =>
    ⟨hp.1.keeping transient, hp.2.1, fun e he => (hp.2.2 e he).congr rfl rfl rfl fun _ => rfl⟩
  by_cases hloose : s.cuts ∨ s.renews
  · have hlent : ∀ heap : Heap, heap.Lent s lent := fun heap hcuts hrenews =>
      absurd hloose (not_or.mpr ⟨hcuts, hrenews⟩)
    exact (CacheTriple.withTransient (P := Heap.Sound) (Q := Provides kind)
      (goes_allocateSlow hhost ha hkind) (fun _ transient hs => hs.keeping transient) hkept).conseq
      (fun _ hs => hs.1) fun result heap hp => ⟨hp, hlent heap⟩
  · obtain ⟨hcuts, hrenews⟩ := not_or.mp hloose
    intro state heap result state' heap' hI hg ⟨hs, hlent⟩ hrun
    obtain ⟨stop, hslow, rfl⟩ := run_withTransient hrun
    have hdeeper : (heap.keeping (heap.roots.transient ++ roots.toArray)).Guards
        (heap.pinned ++ roots) := by
      refine ⟨hg.cacheExact.congr (fun _ => rfl) rfl rfl, [], ?_⟩
      rw [List.append_nil, Heap.pinned_added]
    obtain ⟨hI', hmoves, hend⟩ := goes_allocateSlow hhost (fun hc => absurd hc hcuts) hkind state _
      result state' stop hI hdeeper (hs.keeping _) hslow
    refine ⟨hI', hmoves.between (.refl s) hg (hg.pins.trans (List.prefix_append _ _))
      (List.prefix_refl _), hkept result stop _ hend, fun _ _ p hp => ?_⟩
    exact hmoves.textAt_pinned hdeeper.cacheExact hrenews hdeeper.pins
      (List.mem_append_right _ (hin p hp)) (hlent hcuts hrenews p hp)

theorem goes_allocateKeeping (hhost : host.ByCacheSteps s I) (ha : s.Admits pins)
    {lent : List (Handle × Text)} (hin : ∀ p ∈ lent, p.1 ∈ roots) :
    Attempt.CacheTriple s pins I (fun heap => heap.Sound ∧ heap.Lent s lent)
      (allocate host kind length roots)
      fun g heap => (heap.Sound ∧ heap.Blank kind g) ∧ heap.Lent s lent := by
  unfold allocate
  dsimp only
  split
  · exact .throw_bind nofun fun _ hs => hs.1
  · rename_i hallocatable
    replace hallocatable : kind.isAllocatable = true := by simpa using hallocatable
    split
    · exact .throw_bind nofun fun _ hs => hs.1
    · refine .bind (Q := fun g heap => (heap.Sound ∧ (g = .noObject ∨ heap.Blank kind g)) ∧
        heap.Lent s lent) (.lift ?_) fun g => ?_
      · intro heap g heap' hg hs hrun
        obtain ⟨hmoves, hend⟩ := HeapM.CacheTriple.allocateFast heap g heap' hg hs.1 hrun
        refine ⟨hmoves, hend, fun hcuts hrenews p hp => ?_⟩
        obtain ⟨c, hc, hct⟩ := Arena.textAt_eq_some.mp (hs.2 hcuts hrenews p hp)
        exact (Arena.textAt_of_get? ((HeapM.run_allocateFast hs.1 hrun).2.2.1 hc)).trans hct
      · split
        · rename_i hobject
          refine .pure fun heap hs => ⟨⟨hs.1.1, hs.1.2.resolve_left ?_⟩, hs.2⟩
          rintro rfl
          exact nomatch hobject
        · refine .mk ((goes_keeping hhost ha (HeapM.kind_ne_free hallocatable) hin).conseq
            (fun _ hs => ⟨hs.1.1, hs.2⟩) fun result heap hp => ?_)
          cases result with
          | ok g => exact ⟨⟨hp.1.1, hp.1.2.1 g rfl⟩, hp.2⟩
          | error e => exact ⟨hp.1.1, hp.1.2.2 e rfl⟩

theorem goes_allocate (hhost : host.ByCacheSteps s I) (ha : s.Admits pins) :
    Attempt.CacheTriple s pins I Heap.Sound (allocate host kind length roots)
      fun h heap => heap.Sound ∧ heap.Blank kind h :=
  (goes_allocateKeeping hhost ha (fun p (hp : p ∈ []) => nomatch hp)).conseq
    (fun _ hs => ⟨hs, fun _ _ => nofun⟩) fun _ _ h => h.1

theorem goes_fill {h : Handle} (hfits : payload.Fits kind slots) {next : Attempt ω α}
    (hnext : Attempt.ByCacheSteps r pins I next) :
    Attempt.CacheTriple r pins I (fun heap => heap.Sound ∧ heap.Blank kind h) (do
      setPayload h payload
      countReferences slots
      next) fun _ => Heap.Sound :=
  .bind (.lift .setPayload) fun _ => .bind (.lift (.countReferences hfits)) fun _ => hnext

theorem construct_byCacheSteps (hhost : host.ByCacheSteps s I) (ha : s.Admits pins)
    (hfits : payload.Fits kind slots) :
    Attempt.ByCacheSteps s pins I (construct host kind payload slots) :=
  Attempt.CacheTriple.bind (goes_allocate hhost ha) fun _ => goes_fill hfits .pure

theorem bindAll_byCacheSteps (hhost : host.ByCacheSteps s I) (ha : s.Admits pins)
    (bindings : List (Handle × Handle)) (frame : Handle) :
    Attempt.ByCacheSteps s pins I (bindAll host frame bindings) := by
  induction bindings generalizing frame with
  | nil => exact .pure
  | cons b rest ih =>
    obtain ⟨name, value⟩ := b
    refine Attempt.CacheTriple.bind (goes_allocate hhost ha) fun cell => goes_fill ?_ (ih cell)
    exact ⟨rfl, nofun, by simp [Payload.children]⟩

theorem makeEnvironment_byCacheSteps (hhost : host.ByCacheSteps s I) (ha : s.Admits pins)
    {names values : List Handle} {parent : Handle} :
    Attempt.ByCacheSteps s pins I (makeEnvironment host names values parent) := by
  unfold makeEnvironment
  dsimp only
  split
  · exact .throw_bind nofun fun _ => id
  · have hmake : Attempt.ByCacheSteps s pins I (do
        let frame ← bindAll host .nil (names.zip values).reverse
        let env ← allocate host .environment 0 [frame]
        setPayload env (.environment frame parent)
        countReferences [frame, parent]
        return env) := by
      refine .bind (bindAll_byCacheSteps hhost ha _ .nil) fun frame =>
        Attempt.CacheTriple.bind (goes_allocate hhost ha) fun env => goes_fill ?_ .pure
      exact ⟨rfl, nofun, by simp [Payload.children]⟩
    refine .mk (CacheTriple.withTransient hmake.run (fun _ transient hs => hs.keeping transient) ?_)
    rintro (e | env) heap transient hs
    · exact ⟨hs.1.keeping transient, hs.2.congr rfl rfl rfl fun _ => rfl⟩
    · exact hs.keeping transient

theorem makeWeakRef_byCacheSteps (hhost : host.ByCacheSteps s I) (ha : s.Admits pins)
    {key value finalizer : Handle} {onExit : Bool} :
    Attempt.ByCacheSteps s pins I (makeWeakRef host key value finalizer onExit) := by
  have hmake : Attempt.ByCacheSteps s pins I (do
      let record ← allocate host .weakRef 0 [key, value, finalizer]
      HeapM.linkWeakRef record key value finalizer onExit
      return record) :=
    Attempt.CacheTriple.bind (goes_allocate hhost ha) fun record =>
      .bind (Q := fun _ => Heap.Sound) (.lift .linkWeakRef) fun _ => Attempt.ByCacheSteps.pure
  unfold makeWeakRef
  dsimp only
  split
  · refine .bind (.reads .kind) fun k => ?_
    split
    · exact .throw_bind nofun fun _ => id
    · exact hmake
  · exact hmake

theorem makeNativeFunction_byCacheSteps (hhost : host.ByCacheSteps s I) (ha : s.Admits pins) {routine : Nat} :
    Attempt.ByCacheSteps s pins I (makeNativeFunction host routine) :=
  construct_byCacheSteps hhost ha ⟨rfl, nofun, by simp [Payload.children]⟩

theorem registerFinalizer_byCacheSteps (hhost : host.ByCacheSteps s I) (ha : s.Admits pins) {key : Handle}
    {finalizer : Finalizer} {onExit : Bool} :
    Attempt.ByCacheSteps s pins I (registerFinalizer host key finalizer onExit) := by
  refine .protecting (.bind .pushRoot fun _ => ?_)
  cases finalizer with
  | native routine =>
    exact .bind (makeNativeFunction_byCacheSteps hhost ha) fun function => .bind .pushRoot fun _ =>
      makeWeakRef_byCacheSteps hhost ha
  | closure h =>
    exact .bind .pure fun function => .bind .pushRoot fun _ => makeWeakRef_byCacheSteps hhost ha

theorem defineVar_byCacheSteps (hhost : host.ByCacheSteps s I) (ha : s.Admits pins) {env sym value : Handle} :
    Attempt.ByCacheSteps s pins I (defineVar host env sym value) := by
  refine .bind (.reads .frameBinding) fun found => ?_
  cases found with
  | some cell => exact .lift .setCar .setCar
  | none =>
    refine .bind (.reads .envFrame) fun frame => Attempt.CacheTriple.bind (goes_allocate hhost ha)
      fun cell => .conseq (P := Heap.Sound) ?_ (fun _ hs => hs.1) (fun _ _ => id)
    exact Attempt.ByCacheSteps.bind (.lift .setCar .setCar) fun _ => .bind (.lift .setCdr .setCdr) fun _ =>
      .bind (.lift .setTag .setTag) fun _ => .lift .setFrame .setFrame

end HostM

end ManagedHeap
