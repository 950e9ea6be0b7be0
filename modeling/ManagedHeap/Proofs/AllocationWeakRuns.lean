import ManagedHeap.Proofs.FinalizerWeakRuns

/-!
# What allocation and construction do to the weak chain

An allocation may collect, and as a last resort finalizes. It answers an object that is on no
chain, so a constructor may fill it, and a new record may be linked.
-/

namespace ManagedHeap

open HeapM

def Heap.FreshOffChain (heap : Heap) (kind : Kind) (h : Handle) : Prop :=
  heap.Fresh kind h ∧ ∀ records, heap.Chain records → h ∉ records

theorem Payload.fields?_of_suits {p : Payload} {kind : Kind} (hsuits : p.suits kind = true)
    (hkind : kind ≠ .weakRef) : p.fields? = none := by
  cases p <;> cases kind <;> simp_all [suits, fields?]

/-- The record stands in front of the chain, watches over these objects, waits for its key to die,
and is to be finalized on exit if that was asked for. After `past`, the history ends with its link. -/
structure Heap.LinkedInFront (heap : Heap) (past : List Entry) (r key value finalizer : Handle)
    (onExit : Bool) : Prop where
  first : ∃ records, heap.Chain (r :: records)
  watched : ∃ f, heap.fieldsOf r = some f ∧ f.watched = [key, value, finalizer]
  unready : ¬ heap.arena.Ready r
  exits : heap.arena.Exits r ↔ onExit = true
  entry : ∃ es, heap.journal.ofRecords = past ++ es ++
    [.linked ⟨r, key, value, finalizer, onExit, heap.alive [key, value, finalizer]⟩]

namespace Heap

variable {heap heap' : Heap} {kind : Kind} {length : Nat} {h : Handle}

theorem LinkedInFront.aside {past : List Entry} {r key value finalizer : Handle} {onExit : Bool}
    (he : heap.LinkedInFront past r key value finalizer onExit) (harena : heap'.arena = heap.arena)
    (hweak : heap'.weak = heap.weak) (hjournal : heap'.journal = heap.journal) :
    heap'.LinkedInFront past r key value finalizer onExit where
  first := he.first.imp fun _ hc => (Preserves.aside harena hweak).chain hc
  watched := by
    rw [fieldsOf, harena]
    exact he.watched
  unready := harena ▸ he.unready
  exits := harena ▸ he.exits
  entry := by
    rw [hjournal, alive, harena]
    exact he.entry

theorem Gains.off_chain (hgains : heap.Gains heap' kind length h) (hc : heap.Readable) :
    ∀ records, heap'.Chain records → h ∉ records := by
  intro records hrecords hmem
  obtain ⟨rs, hrs⟩ := hc
  obtain rfl := hrecords.unique ((Preserves.of_gains hgains).chain hrs)
  obtain ⟨-, f, hf⟩ := hrs.strung.fields_of_mem hmem
  rw [fieldsOf_graph, Graph.fieldsOf, hgains.dead] at hf
  cases hf

theorem FreshOffChain.keeping (hfreshOffChain : heap.FreshOffChain kind h) (transient : Array Handle) :
    (heap.keeping transient).FreshOffChain kind h :=
  ⟨hfreshOffChain.1, fun records hc =>
    hfreshOffChain.2 records ((Preserves.aside rfl rfl : (heap.keeping transient).Preserves heap).chain hc)⟩

theorem Fresh.ne_nil (hfresh : heap.Fresh kind h) (hs : heap.Sound) : h ≠ .nil := by
  obtain ⟨c, hc, hheader⟩ := hfresh
  exact hs.ne_nil hc (congrArg (fun header : Header => header.flags.permanent) hheader)

theorem Fresh.fields? {c : Cell} (hfresh : heap.Fresh kind h) (hs : heap.Sound)
    (hkind : kind ≠ .weakRef) (hc : heap.arena.get? h = some c) : c.payload.fields? = none := by
  obtain ⟨d, hd, hheader⟩ := hfresh
  rw [hc, Option.some.injEq] at hd
  subst hd
  refine Payload.fields?_of_suits (hs.proper hc).suits ?_
  rwa [show c.kind = kind from congrArg Header.kind hheader]

end Heap

variable {ω : Type} {host : Host ω} {kind : Kind} {length : Nat}
  {h : Handle} {payload : Payload} {slots : List Handle}

namespace HeapM

def Answers (kind : Kind) {ε : Type} (r : Except ε Handle) (heap : Heap) : Prop :=
  heap.Sound ∧ ∀ h, r = .ok h → heap.FreshOffChain kind h

theorem weakRunTriple_takeOrGrow {reserved : Bool} (hkind : kind ≠ .free) :
    WeakRunTriple Heap.Sound (takeOrGrow kind length reserved) (Answers kind) :=
  .of fun heap r heap' hc hs hrun => by
    obtain ⟨hs', -, -, hfresh⟩ := run_takeOrGrow hs hkind hrun
    refine ⟨⟨hs', fun h hr => ⟨(hfresh hr).1, ?_⟩⟩, .of_preservesFlags (preservesFlags_takeOrGrow hs hkind hrun)⟩
    rcases gains_takeOrGrow hs hkind hrun with ⟨⟨b, hb⟩, -⟩ | ⟨g, hg, hgains⟩
    · rw [hb] at hr
      exact nomatch hr
    · rw [hg, Except.ok.injEq] at hr
      exact hr ▸ hgains.off_chain hc

theorem weakRunTriple_allocateFast :
    WeakRunTriple Heap.Sound (allocateFast kind length) fun h heap => heap.Sound ∧
      (h = .noObject ∨ heap.FreshOffChain kind h) :=
  .of fun heap h heap' hc hs hrun => by
    obtain ⟨hs', -, -, hcases⟩ := run_allocateFast hs hrun
    refine ⟨⟨hs', ?_⟩, .of_preservesFlags (preservesFlags_allocateFast hs hrun)⟩
    rcases gains_allocateFast hs hrun with ⟨hnone, -⟩ | hgains
    · exact .inl hnone
    · exact hcases.imp_right fun hfresh => ⟨hfresh.1, hgains.off_chain hc⟩

theorem weakRunTriple_escalate (hkind : kind ≠ .free) (levels : List Level) (reserved : Bool) :
    WeakRunTriple Heap.Sound (escalate kind length reserved levels) (Answers kind) := by
  induction levels generalizing reserved with
  | nil => exact .pure fun heap hs => ⟨hs, nofun⟩
  | cons level deeper ih =>
    refine .bind collects fun _ => .bind (weakRunTriple_takeOrGrow hkind) fun r => ?_
    cases r with
    | ok h => exact .pure fun heap hs => ⟨hs.1, fun g hg => hs.2 g (Except.ok.inj hg ▸ rfl)⟩
    | error reserved => exact (ih reserved).conseq (fun heap hs => hs.1) fun _ _ => id

end HeapM

namespace HostM

theorem weakRunTriple_finalizeAndRetry (hhost : host.HasWeakRun) (hkind : kind ≠ .free) {reserved : Bool} :
    WeakRunTriple Heap.Sound (finalizeAndRetry host kind length reserved) (Answers kind) := by
  refine .bind (HasWeakRun.reads .pendingFinalizerCount) fun n => ?_
  split
  · exact .pure fun heap hs => ⟨hs, nofun⟩
  · exact .bind (HasWeakRun.runPendingFinalizers hhost) fun ran => .bind (.lift HeapM.collects) fun _ =>
      .lift (HeapM.weakRunTriple_takeOrGrow hkind)

theorem WeakRunTriple.retry {P : Heap → Prop} {x : HostM ω (Except Bool Handle)}
    {next : Bool → HostM ω (Except HeapError Handle)} (hx : WeakRunTriple P x (Answers kind))
    (hnext : ∀ reserved, WeakRunTriple Heap.Sound (next reserved) (Answers kind)) :
    WeakRunTriple P (do
      match ← x with
      | .ok h => return .ok h
      | .error reserved => next reserved) (Answers kind) := by
  refine .bind hx fun r => ?_
  cases r with
  | ok h => exact .pure fun heap hs => ⟨hs.1, fun g hg => hs.2 g (Except.ok.inj hg ▸ rfl)⟩
  | error reserved => exact (hnext reserved).conseq (fun _ h => h.1) fun _ _ => id

theorem weakRunTriple_allocateSlow (hhost : host.HasWeakRun) (hkind : kind ≠ .free) :
    WeakRunTriple Heap.Sound (allocateSlow host kind length) (Answers kind) := by
  refine .bind (HasWeakRun.reads .collectionDue) fun due => ?_
  dsimp only
  rcases due with _ | reason
  on_goal 2 =>
    refine .bind HasWeakRun.getHeap fun heap => .bind (.lift HeapM.collects) fun _ => ?_
  all_goals
    refine .retry (.lift (HeapM.weakRunTriple_takeOrGrow hkind)) fun reserved => ?_
    refine .bind HasWeakRun.getHeap fun heap =>
      .retry (.lift (HeapM.weakRunTriple_escalate hkind _ reserved)) fun reserved => ?_
    refine .retry (weakRunTriple_finalizeAndRetry hhost hkind) fun reserved => ?_
    exact .bind HasWeakRun.note fun _ => .pure fun heap hs => ⟨hs, nofun⟩

theorem weakRunTriple_allocate (hhost : host.HasWeakRun) {roots : List Handle} :
    Attempt.WeakRunTriple Heap.Sound (allocate host kind length roots)
      (fun h heap => heap.Sound ∧ heap.FreshOffChain kind h) Heap.Sound := by
  unfold allocate
  dsimp only
  split
  · exact .throw_bind fun _ => id
  · rename_i hallocatable
    replace hallocatable : kind.isAllocatable = true := by simpa using hallocatable
    split
    · exact .throw_bind fun _ => id
    · refine .bind (.lift HeapM.weakRunTriple_allocateFast) fun h => ?_
      split
      · rename_i hobject
        refine .pure fun heap hs => ⟨hs.1, hs.2.resolve_left ?_⟩
        rintro rfl
        exact nomatch hobject
      · refine .mk (WeakRunTriple.withTransient (weakRunTriple_allocateSlow hhost (HeapM.kind_ne_free hallocatable))
          (fun heap transient hs => hs.1.keeping transient) fun r heap transient hr => ?_)
        cases r with
        | ok h => exact ⟨hr.1.keeping transient, (hr.2 h rfl).keeping transient⟩
        | error e => exact hr.1.keeping transient

theorem weakRunTriple_setPayload (hkind : kind ≠ .weakRef) (hsuits : payload.suits kind = true) :
    HeapM.WeakRunTriple (fun heap => heap.Sound ∧ heap.FreshOffChain kind h) (setPayload h payload)
      fun _ heap => heap.Filled kind payload h := by
  refine .preservesFlags (setPayload_filled.conseq (fun _ hs => ⟨hs.1, hs.2.1⟩) fun _ _ => id) ?_
  rintro heap u heap' ⟨hs, hfresh, -⟩ hrun
  obtain ⟨c, hc, -⟩ := id hfresh
  exact PreservesRecords.rewrite hc (hfresh.fields? hs hkind hc) (Payload.fields?_of_suits hsuits hkind) hrun

theorem weakRunTriple_fill (hkind : kind ≠ .weakRef) (hfits : payload.Fits kind slots) {α : Type}
    {next : Attempt ω α} (hnext : Attempt.HasWeakRun next) :
    Attempt.WeakRunTriple (fun heap => heap.Sound ∧ heap.FreshOffChain kind h) (do
      setPayload h payload
      countReferences slots
      next : Attempt ω α) (fun _ => Heap.Sound) Heap.Sound :=
  .bind (.lift (weakRunTriple_setPayload hkind hfits.suits)) fun _ =>
    .bind (.lift (.preservesRecords (HeapM.countReferences_filled hfits) (.countReferences slots))) fun _ =>
      hnext

theorem construct_weakRunTriple (hhost : host.HasWeakRun) (hkind : kind ≠ .weakRef)
    (hfits : payload.Fits kind slots) : Attempt.WeakRunTriple Heap.Sound
      (construct host kind payload slots) (fun h heap => heap.Sound ∧ h ≠ .nil) Heap.Sound := by
  have hnew : Attempt.WeakRunTriple Heap.Sound (allocate host kind 0 slots) (fun h heap =>
      (heap.Sound ∧ heap.FreshOffChain kind h) ∧ h ≠ .nil) Heap.Sound :=
    (weakRunTriple_allocate hhost).conseq (fun _ => id) fun h heap hs => ⟨hs, Heap.Fresh.ne_nil hs.2.1 hs.1⟩
  refine .bind hnew fun h => .of_and fun hne => ?_
  exact .bind (.lift (weakRunTriple_setPayload hkind hfits.suits)) fun _ =>
    .bind (.lift (.preservesRecords (HeapM.countReferences_filled hfits) (.countReferences slots))) fun _ =>
      .pure fun heap hs => ⟨hs, hne⟩

theorem construct_hasWeakRun (hhost : host.HasWeakRun) (hkind : kind ≠ .weakRef)
    (hfits : payload.Fits kind slots) : Attempt.HasWeakRun (construct host kind payload slots) :=
  (construct_weakRunTriple hhost hkind hfits).conseq (fun _ => id) fun _ _ hs => hs.1

theorem bindAll_hasWeakRun (hhost : host.HasWeakRun) (bindings : List (Handle × Handle)) (frame : Handle) :
    Attempt.HasWeakRun (bindAll host frame bindings) := by
  induction bindings generalizing frame with
  | nil => exact .pure
  | cons b rest ih =>
    obtain ⟨name, value⟩ := b
    refine Attempt.WeakRunTriple.bind (weakRunTriple_allocate hhost) fun cell =>
      weakRunTriple_fill (by decide) ?_ (ih cell)
    exact ⟨rfl, nofun, by simp [Payload.children]⟩

theorem makeEnvironment_hasWeakRun (hhost : host.HasWeakRun) {names values : List Handle}
    {parent : Handle} : Attempt.HasWeakRun (makeEnvironment host names values parent) := by
  unfold makeEnvironment
  dsimp only
  split
  · exact .throw_bind fun _ => id
  · refine .mk (WeakRunTriple.withTransient (Attempt.HasWeakRun.run ?_)
      (fun heap transient hs => hs.keeping transient) fun _ heap transient hs => hs.keeping transient)
    refine .bind (bindAll_hasWeakRun hhost _ .nil) fun frame =>
      Attempt.WeakRunTriple.bind (weakRunTriple_allocate hhost) fun env =>
      weakRunTriple_fill (by decide) ?_ .pure
    exact ⟨rfl, nofun, by simp [Payload.children]⟩

theorem linkedInFront_linkWeakRef {past : List Entry} {record key value finalizer : Handle}
    {onExit : Bool} :
    HeapM.WeakRunTriple (fun heap => (heap.Sound ∧ heap.FreshOffChain .weakRef record) ∧
        past <+: heap.journal.ofRecords)
      (HeapM.linkWeakRef record key value finalizer onExit) fun _ heap =>
        heap.Sound ∧ heap.LinkedInFront past record key value finalizer onExit := by
  rintro start hstart
  refine HeapM.WeakRunTriple.of (fun heap u heap' hread hP hrun => ?_) start hstart
  obtain ⟨⟨hs, hfresh, hout⟩, es, hpast⟩ := hP
  obtain ⟨live, hlinks, htally, hkeepsRecords⟩ :=
    HeapM.links_linkWeakRef (Heap.Fresh.ne_nil hfresh hs) hout hrun
  obtain ⟨⟨records, hrecords⟩, c, hc, hheader⟩ := And.intro hread hfresh
  obtain ⟨-, -, hgraph⟩ := HeapM.run_linkWeakRef hrun
  have hself := congrFun hgraph record
  rw [Graph.edit_self (Heap.graph_of_get? hc)] at hself
  obtain ⟨d, hd, hseen⟩ := Heap.graph_eq_some.mp hself
  have hexits : d.flags.finalizeOnExit = onExit := by
    have hflag := congrArg (fun c : Cell => c.header.flags.finalizeOnExit) hseen
    refine hflag.trans ?_
    change (c.header.flags.finalizeOnExit || onExit) = onExit
    rw [hheader]
    rfl
  have hready : d.flags.readyToFinalize = false := by
    have hflag := congrArg (fun c : Cell => c.header.flags.readyToFinalize) hseen
    refine hflag.trans ?_
    change c.header.flags.readyToFinalize = false
    rw [hheader]
  refine ⟨⟨HeapM.linkWeakRef_safe _ _ _ ⟨hs, hfresh⟩ hrun, ⟨records, (hlinks.chain hrecords).2⟩, ?_,
    Arena.not_ready hd hready, ?_, es, ?_⟩, .of_links hlinks htally hkeepsRecords⟩
  · refine ⟨⟨key, value, finalizer, heap.weak.head⟩, ?_, rfl⟩
    rw [Heap.fieldsOf_graph, Graph.fieldsOf, hself]
    rfl
  · constructor
    · rintro ⟨e, he, hflag⟩
      obtain rfl := Option.some.inj (he.symm.trans hd)
      exact hexits.symm.trans hflag
    · exact fun hasked => ⟨d, hd, hexits.trans hasked⟩
  · rw [hpast, ← hlinks.live]
    exact congrArg Tally.entries htally

theorem makeWeakRef_weakRunTriple (hhost : host.HasWeakRun) (past : List Entry) {key value finalizer : Handle}
    {onExit : Bool} :
    Attempt.WeakRunTriple (fun heap => heap.Sound ∧ past <+: heap.journal.ofRecords)
      (makeWeakRef host key value finalizer onExit)
      (fun r heap => heap.Sound ∧ heap.LinkedInFront past r key value finalizer onExit) Heap.Sound := by
  have hmake : Attempt.WeakRunTriple (fun heap => heap.Sound ∧ past <+: heap.journal.ofRecords) (do
      let record ← allocate host .weakRef 0 [key, value, finalizer]
      HeapM.linkWeakRef record key value finalizer onExit
      return record)
      (fun r heap => heap.Sound ∧ heap.LinkedInFront past r key value finalizer onExit) Heap.Sound :=
    .bind ((weakRunTriple_allocate hhost).onward past) fun record =>
      .bind (.lift linkedInFront_linkWeakRef) fun _ => .pure fun _ => id
  unfold makeWeakRef
  dsimp only
  split
  · refine .bind (Attempt.WeakRunTriple.onward (Attempt.HasWeakRun.reads .kind) past) fun k => ?_
    split
    · exact .throw_bind fun _ hs => hs.1
    · exact hmake
  · exact hmake

theorem makeWeakRef_hasWeakRun (hhost : host.HasWeakRun) {key value finalizer : Handle} {onExit : Bool} :
    Attempt.HasWeakRun (makeWeakRef host key value finalizer onExit) :=
  (makeWeakRef_weakRunTriple hhost []).conseq (fun _ hs => ⟨hs, List.nil_prefix⟩) fun _ _ hs => hs.1

theorem makeNativeFunction_hasWeakRun (hhost : host.HasWeakRun) {routine : Nat} :
    Attempt.HasWeakRun (makeNativeFunction host routine) :=
  construct_hasWeakRun hhost (by decide) ⟨rfl, nofun, by simp [Payload.children]⟩

/-- What carries the finalizer as an object: a closure itself, or a new object for a routine. -/
def Finalizer.Carried (function : Handle) : Finalizer → Prop
  | .native _ => function ≠ .nil
  | .closure h => function = h

theorem registerFinalizer_weakRunTriple (hhost : host.HasWeakRun) (past : List Entry) {key : Handle}
    {finalizer : Finalizer} {onExit : Bool} :
    Attempt.WeakRunTriple (fun heap => heap.Sound ∧ past <+: heap.journal.ofRecords)
      (registerFinalizer host key finalizer onExit)
      (fun r heap => heap.Sound ∧ ∃ function, finalizer.Carried function ∧
        heap.LinkedInFront past r key .nil function onExit) Heap.Sound := by
  have hpush : ∀ h, Attempt.WeakRunTriple (ω := ω) (fun heap => heap.Sound ∧ past <+: heap.journal.ofRecords)
      (attempt (HeapM.pushRoot h)) (fun _ heap => heap.Sound ∧ past <+: heap.journal.ofRecords)
      Heap.Sound :=
    fun h => Attempt.WeakRunTriple.onward (Attempt.HasWeakRun.attempt .pushRoot .pushRoot) past
  refine .protecting (.bind (hpush _) fun _ => ?_)
    (fun _ _ _ ⟨hs, function, hcarried, he⟩ =>
      ⟨hs.aside rfl rfl rfl rfl rfl, function, hcarried, he.aside rfl rfl rfl⟩)
    fun _ _ hs => hs.aside rfl rfl rfl rfl rfl
  have hlink : ∀ function, finalizer.Carried function →
      Attempt.WeakRunTriple (fun heap => heap.Sound ∧ past <+: heap.journal.ofRecords) (do
        let _ ← attempt (HeapM.pushRoot function)
        makeWeakRef host key .nil function onExit)
        (fun r heap => heap.Sound ∧ ∃ function, finalizer.Carried function ∧
          heap.LinkedInFront past r key .nil function onExit) Heap.Sound := by
    intro function hcarried
    exact .bind (hpush _) fun _ => (makeWeakRef_weakRunTriple hhost past).conseq (fun _ => id)
      fun _ _ hs => ⟨hs.1, function, hcarried, hs.2⟩
  cases finalizer with
  | native routine =>
    have hnew := (construct_weakRunTriple hhost (by decide)
      (⟨rfl, nofun, by simp [Payload.children]⟩ : (Payload.nativeFunction routine).Fits .nativeFunction
        [])).onward past
    exact .bind (hnew.conseq (fun _ => id) fun _ _ hs => ⟨⟨hs.1.1, hs.2⟩, hs.1.2⟩)
      fun function => .of_and (hlink function)
  | closure h =>
    exact .bind (Q := fun function heap => (heap.Sound ∧ past <+: heap.journal.ofRecords) ∧
      function = h) (.pure fun _ hs => ⟨hs, rfl⟩) fun function => .of_and (hlink function)

theorem registerFinalizer_hasWeakRun (hhost : host.HasWeakRun) {key : Handle} {finalizer : Finalizer}
    {onExit : Bool} : Attempt.HasWeakRun (registerFinalizer host key finalizer onExit) :=
  (registerFinalizer_weakRunTriple hhost []).conseq (fun _ hs => ⟨hs, List.nil_prefix⟩) fun _ _ hs => hs.1

theorem internString_hasWeakRun (hhost : host.HasWeakRun) {bytes : Bytes} {encoding : Encoding} :
    Attempt.HasWeakRun (internString host bytes encoding) := by
  refine .bind (.liftHost .getHeap) fun heap => .bind (.reads .findCached) fun found => ?_
  cases found with
  | some h => exact .pure
  | none =>
    refine Attempt.WeakRunTriple.bind (weakRunTriple_allocate hhost) fun h =>
      .bind (Q := fun _ => Heap.Sound) (.lift (.of ?_)) fun _ => Attempt.HasWeakRun.pure
    rintro heap u heap' - ⟨hs, hfresh, -⟩ hrun
    obtain ⟨c, hc, -⟩ := id hfresh
    exact ⟨(HeapM.cacheString_cached _ _ _ ⟨hs, hfresh⟩ hrun).1,
      .of_preservesFlags (PreservesRecords.cacheString hc (hfresh.fields? hs (by decide) hc) hrun)⟩

theorem internSymbol_hasWeakRun (hhost : host.HasWeakRun) {name : Bytes} :
    Attempt.HasWeakRun (internSymbol host name) := by
  refine .of_triple (internSymbol_safe hhost.safe) ?_
  refine .bind (Q := fun _ => Heap.Sound) (.liftHost HasWeakRun.getHeap) fun heap => ?_
  cases heap.symbols.find? name with
  | some sym => exact .pure fun _ _ => trivial
  | none =>
    dsimp only
    split
    · exact .throw_bind fun _ => id
    · exact .bind (Q := fun _ => Heap.Sound) (internString_hasWeakRun hhost) fun pname =>
        .bind (weakRunTriple_allocate hhost) fun sym =>
        .bind (Q := fun _ _ => True) (.lift (.preservesRecords (fun _ _ _ _ _ => trivial) .nameSymbol)) fun _ =>
        .bind (Q := fun _ _ => True) (.lift (.preservesRecords (fun _ _ _ _ _ => trivial)
          (.modify (fun _ => rfl) (fun _ => rfl) (fun _ => rfl) fun _ => rfl))) fun _ =>
        .pure fun _ _ => trivial

theorem defineVar_hasWeakRun (hhost : host.HasWeakRun) {env sym value : Handle} :
    Attempt.HasWeakRun (defineVar host env sym value) := by
  refine .bind (.reads .frameBinding) fun found => ?_
  cases found with
  | some cell => exact .preservesRecords .setCar .setCar
  | none =>
    refine .bind (.reads .envFrame) fun frame => Attempt.WeakRunTriple.bind (weakRunTriple_allocate hhost)
      fun cell => .conseq (P := Heap.Sound) ?_ (fun _ hs => hs.1) (fun _ _ => id)
    exact Attempt.HasWeakRun.bind (.preservesRecords .setCar .setCar) fun _ => .bind (.preservesRecords .setCdr .setCdr) fun _ =>
      .bind (.preservesRecords .setTag .setTag) fun _ => .preservesRecords .setFrame .setFrame

end HostM

end ManagedHeap
