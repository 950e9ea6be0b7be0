import ManagedHeap.Proofs.FinalizerWeakRuns
import ManagedHeap.Proofs.AllocationWeakRuns
import ManagedHeap.Proofs.ConditionalRuns
import ManagedHeap.Proofs.ChainWalks

/-!
# Finalizers go along an unbroken chain

While finalizers are running no record is taken off the chain but by the pass that runs them; what
they do themselves puts records in front of it at most. So the pass finds the record that it has
read as the next one where it was, and the record before it as well.
-/

namespace ManagedHeap

/-- Finalizers go on running or resting, and while they run, records come in front of the chain
at most. -/
structure Heap.ExtendsChain (heap heap' : Heap) : Prop where
  running : heap'.finalizers.running = heap.finalizers.running
  chain : heap.finalizers.running = true → ∀ {records}, heap.Chain records →
    ∃ fresh, heap'.Chain (fresh ++ records)

namespace Heap.ExtendsChain

variable {heap mid heap' : Heap}

theorem refl (heap : Heap) : heap.ExtendsChain heap := ⟨rfl, fun _ _ hc => ⟨[], hc⟩⟩

theorem trans (hfirst : heap.ExtendsChain mid) (hlast : mid.ExtendsChain heap') : heap.ExtendsChain heap' where
  running := hlast.running.trans hfirst.running
  chain hrunning records hc := by
    obtain ⟨fresh, hmid⟩ := hfirst.chain hrunning hc
    obtain ⟨more, hend⟩ := hlast.chain (hfirst.running.trans hrunning) hmid
    exact ⟨more ++ fresh, by rwa [List.append_assoc]⟩

theorem of_preserves (hkeeps : heap.Preserves heap')
    (hrunning : heap'.finalizers.running = heap.finalizers.running) : heap.ExtendsChain heap' :=
  ⟨hrunning, fun _ _ hc => ⟨[], hkeeps.chain hc⟩⟩

theorem of_collects {gone : List (Handle × Kind)} (hcol : heap.Collects heap' gone)
    (hrunning : heap'.finalizers.running = heap.finalizers.running) : heap.ExtendsChain heap' :=
  ⟨hrunning, fun _ _ hc => ⟨[], hcol.chain hc⟩⟩

theorem of_links {l : Link} (hlinks : heap.Links heap' l)
    (hrunning : heap'.finalizers.running = heap.finalizers.running) : heap.ExtendsChain heap' :=
  ⟨hrunning, fun _ _ hc => ⟨[l.record], (hlinks.chain hc).2⟩⟩

end Heap.ExtendsChain

def Terms.unbroken {ω : Type} (I : ω → Prop) : Terms ω where
  fault := Fault.OffChain
  state := I
  heap := Heap.Readable
  leads := Heap.ExtendsChain
  refl := .refl
  trans := .trans

def Terms.loose {ω : Type} (I : ω → Prop) : Terms ω where
  fault := Fault.OffChain
  state := I
  heap := Heap.Readable
  leads := fun _ _ => True
  refl _ := trivial
  trans _ _ := trivial

variable {ω α β : Type} {I : ω → Prop} {P P' : Heap → Prop}

namespace HeapM.On

variable {act : HeapM α} {Q : α → Heap → Prop}

theorem preserves (hact : Tame act) (hspec : Triple P act Q)
    (h : ∀ heap a heap', P heap → act.run heap = .ok (a, heap') →
      heap.Preserves heap' ∧ heap'.finalizers.running = heap.finalizers.running) :
    On (.unbroken I) P act Q := by
  refine .of_ends (fun heap e _ _ he => (hact heap e he).2) fun heap a heap' hread hP hrun => ?_
  obtain ⟨⟨records, hc⟩, hkeeps, hrunning⟩ := And.intro hread (h heap a heap' hP hrun)
  exact ⟨⟨records, hkeeps.chain hc⟩, .of_preserves hkeeps hrunning, hspec heap a heap' hP hrun⟩

theorem preservesFlags (hact : Tame act) (hspec : Triple P act Q)
    (h : ∀ heap a heap', P heap → act.run heap = .ok (a, heap') → heap.PreservesFlags heap') :
    On (.unbroken I) P act Q :=
  preserves hact hspec fun heap a heap' hP hrun =>
    ⟨(h heap a heap' hP hrun).toPreserves, congrArg Tally.running (h heap a heap' hP hrun).tally⟩

theorem preservesRecords (hact : Tame act) (hspec : Triple P act Q) (hpreservesRecords : PreservesRecords act) :
    On (.unbroken I) P act Q :=
  preservesFlags hact hspec fun heap a heap' _ hrun => hpreservesRecords heap a heap' hrun

theorem modify {g : Heap → Heap} {Q : PUnit → Heap → Prop}
    (harena : ∀ heap, (g heap).arena = heap.arena) (hweak : ∀ heap, (g heap).weak = heap.weak)
    (hrunning : ∀ heap, (g heap).finalizers.running = heap.finalizers.running)
    (h : ∀ heap, P heap → Q ⟨⟩ (g heap)) : On (.unbroken I) P (modify g) Q := by
  refine preserves .modify (.modify h) fun heap u heap' _ hrun => ?_
  obtain rfl := run_modify.mp hrun
  exact ⟨.aside (harena heap) (hweak heap), hrunning heap⟩

theorem collects {level : ManagedHeap.Level} {reason : Reason} :
    On (.unbroken I) Heap.Sound (collect level reason) fun _ => Heap.Sound := by
  refine .of_ends (fun heap e hread hs he => (offChain_collect hs hread heap rfl).1 e he)
    fun heap o heap' hread hs hrun => ?_
  obtain ⟨⟨records, hc⟩, rs, hcol⟩ := And.intro hread (collect_collected hs hrun)
  have hrunning := congrArg (fun c : Control => c.finalizers.running) hcol.control
  exact ⟨⟨records, hcol.collects.chain hc⟩, .of_collects hcol.collects hrunning, hcol.sound hs⟩

end HeapM.On

abbrev HostM.Unbroken (I : ω → Prop) (act : HostM ω α) : Prop :=
  On (.unbroken I) Heap.Sound act fun _ => Heap.Sound

abbrev Attempt.Unbroken (I : ω → Prop) (act : Attempt ω α) : Prop :=
  On (.unbroken I) Heap.Sound act (fun _ => Heap.Sound) Heap.Sound

/-- The foreign code never meets a broken chain. -/
structure Host.Unbroken (I : ω → Prop) (host : Host ω) : Prop where
  native : ∀ routine key, HostM.Unbroken I (host.native routine key)
  evaluate : ∀ evaluator function key, HostM.Unbroken I (host.evaluate evaluator function key)

namespace HostM.Unbroken

variable {x : HostM ω α} {f : α → HostM ω β}

theorem bind (hx : Unbroken I x) (hf : ∀ a, Unbroken I (f a)) : Unbroken I (x >>= f) := On.bind hx hf

theorem pure {a : α} : Unbroken I (pure a : HostM ω α) := On.pure fun _ => id

theorem throw {e : Fault} (he : e.OffChain) : Unbroken I (throwThe Fault e : HostM ω α) := On.throw he

theorem preservesRecords {act : HeapM α} (hact : Tame act) (hsafe : act.Safe) (hpreservesRecords : act.PreservesRecords) :
    Unbroken I (liftM act : HostM ω α) := On.lift (.preservesRecords hact hsafe hpreservesRecords)

theorem reads {act : HeapM α} (hact : Tame act) (h : act.Reads) :
    Unbroken I (liftM act : HostM ω α) := preservesRecords hact (.of_reads h) (.of_reads h)

theorem getHeap : Unbroken I (getThe Heap : HostM ω Heap) := On.getHeap fun _ _ => id

theorem note {e : Event} : Unbroken I (liftM (HeapM.note e) : HostM ω PUnit) :=
  preservesRecords .modify .note .note

theorem modifyHeap {g : Heap → Heap} (hconfig : ∀ heap, (g heap).config = heap.config)
    (harena : ∀ heap, (g heap).arena = heap.arena)
    (hstrings : ∀ heap, (g heap).strings = heap.strings)
    (hremembered : ∀ heap, (g heap).remembered = heap.remembered)
    (htasks : ∀ heap, (g heap).tasks = heap.tasks) (hweak : ∀ heap, (g heap).weak = heap.weak)
    (hrunning : ∀ heap, (g heap).finalizers.running = heap.finalizers.running) :
    Unbroken I (modifyThe Heap g : HostM ω PUnit) :=
  On.lift (.modify harena hweak hrunning fun heap hs =>
    hs.aside (hconfig heap) (harena heap) (hstrings heap) (hremembered heap) (htasks heap))

theorem stepBound {host : Host ω} : Unbroken I (stepBound host) :=
  bind (reads .walkBound .walkBound) fun _ => pure

end HostM.Unbroken

namespace Attempt.Unbroken

variable {x : Attempt ω α} {f : α → Attempt ω β}

theorem bind (hx : Unbroken I x) (hf : ∀ a, Unbroken I (f a)) : Unbroken I (x >>= f) := On.bind hx hf

theorem pure {a : α} : Unbroken I (pure a : Attempt ω α) := On.pure fun _ => id

theorem liftHost {act : HostM ω α} (h : HostM.Unbroken I act) :
    Unbroken I (liftM act : Attempt ω α) := On.liftHost h

theorem preservesRecords {act : HeapM α} (hact : Tame act) (hsafe : act.Safe) (hpreservesRecords : act.PreservesRecords) :
    Unbroken I (liftM act : Attempt ω α) := On.lift (.preservesRecords hact hsafe hpreservesRecords)

theorem reads {act : HeapM α} (hact : Tame act) (h : act.Reads) :
    Unbroken I (liftM act : Attempt ω α) := preservesRecords hact (.of_reads h) (.of_reads h)

theorem run (hx : Unbroken I x) : HostM.Unbroken I x.run := by
  refine (On.run hx).conseq (fun _ => id) ?_
  rintro (e | a) heap h
  · exact h
  · exact h

theorem mk {act : HostM ω (Except HeapError α)} (h : HostM.Unbroken I act) :
    Unbroken I (ExceptT.mk act : Attempt ω α) := by
  refine On.mk (HostM.On.conseq h (fun _ => id) ?_)
  rintro (e | a) heap h
  · exact h
  · exact h

theorem attempt {act : HeapM (Except HeapError α)} (hact : Tame act) (hsafe : act.Safe)
    (hpreservesRecords : act.PreservesRecords) : Unbroken I (HostM.attempt act : Attempt ω α) :=
  mk (HostM.Unbroken.preservesRecords hact hsafe hpreservesRecords)

theorem protecting (hx : Unbroken I x) : Unbroken I (HostM.protecting x) :=
  mk (.bind (.reads .protectDepth .protectDepth) fun _ => .bind (run hx) fun _ =>
    .bind (.preservesRecords .closeScope .closeScope .closeScope) fun _ => .pure)

end Attempt.Unbroken

namespace HostM

variable {host : Host ω} {function key : Handle}

theorem On.withTransient {hs : List Handle} {act : HostM ω α} {Q Q' : α → Heap → Prop}
    (hact : On (.unbroken I) P' act Q')
    (hP : ∀ heap transient, P heap → P' (heap.keeping transient))
    (hQ : ∀ a heap transient, Q' a heap → Q a (heap.keeping transient)) :
    On (.unbroken I) P (withTransient hs act) Q :=
  .bind (Q := fun _ => P') (.lift (.bind (Q := fun _ => P) (.get fun _ _ => id) fun _ =>
    .bind (Q := fun _ => P') (.modify (fun _ => rfl) (fun _ => rfl) (fun _ => rfl) fun heap => hP heap _)
      fun _ => .pure fun _ => id)) fun _ =>
  .bind hact fun a => .bind (Q := fun _ => Q a)
    (.lift (.modify (fun _ => rfl) (fun _ => rfl) (fun _ => rfl) fun heap => hQ a heap _))
      fun _ => .pure fun _ => id

namespace Unbroken

theorem withTransient {hs : List Handle} {act : HostM ω α} (hact : Unbroken I act) :
    Unbroken I (withTransient hs act) :=
  On.withTransient hact (fun _ transient h => h.keeping transient)
    fun _ _ transient h => h.keeping transient

theorem leaveRecovery {scope : RecoveryScope} :
    Unbroken I (liftM (HeapM.leaveRecovery scope) : HostM ω Bool) :=
  On.lift (.preserves .leaveRecovery HeapM.Safe.leaveRecovery fun heap changed heap' _ hrun => by
    obtain ⟨hkeeps, htally, -⟩ := HeapM.cuts_leaveRecovery hrun
    exact ⟨hkeeps, congrArg Tally.running htally⟩)

theorem modifyFinalizers {g : FinalizerState → FinalizerState}
    (hg : ∀ f, (g f).running = f.running) :
    Unbroken I (liftM (HeapM.modifyFinalizers g) : HostM ω PUnit) :=
  modifyHeap (fun _ => rfl) (fun _ => rfl) (fun _ => rfl) (fun _ => rfl) (fun _ => rfl) (fun _ => rfl)
    fun heap => hg heap.finalizers

theorem noteCall : Unbroken I (liftM (HeapM.noteCall record function key) : HostM ω PUnit) :=
  modifyHeap (fun _ => rfl) (fun _ => rfl) (fun _ => rfl) (fun _ => rfl) (fun _ => rfl) (fun _ => rfl)
    fun _ => rfl

theorem countRun : Unbroken I (liftM HeapM.countRun : HostM ω PUnit) :=
  modifyHeap (fun _ => rfl) (fun _ => rfl) (fun _ => rfl) (fun _ => rfl) (fun _ => rfl) (fun _ => rfl)
    fun _ => rfl

theorem invoke (hhost : host.Unbroken I) : Unbroken I (invoke host function key) := by
  refine bind (reads .kind .kind) fun k => ?_
  cases k
  case nativeFunction =>
    refine bind (reads .payload .payload) fun p => ?_
    cases p
    case nativeFunction routine =>
      cases routine with
      | none => exact pure
      | some routine => exact hhost.native routine key
    all_goals exact reads .wrongKind .wrongKind
  case closure =>
    refine bind getHeap fun heap => ?_
    cases heap.evaluator with
    | none => exact pure
    | some evaluator =>
      refine bind ?_ fun _ => bind (hhost.evaluate evaluator function key) fun outcome =>
        bind getHeap fun after => ?_
      · exact modifyHeap (fun _ => rfl) (fun _ => rfl) (fun _ => rfl) (fun _ => rfl) (fun _ => rfl)
          (fun _ => rfl) fun _ => rfl
      · split
        · refine bind ?_ fun _ => pure
          exact modifyHeap (fun _ => rfl) (fun _ => rfl) (fun _ => rfl) (fun _ => rfl)
            (fun _ => rfl) (fun _ => rfl) fun _ => rfl
        · exact pure
  all_goals exact throw id

theorem runFinalizer (hhost : host.Unbroken I) : Unbroken I (runFinalizer host record function key) := by
  refine bind (withTransient (bind noteCall fun _ => bind (reads .enterRecovery .enterRecovery)
    fun scope => bind (invoke hhost) fun outcome => bind leaveRecovery fun changed => ?_))
    fun outcome => bind countRun fun _ => ?_
  · split
    · exact bind note fun _ => pure
    · exact pure
  · cases outcome with
    | ok _ => exact pure
    | error e => exact bind (modifyFinalizers fun _ => rfl) fun _ => note

end Unbroken

end HostM

def Heap.PassAt (previous cursor : Handle) (heap : Heap) : Prop :=
  ∃ front rest, heap.Chain (front ++ rest) ∧ cursor = rest.headD .nil ∧
    (previous = .nil ∨ previous ∈ front)

theorem Strung.head_eq {fields : Handle → Option WeakFields} {cursor : Handle} {rs : List Handle}
    (hs : Strung fields cursor rs) : cursor = rs.headD .nil := by
  cases hs <;> rfl

namespace Heap.PassAt

variable {heap heap' : Heap} {previous cursor : Handle} {f : WeakFields}

theorem start {records : List Handle} (hc : heap.Chain records) :
    heap.PassAt .nil heap.weak.head := ⟨[], records, hc, hc.strung.head_eq, .inl rfl⟩

theorem extendsChain (hpassAt : heap.PassAt previous cursor) (hp : heap.ExtendsChain heap')
    (hrunning : heap.finalizers.running = true) : heap'.PassAt previous cursor := by
  obtain ⟨front, rest, hc, hcursor, hprevious⟩ := hpassAt
  obtain ⟨fresh, hc'⟩ := hp.chain hrunning hc
  exact ⟨fresh ++ front, rest, by rwa [List.append_assoc], hcursor,
    hprevious.imp_right fun hmem => List.mem_append_right fresh hmem⟩

theorem split (hpassAt : heap.PassAt previous cursor) (hne : cursor ≠ .nil) :
    ∃ front rest f, heap.Chain (front ++ cursor :: rest) ∧ (previous = .nil ∨ previous ∈ front) ∧
      heap.fieldsOf cursor = some f ∧ f.next = rest.headD .nil := by
  obtain ⟨front, rest, hc, hcursor, hprevious⟩ := hpassAt
  cases rest with
  | nil => exact absurd hcursor hne
  | cons r rest =>
    obtain rfl : cursor = r := hcursor
    obtain ⟨-, f, hf⟩ := hc.record (List.mem_append_right front List.mem_cons_self)
    exact ⟨front, rest, f, hc, hprevious, hf, (hc.strung.after hf).head_eq⟩

theorem advance (hpassAt : heap.PassAt previous cursor) (hne : cursor ≠ .nil)
    (hf : heap.fieldsOf cursor = some f) : heap.PassAt cursor f.next := by
  obtain ⟨front, rest, g, hc, -, hg, hnext⟩ := hpassAt.split hne
  obtain rfl : g = f := Option.some.inj (hg.symm.trans hf)
  exact ⟨front ++ [cursor], rest, by rwa [List.append_assoc], hnext,
    .inr (List.mem_append_right front List.mem_cons_self)⟩

theorem unlinks (hs : heap.Sound) (hpassAt : heap.PassAt previous cursor) (hne : cursor ≠ .nil)
    (hf : heap.fieldsOf cursor = some f) :
    ∃ heap', (HeapM.unlinkWeakRef cursor previous).run heap = .ok (⟨⟩, heap') ∧
      heap'.PassAt previous f.next ∧ heap'.finalizers.running = heap.finalizers.running := by
  obtain ⟨front, rest, g, hc, hprevious, hg, hnext⟩ := hpassAt.split hne
  obtain rfl : g = f := Option.some.inj (hg.symm.trans hf)
  obtain ⟨heap', hrun, hc', -⟩ := HeapM.ends_unlinkWeakRef hs hc
    (List.mem_append_right front List.mem_cons_self) (hprevious.imp_right (List.mem_append_left _))
  have hfirst : cursor ∉ front := fun hmem =>
    (List.disjoint_of_nodup_append hc.once) hmem List.mem_cons_self
  rw [List.erase_append_right _ hfirst, List.erase_cons_head] at hc'
  exact ⟨heap', hrun, ⟨front, rest, hc', hnext, hprevious⟩,
    congrArg FinalizerState.running (HeapM.unlinked_unlinkWeakRef hne hf hrun).1⟩

end Heap.PassAt

namespace HostM

variable {host : Host ω} {I : ω → Prop}

def FinalizerPass (previous cursor : Handle) (heap : Heap) : Prop :=
  heap.Sound ∧ heap.finalizers.running = true ∧ heap.PassAt previous cursor

theorem Unbroken.passing {act : HostM ω α} (hact : Unbroken I act) {previous cursor : Handle} :
    On (.loose I) (FinalizerPass previous cursor) act fun _ => FinalizerPass previous cursor := by
  intro state hstate heap hread ⟨hs, hrunning, hpassAt⟩
  refine (hact state hstate heap hread hs).conseq (fun _ => id) fun p heap' hend => ?_
  obtain ⟨hread', hp, hstate', hs'⟩ := hend
  exact ⟨hread', trivial, hstate', hs', hp.running.trans hrunning, hpassAt.extendsChain hp hrunning⟩

theorem finalizePass_on (hhost : host.Unbroken I) (fuel : Nat) (previous cursor : Handle)
    (found : Bool) (ran : Nat) : On (.loose I) (FinalizerPass previous cursor)
      (finalizePass host previous cursor found ran fuel)
      fun _ heap => heap.Sound ∧ heap.finalizers.running = true := by
  induction fuel generalizing previous cursor found ran with
  | zero => exact .throw id
  | succ fuel ih =>
    unfold finalizePass
    split
    · exact .pure fun heap h => ⟨h.1, h.2.1⟩
    · rename_i hnil
      have hne : cursor ≠ .nil := by simpa [Handle.isNil] using hnil
      refine .bind (Q := fun f heap => FinalizerPass previous cursor heap ∧ heap.fieldsOf cursor = some f)
        (.lift (.ends fun heap hread hpass => ?_)) fun fields =>
        .bind (Q := fun _ heap => FinalizerPass previous cursor heap ∧ heap.fieldsOf cursor = some fields)
          (.lift (.of_ends (fun heap e _ _ he => (Tame.flags heap e he).2) ?_)) fun fs => ?_
      · obtain ⟨front, rest, f, -, -, hf, -⟩ := hpass.2.2.split hne
        exact ⟨f, heap, HeapM.run_chainFields.mpr ⟨hf, rfl⟩, hread, trivial, hpass, hf⟩
      · intro heap fs heap' hread hat hrun
        obtain ⟨-, -, -, rfl⟩ := HeapM.run_flags.mp hrun
        exact ⟨hread, trivial, hat⟩
      · split
        · exact (ih cursor fields.next found ran).conseq
            (fun heap h => ⟨h.1.1, h.1.2.1, h.1.2.2.advance hne h.2⟩)
            fun _ _ => id
        · refine .bind (Q := fun _ => FinalizerPass previous fields.next)
            (.lift (.ends fun heap _ hat => ?_)) fun _ => ?_
          · obtain ⟨⟨hs, hrunning, hpassAt⟩, hf⟩ := hat
            obtain ⟨heap', hrun, hpassAt', hsame⟩ := hpassAt.unlinks hs hne hf
            obtain ⟨front, rest, hc, -⟩ := id hpassAt'
            exact ⟨⟨⟩, heap', hrun, ⟨_, hc⟩, trivial, HeapM.Safe.unlinkWeakRef _ _ _ hs hrun,
              hsame.trans hrunning, hpassAt'⟩
          · split
            · exact ih previous fields.next true ran
            · exact .bind (Unbroken.runFinalizer hhost).passing fun _ =>
                ih previous fields.next true (ran + 1)

theorem finalizePasses_on (hhost : host.Unbroken I) (fuel ran : Nat) :
    On (.loose I) (fun heap => heap.Sound ∧ heap.finalizers.running = true)
      (finalizePasses host ran fuel) fun _ heap => heap.Sound ∧ heap.finalizers.running = true := by
  induction fuel generalizing ran with
  | zero => exact .throw id
  | succ fuel ih =>
    refine .bind (Q := fun now => FinalizerPass .nil now.weak.head)
      (.getHeap fun heap ⟨records, hc⟩ ⟨hs, hrunning⟩ => ⟨hs, hrunning, .start hc⟩) fun now =>
      .bind Unbroken.stepBound.passing fun bound =>
      .bind (finalizePass_on hhost bound .nil now.weak.head false ran) fun result => ?_
    obtain ⟨found, ran⟩ := result
    dsimp only
    split
    · exact ih ran
    · exact .pure fun _ => id

theorem On.noneReady {act : HostM ω α}
    (h : On (.loose I) (fun heap => heap.Sound ∧ heap.finalizers.running = false) act
      fun _ heap => heap.Sound ∧ heap.finalizers.running = false) :
    On (.unbroken I) (fun heap => heap.Sound ∧ heap.finalizers.running = false) act
      fun _ => Heap.Sound := by
  intro state hstate heap hread hrests
  refine (h state hstate heap hread hrests).conseq (fun _ => id) fun p heap' hend => ?_
  obtain ⟨hread', -, hstate', hs', hrests'⟩ := hend
  exact ⟨hread', ⟨hrests'.trans hrests.2.symm, fun hrunning => nomatch hrests.2.symm.trans hrunning⟩,
    hstate', hs'⟩

namespace Unbroken

theorem runPendingFinalizers (hhost : host.Unbroken I) : Unbroken I (runPendingFinalizers host) := by
  refine On.bind (Q := fun now heap => heap.Sound ∧ heap.finalizers.running = now.finalizers.running)
    (.getHeap fun heap _ hs => ⟨hs, rfl⟩) fun now => ?_
  have hflag : ∀ b c : Bool, HeapM.On (.loose I)
      (fun heap => heap.Sound ∧ heap.finalizers.running = b)
      (HeapM.modifyFinalizers fun f => { f with running := c })
      fun _ heap => heap.Sound ∧ heap.finalizers.running = c := fun b c =>
    .ends fun heap hread hs => ⟨⟨⟩, _, rfl, hread.aside rfl rfl, trivial,
      hs.1.aside rfl rfl rfl rfl rfl, rfl⟩
  split
  · exact .pure fun _ h => h.1
  · rename_i hrests
    refine .conseq (On.noneReady (.bind (.lift (hflag false true)) fun _ =>
      .bind (finalizePasses_on hhost host.fuel 0) fun ran =>
      .bind (.lift (hflag true false)) fun _ => .pure fun _ => id)) (fun heap h => ⟨h.1, ?_⟩)
      fun _ _ => id
    exact h.2.trans (by simpa using hrests)

theorem weakRecords : Unbroken I (liftM HeapM.weakRecords : HostM ω (List Handle)) :=
  On.lift (.ends fun heap ⟨records, hc⟩ hs => ⟨records, heap,
    HeapM.run_weakRecords.mpr ⟨hc.listed, rfl⟩, ⟨records, hc⟩, .refl heap, hs⟩)

theorem pendingFinalizerCount : Unbroken I (liftM HeapM.pendingFinalizerCount : HostM ω Nat) :=
  On.lift (.of_ends (fun heap e hread _ he =>
    (HeapM.offChain_pendingFinalizerCount heap hread).1 e he) fun heap n heap' hread hs hrun => by
      obtain rfl := HeapM.run_pendingFinalizerCount hrun
      exact ⟨hread, .refl heap, hs⟩)

theorem runExitFinalizers (hhost : host.Unbroken I) : Unbroken I (runExitFinalizers host) := by
  refine bind getHeap fun heap => ?_
  split
  · exact pure
  · exact bind weakRecords fun records =>
      bind (preservesRecords (.flagOnExit records) (.flagOnExit records) (.flagOnExit records)) fun _ =>
      bind (runPendingFinalizers hhost) fun ran => bind (modifyFinalizers fun _ => rfl) fun _ =>
      bind note fun _ => pure

theorem requestCollection (hhost : host.Unbroken I) (level : ManagedHeap.Level) :
    Unbroken I (requestCollection host level) :=
  bind (On.lift .collects) fun _ => bind (runPendingFinalizers hhost) fun _ => pure

end Unbroken

end HostM

end ManagedHeap
