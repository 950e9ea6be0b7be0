import ManagedHeap.Proofs.HeapHistories
import ManagedHeap.Proofs.QuietLosses

/-!
# Computations that run no finalizer

A call runs no finalizer if it gets through with foreign code that cannot be run, and the
count of finalizers is what it was. What holds of a computation under this condition is said
as a relation of the heap before, the answer and the heap after; the relations compose along
with the computations.
-/

namespace ManagedHeap

/-- Foreign code that no call gets through. -/
def Host.mute {ω : Type} (fuel : Nat) : Host ω :=
  { fuel
    native := fun _ _ => throwThe Fault .unfinished
    evaluate := fun _ _ _ => throwThe Fault .unfinished }

theorem Host.mute_safe {ω : Type} (fuel : Nat) : (Host.mute fuel : Host ω).Safe :=
  ⟨fun _ _ => .throw, fun _ _ _ => .throw⟩

namespace HostM

variable {ω α β : Type}

def Quietly (act : HostM ω α) (Q : Heap → α → Heap → Prop) : Prop :=
  ∀ state heap a state' heap', heap.Sound → (act.run state).run heap = .ok ((a, state'), heap') →
    heap'.Sound ∧ heap.finalizers.run ≤ heap'.finalizers.run ∧
      (heap'.finalizers.run = heap.finalizers.run → Q heap a heap')

namespace Quietly

variable {x : HostM ω α} {f : α → HostM ω β} {Q Q' : Heap → α → Heap → Prop}
  {R : α → Heap → β → Heap → Prop}

theorem bind (hx : Quietly x Q) (hf : ∀ a, Quietly (f a) (R a)) :
    Quietly (x >>= f) fun heap b heap' => ∃ a mid, mid.Sound ∧ Q heap a mid ∧ R a mid b heap' := by
  intro state heap b state' heap' hs hrun
  rw [StateT.run_bind] at hrun
  obtain ⟨⟨a, state₁⟩, mid, hfirst, hrest⟩ := run_bind.mp hrun
  obtain ⟨hmid, hle, hQ⟩ := hx _ _ _ _ _ hs hfirst
  obtain ⟨hs', hle', hR⟩ := hf a _ _ _ _ _ hmid hrest
  refine ⟨hs', Nat.le_trans hle hle', fun heq => ⟨a, mid, hmid, hQ ?_, hR ?_⟩⟩
  · omega
  · omega

theorem pure {a : α} : Quietly (pure a : HostM ω α) fun heap b heap' => b = a ∧ heap' = heap := by
  intro state heap b state' heap' hs hrun
  obtain ⟨hb, rfl⟩ := run_pure.mp hrun
  injection hb with hb
  exact ⟨hs, Nat.le_refl _, fun _ => ⟨hb.symm, rfl⟩⟩

theorem throw {e : Fault} : Quietly (throwThe Fault e : HostM ω α) Q := by
  intro state heap b state' heap' _ hrun
  exact nomatch hrun

theorem throw_bind {e : Fault} {R : Heap → β → Heap → Prop} :
    Quietly ((throwThe Fault e : HostM ω α) >>= f) R := by
  intro state heap b state' heap' _ hrun
  exact nomatch hrun

theorem conseq (hx : Quietly x Q)
    (hQ : ∀ heap a heap', heap.Sound → Q heap a heap' → Q' heap a heap') : Quietly x Q' := by
  intro state heap a state' heap' hs hrun
  obtain ⟨hs', hle, h⟩ := hx _ _ _ _ _ hs hrun
  exact ⟨hs', hle, fun heq => hQ _ _ _ hs (h heq)⟩

theorem lift {act : HeapM α} (hsafe : act.Safe) (h : ∀ heap a heap', heap.Sound →
    act.run heap = .ok (a, heap') → heap'.finalizers.run = heap.finalizers.run ∧ Q heap a heap') :
    Quietly (liftM act : HostM ω α) Q := by
  intro state heap a state' heap' hs hrun
  change (act >>= fun b => Pure.pure (b, state)).run heap = _ at hrun
  obtain ⟨b, mid, hact, hpure⟩ := run_bind.mp hrun
  obtain ⟨hb, rfl⟩ := run_pure.mp hpure
  injection hb with hb
  subst hb
  obtain ⟨hcount, hQ⟩ := h _ _ _ hs hact
  exact ⟨hsafe _ _ _ hs hact, Nat.le_of_eq hcount.symm, fun _ => hQ⟩

theorem reads {act : HeapM α} (h : act.Reads) : Quietly (liftM act : HostM ω α)
    fun heap a heap' => act.run heap = .ok (a, heap) ∧ heap' = heap := by
  refine lift (.of_reads h) fun heap a heap' _ hrun => ?_
  obtain rfl := h _ _ _ hrun
  exact ⟨rfl, hrun, rfl⟩

theorem getHeap : Quietly (getThe Heap : HostM ω Heap) fun heap a heap' => a = heap ∧ heap' = heap :=
  lift (.of_reads .get) fun heap a heap' _ hrun => by
    obtain ⟨rfl, rfl⟩ := run_get.mp hrun
    exact ⟨rfl, rfl, rfl⟩

end Quietly

end HostM

/-- What an operation is told to keep alive outlives what happens in between, and the arena does not
grow. -/
structure Heap.KeepsPinned (heap heap' : Heap) : Prop where
  roots : heap'.roots = heap.roots
  slots : heap'.protect.slots = heap.protect.slots
  symbols : heap'.symbols = heap.symbols
  capacity : heap'.arena.capacity = heap.arena.capacity
  conserves : ∀ start, (∀ p, start p → heap.Rooted p) → heap.Conserves heap' start
  losesUnreached : ∀ records, heap.Chain records → ∃ rs, heap.LosesUnreached heap' heap.Rooted [] records rs
  lives : ∃ es, heap.Lives es heap'

def Heap.Claims (heap heap' : Heap) (kind : Kind) (h : Handle) : Prop :=
  ∃ es, heap.Lives es heap' ∧ .claimed h kind ∈ es

section Lives

variable {heap mid heap' : Heap} {es fs : List Entry} {kind : Kind} {h : Handle}

theorem Heap.Claims.before (hlast : mid.Claims heap' kind h) (hfirst : heap.Lives es mid) :
    heap.Claims heap' kind h := by
  obtain ⟨fs, hlives, hmem⟩ := hlast
  exact ⟨es ++ fs, hfirst.trans hlives, List.mem_append_right es hmem⟩

theorem Heap.Claims.after (hfirst : heap.Claims mid kind h) (hlast : mid.Lives fs heap') :
    heap.Claims heap' kind h := by
  obtain ⟨es, hlives, hmem⟩ := hfirst
  exact ⟨es ++ fs, hlives.trans hlast, List.mem_append_left fs hmem⟩

end Lives

namespace Heap.KeepsPinned

variable {heap mid heap' : Heap}

theorem refl (heap : Heap) : heap.KeepsPinned heap :=
  ⟨rfl, rfl, rfl, rfl, fun start _ => .refl heap start, fun _ hc => ⟨_, .refl hc⟩, [], .refl⟩

theorem pins (hw : heap.KeepsPinned heap') (h : Handle) : heap'.Pins h ↔ heap.Pins h := by
  unfold Heap.Pins
  rw [hw.roots, hw.slots]

theorem rooted (hw : heap.KeepsPinned heap') (h : Handle) : heap'.Rooted h ↔ heap.Rooted h := by
  unfold Heap.Rooted
  rw [hw.pins, hw.symbols]

theorem trans (hfirst : heap.KeepsPinned mid) (hlast : mid.KeepsPinned heap') :
    heap.KeepsPinned heap' := by
  obtain ⟨es, hes⟩ := hfirst.lives
  obtain ⟨fs, hfs⟩ := hlast.lives
  refine ⟨hlast.roots.trans hfirst.roots, hlast.slots.trans hfirst.slots,
    hlast.symbols.trans hfirst.symbols, hlast.capacity.trans hfirst.capacity, fun start hroots => ?_,
    fun records hc => ?_, es ++ fs, hes.trans hfs⟩
  · exact (hfirst.conserves start hroots).trans
      (hlast.conserves start fun p hp => (hfirst.rooted p).mpr (hroots p hp))
  · obtain ⟨ms, hms⟩ := hfirst.losesUnreached records hc
    obtain ⟨rs, hrs⟩ := hlast.losesUnreached ms hms.chain
    exact ⟨rs, hms.trans (hrs.mono fun p => (hfirst.rooted p).mpr)⟩

theorem of_redrawn (hr : heap.Redrawn heap' heap.graph)
    (hcapacity : heap'.arena.capacity = heap.arena.capacity) (hlives : ∃ es, heap.Lives es heap') :
    heap.KeepsPinned heap' :=
  ⟨congrArg Control.roots hr.control, congrArg (fun c : Control => c.protect.slots) hr.control,
    congrArg Control.symbols hr.control, hcapacity, fun _ _ => .beside hr.graph,
    fun _ hc => ⟨_, .of_redrawn hc hr⟩, hlives⟩

end Heap.KeepsPinned

theorem Collected.keepsPinned {level : Level} {records : List Handle} {heap heap' : Heap}
    {o : Outcome} (hcol : Collected level records heap heap' o) (hs : heap.Sound)
    (hshape : heap'.arena.shape = heap.arena.shape) (hlives : ∃ es, heap.Lives es heap') :
    heap.KeepsPinned heap' := by
  refine ⟨congrArg Control.roots hcol.control, congrArg (fun c : Control => c.protect.slots) hcol.control,
    congrArg Control.symbols hcol.control, Arena.capacity_of_shape hshape, ?_,
    fun _ hc => ⟨_, hcol.losesUnreached hs hc fun _ => id⟩, hlives⟩
  intro start hroots h c hr hc
  have hkeeps : ∃ c, heap.arena.get? h = some c ∧ heap.Keeps level records h c := by
    clear hc
    induction hr with
    | start hstart hc =>
      refine ⟨_, hc, keeps_of_start hc (.inl ?_)⟩
      rcases hroots _ hstart with hpin | hsymbol
      · exact List.mem_append_left _ (List.mem_append.mpr hpin)
      · exact List.mem_append_right _ hsymbol
    | edge _ hc hperm hk hd ih =>
      obtain ⟨c, hc', hkeeps⟩ := ih
      rw [hc, Option.some.injEq] at hc'
      subst hc'
      exact ⟨_, hd, keeps_edge hs hc hperm hkeeps hk hd⟩
  obtain ⟨c', hc', hkeeps⟩ := hkeeps
  rw [hc, Option.some.injEq] at hc'
  subst hc'
  obtain ⟨d, hd⟩ := hcol.stayed hc hkeeps
  have hlasting := (hcol.same hc hd).lasting
  exact ⟨d, hd, .of_content (Cell.content_of_lasting hlasting), Cell.refcount_of_lasting hlasting⟩

theorem HeapM.keepsPinned_unlinkWeakRef {heap heap' : Heap} {record hint : Handle} {u : PUnit}
    {key value next : Handle} (hs : heap.Sound) (hne : record ≠ .nil)
    (hfields : heap.arena.Record record ⟨key, value, .nil, next⟩) (hready : heap.arena.Ready record)
    (hrun : (unlinkWeakRef record hint).run heap = .ok (u, heap')) : heap.KeepsPinned heap' := by
  obtain ⟨_, _, -, -, hcontrol, -⟩ := run_unlinkWeakRef hrun
  have hamends := Retouches.unlinkWeakRef hs hrun
  refine ⟨congrArg Control.roots hcontrol, congrArg (fun c : Control => c.protect.slots) hcontrol,
    congrArg Control.symbols hcontrol, Arena.capacity_of_shape (Arena.shape_of_books hamends.books),
    fun start _ h c _ hc => ?_, fun _ hchain => ⟨_, losesUnreached_unlinkWeakRef hchain hne hfields hready hrun⟩,
    [], hamends.act.lives⟩
  obtain ⟨d, hd, hcount, hself, hother⟩ := get?_unlinkWeakRef hc hrun
  refine ⟨d, hd, ?_, hcount⟩
  by_cases hh : h = record
  · subst hh
    obtain ⟨e, he, hp⟩ := hfields
    rw [hc, Option.some.injEq] at he
    subst he
    exact .inr ⟨key, value, next, hp, hself rfl⟩
  · exact .of_content (hother hh).1

namespace HostM

variable {ω α β : Type} {fuel : Nat} {x act : HostM ω α} {f : α → HostM ω β}
  {Q : Heap → α → Heap → Prop}

def RunsOnlyGrow (act : HostM ω α) : Prop := Quietly act fun _ _ _ => True

theorem Quietly.runsOnlyGrow (h : Quietly act Q) : RunsOnlyGrow act := h.conseq fun _ _ _ _ _ => trivial

namespace RunsOnlyGrow

theorem bind (hx : RunsOnlyGrow x) (hf : ∀ a, RunsOnlyGrow (f a)) : RunsOnlyGrow (x >>= f) :=
  (Quietly.bind hx hf).runsOnlyGrow

theorem pure {a : α} : RunsOnlyGrow (pure a : HostM ω α) := Quietly.pure.runsOnlyGrow

theorem lift {act : HeapM α} (hsafe : act.Safe) (h : ∀ heap a heap',
    act.run heap = .ok (a, heap') → heap'.finalizers.run = heap.finalizers.run) :
    RunsOnlyGrow (liftM act : HostM ω α) :=
  Quietly.lift hsafe fun heap a heap' _ hrun => ⟨h heap a heap' hrun, trivial⟩

theorem reads {act : HeapM α} (h : act.Reads) : RunsOnlyGrow (liftM act : HostM ω α) :=
  (Quietly.reads h).runsOnlyGrow

theorem note {e : Event} : RunsOnlyGrow (liftM (HeapM.note e) : HostM ω PUnit) :=
  lift .note fun _ _ _ hrun => run_modify.mp hrun ▸ rfl

end RunsOnlyGrow

namespace Quietly

theorem withTransient {hs : List Handle} (hact : Quietly act Q) :
    Quietly (withTransient hs act) fun heap a heap' => ∃ mid, mid.Sound ∧
      Q { heap with roots := { heap.roots with transient := heap.roots.transient ++ hs.toArray } }
        a mid ∧
      heap' = { mid with roots :=
        { mid.roots with transient := mid.roots.transient.shrink heap.roots.transient.size } } := by
  refine (bind (lift .openTransient (Q := fun heap depth heap' =>
      depth = heap.roots.transient.size ∧ heap' = { heap with roots :=
        { heap.roots with transient := heap.roots.transient ++ hs.toArray } }) ?_) fun depth =>
    bind hact fun a => bind (lift .closeTransient (Q := fun heap _ heap' =>
      heap' = { heap with roots :=
        { heap.roots with transient := heap.roots.transient.shrink depth } }) ?_) fun _ =>
    pure).conseq ?_
  · intro heap depth heap' _ hrun
    simp only [HeapM.openTransient, HeapM.modifyRoots, run_bind, run_get, run_modify,
      run_pure] at hrun
    obtain ⟨_, _, ⟨rfl, rfl⟩, _, _, rfl, rfl, rfl⟩ := hrun
    exact ⟨rfl, rfl, rfl⟩
  · intro heap u heap' _ hrun
    obtain rfl := run_modify.mp hrun
    exact ⟨rfl, rfl⟩
  · rintro heap a heap' - ⟨_, _, -, ⟨rfl, rfl⟩, _, mid, hmid, hQ, _, _, -, rfl, rfl, rfl⟩
    exact ⟨mid, hmid, hQ, rfl⟩

theorem invoke (function key : Handle) : RunsOnlyGrow (invoke (.mute fuel : Host ω) function key) := by
  refine .bind (.reads .kind) fun k => ?_
  cases k
  case nativeFunction =>
    refine .bind (.reads .payload) fun p => ?_
    cases p
    case nativeFunction routine =>
      cases routine with
      | none => exact .pure
      | some routine => exact throw
    all_goals exact .reads .wrongKind
  case closure =>
    refine .bind getHeap.runsOnlyGrow fun heap => ?_
    cases heap.evaluator with
    | none => exact .pure
    | some evaluator =>
      refine .bind (.lift (.modify (fun _ => rfl) (fun _ => rfl) (fun _ => rfl) (fun _ => rfl)
        fun _ => rfl) fun _ _ _ hrun => run_modify.mp hrun ▸ rfl) fun _ => ?_
      exact throw_bind
  all_goals exact throw

theorem counted {rest : HostM ω α} (hrest : RunsOnlyGrow rest) :
    Quietly (liftM HeapM.countRun >>= fun _ => rest) fun _ _ _ => False := by
  intro state heap a state' heap' hs hrun
  rw [StateT.run_bind] at hrun
  obtain ⟨⟨_, state₁⟩, mid, hcount, hlast⟩ := run_bind.mp hrun
  change (HeapM.countRun >>= fun b => Pure.pure (b, state)).run heap = _ at hcount
  obtain ⟨_, _, hmodify, hpure⟩ := run_bind.mp hcount
  obtain rfl := run_modify.mp hmodify
  obtain ⟨-, rfl⟩ := run_pure.mp hpure
  have hmid : Heap.Sound { heap with
      finalizers := { heap.finalizers with run := heap.finalizers.run + 1 }
      journal := heap.journal.record .returned } :=
    hs.aside rfl rfl rfl rfl rfl
  obtain ⟨hs', hle, -⟩ := hrest _ _ _ _ _ hmid hlast
  have hup : heap.finalizers.run + 1 ≤ heap'.finalizers.run := hle
  exact ⟨hs', by omega, by omega⟩

theorem runFinalizer (record function key : Handle) :
    Quietly (runFinalizer (.mute fuel : Host ω) record function key) fun _ _ _ => False := by
  have hinside : RunsOnlyGrow (do
      HeapM.noteCall record function key
      let scope ← HeapM.enterRecovery
      let outcome ← HostM.invoke (.mute fuel : Host ω) function key
      if ← HeapM.leaveRecovery scope then HeapM.note .stateUnwound
      return outcome) := by
    refine .bind (.lift .noteCall fun _ _ _ hrun => run_modify.mp hrun ▸ rfl) fun _ =>
      .bind (.reads .enterRecovery) fun scope => .bind (invoke function key) fun outcome =>
      .bind (.lift .leaveRecovery fun heap changed heap' hrun => ?_) fun changed => ?_
    · simp only [HeapM.leaveRecovery, run_bind] at hrun
      obtain ⟨now, _, henter, hrun⟩ := hrun
      obtain rfl := HeapM.Reads.enterRecovery _ _ _ henter
      split at hrun
      · simp only [run_bind, run_throw, false_and, exists_false] at hrun
      · simp only [HeapM.modifyRoots, run_bind, run_modify, run_pure] at hrun
        obtain ⟨_, _, rfl, _, _, rfl, -, rfl⟩ := hrun
        rfl
    · split
      · exact .bind .note fun _ => .pure
      · exact .pure
  refine (bind (withTransient hinside).runsOnlyGrow fun outcome => counted ?_).conseq ?_
  · cases outcome with
    | ok u => exact .pure
    | error e =>
      exact .bind (.lift .modifyFinalizers fun _ _ _ hrun => run_modify.mp hrun ▸ rfl) fun _ => .note
  · rintro heap a heap' - ⟨_, _, _, _, hno⟩
    exact hno

theorem finalizePass (steps : Nat) (previous cursor : Handle) (found : Bool) (ran : Nat) :
    Quietly (finalizePass (.mute fuel : Host ω) previous cursor found ran steps)
      fun heap _ heap' => heap.KeepsPinned heap' := by
  induction steps generalizing previous cursor found ran with
  | zero => exact throw
  | succ steps ih =>
    unfold HostM.finalizePass
    split
    · exact pure.conseq fun heap a heap' _ h => h.2 ▸ .refl heap
    · rename_i hcursor
      replace hcursor : cursor ≠ .nil := by simpa [Handle.isNil] using hcursor
      refine (bind (reads .chainFields) fun fields => bind (reads .flags) fun flags => (?_ :
        Quietly _ fun heap _ heap' => heap.arena.Record cursor fields →
          (flags.readyToFinalize = true → heap.arena.Ready cursor) → heap.KeepsPinned heap')).conseq ?_
      · split
        · exact (ih cursor fields.next found ran).conseq fun _ _ _ _ hw _ _ => hw
        · rename_i hflag
          obtain ⟨key, value, finalizer, next⟩ := fields
          refine (bind (lift .unlinkWeakRef (Q := fun heap _ heap' =>
              heap.arena.Record cursor ⟨key, value, .nil, next⟩ → heap.arena.Ready cursor →
                heap.KeepsPinned heap') ?_)
            fun _ => (?_ : Quietly _ fun heap _ heap' =>
              finalizer = .nil ∧ heap.KeepsPinned heap')).conseq ?_
          · intro heap u heap' hs hrun
            obtain ⟨_, _, -, -, hcontrol, -⟩ := HeapM.run_unlinkWeakRef hrun
            exact ⟨congrArg (fun c : Control => c.finalizers.run) hcontrol,
              fun hrecord hready => HeapM.keepsPinned_unlinkWeakRef hs hcursor hrecord hready hrun⟩
          · split
            · rename_i hnil
              exact (ih previous next true ran).conseq fun _ _ _ _ hw =>
                ⟨by simpa [Handle.isNil] using hnil, hw⟩
            · refine (bind (runFinalizer cursor finalizer key) fun _ => ih previous next true (ran + 1)).conseq ?_
              rintro heap a heap' - ⟨_, _, _, hno, _⟩
              exact hno.elim
          · rintro heap a heap' - ⟨_, mid, -, hfirst, rfl, hlast⟩ hrecord hready
            exact (hfirst hrecord (hready (by simpa using hflag))).trans hlast
      · rintro heap a heap' - ⟨fields, _, -, ⟨hfields, rfl⟩, fs, _, -, ⟨hflags, rfl⟩, hlast⟩
        refine hlast ?_ fun hready => ?_
        · simp only [HeapM.chainFields, run_bind, run_get, run_lift] at hfields
          obtain ⟨_, _, ⟨rfl, rfl⟩, hfields, -⟩ := hfields
          exact Arena.weakFields_eq_ok.mp hfields
        · simp only [HeapM.flags, run_bind, HeapM.run_cell, run_pure] at hflags
          obtain ⟨c, _, ⟨hc, -⟩, rfl, -⟩ := hflags
          exact ⟨c, hc, hready⟩

theorem finalizePasses (steps ran : Nat) :
    Quietly (finalizePasses (.mute fuel : Host ω) ran steps)
      fun heap _ heap' => heap.KeepsPinned heap' := by
  induction steps generalizing ran with
  | zero => exact throw
  | succ steps ih =>
    refine (bind getHeap fun heap => bind (bind (reads .walkBound) fun _ => pure) fun bound =>
      bind (finalizePass bound .nil heap.weak.head false ran) fun result =>
        (?_ : Quietly _ fun heap _ heap' => heap.KeepsPinned heap')).conseq ?_
    · obtain ⟨found, ran⟩ := result
      dsimp only
      split
      · exact ih ran
      · exact pure.conseq fun heap a heap' _ h => h.2 ▸ .refl heap
    · rintro heap a heap' - ⟨_, _, -, ⟨-, rfl⟩, _, _, -, ⟨_, _, -, ⟨-, rfl⟩, -, rfl⟩, _, mid, -,
        hfirst, hlast⟩
      exact hfirst.trans hlast

theorem runPendingFinalizers : Quietly (runPendingFinalizers (.mute fuel : Host ω))
    fun heap _ heap' => heap.KeepsPinned heap' := by
  have hflag : ∀ g : FinalizerState → FinalizerState, (∀ f, (g f).run = f.run) →
      Quietly (liftM (HeapM.modifyFinalizers g) : HostM ω PUnit)
        fun heap _ heap' => heap.KeepsPinned heap' := by
    refine fun g hg => lift .modifyFinalizers fun heap u heap' _ hrun => ?_
    obtain rfl := run_modify.mp hrun
    exact ⟨hg _, rfl, rfl, rfl, rfl, fun start _ => .beside rfl,
      fun _ hc => ⟨_, .aside hc rfl rfl rfl⟩, [], .aside rfl rfl rfl⟩
  refine (bind getHeap fun heap => (?_ :
    Quietly _ fun heap _ heap' => heap.KeepsPinned heap')).conseq ?_
  · split
    · exact pure.conseq fun heap a heap' _ h => h.2 ▸ .refl heap
    · refine (bind (hflag (fun f => { f with running := true }) fun _ => rfl) fun _ =>
        bind (finalizePasses fuel 0) fun ran =>
        bind (hflag (fun f => { f with running := false }) fun _ => rfl) fun _ => pure).conseq ?_
      rintro heap a heap' - ⟨_, _, -, hfirst, _, _, -, hpasses, _, _, -, hlast, -, rfl⟩
      exact (hfirst.trans hpasses).trans hlast
  · rintro heap a heap' - ⟨_, _, -, ⟨-, rfl⟩, hlast⟩
    exact hlast

end Quietly

end HostM

/-- What an allocation that runs no finalizer answers: an object that is not among those that
the pinned objects and `kept` reach, and is as it was claimed. -/
structure Heap.Provides (heap heap' : Heap) (kind : Kind) (length : Nat) (kept : List Handle)
    (h : Handle) : Prop where
  roots : heap'.roots = heap.roots
  slots : heap'.protect.slots = heap.protect.slots
  symbols : heap'.symbols = heap.symbols
  conserves : ∀ start, (∀ p, start p → heap.Rooted p ∨ p ∈ kept) → heap.Conserves heap' start
  unrooted : ∀ start, (∀ p, start p → heap.Rooted p ∨ p ∈ kept) → ¬ heap.ReachedFrom start h
  losesUnreached : ∀ records, heap.Chain records → ∃ rs, heap.LosesUnreached heap' (heap.RootedOr kept) [] records rs ∧
    ¬ heap.ReachedFrom (heap'.ReachedInTheEnd (heap.RootedOr kept) rs) h
  blank : ∃ payload, Payload.forKind? kind length = some payload ∧
    heap'.graph h = some (.blank kind payload)
  claims : heap.Claims heap' kind h

def Heap.AllocatesKeeping (heap : Heap) (kind : Kind) (length : Nat) (h : Handle) (heap' : Heap) : Prop :=
  ∃ mid, mid.Sound ∧ heap.KeepsPinned mid ∧ mid.Gains heap' kind length h ∧ mid.Claims heap' kind h

namespace Heap

variable {heap mid heap' : Heap} {kind : Kind} {length : Nat} {h : Handle} {kept : List Handle}

theorem KeepsPinned.allocatesKeeping (hw : heap.KeepsPinned mid) (ho : mid.AllocatesKeeping kind length h heap') :
    heap.AllocatesKeeping kind length h heap' := by
  obtain ⟨last, hlast, hmid, hgains⟩ := ho
  exact ⟨last, hlast, hw.trans hmid, hgains⟩

theorem Provides.carries (hp : heap.Provides heap' kind length kept h) (start : Handle → Prop)
    (hstart : ∀ p, start p → heap.Pins p ∨ p ∈ kept) : heap.Carries heap' start :=
  (hp.conserves start fun p h => (hstart p h).imp_left .inl).carries

theorem Provides.unreached (hp : heap.Provides heap' kind length kept h) (start : Handle → Prop)
    (hstart : ∀ p, start p → heap.Pins p ∨ p ∈ kept) : ¬ heap.ReachedFrom start h :=
  hp.unrooted start fun p h => (hstart p h).imp_left .inl

theorem Gains.conserves {start : Handle → Prop} (hg : heap.Gains heap' kind length h) :
    heap.Conserves heap' start := by
  obtain ⟨payload, -, hgraph⟩ := hg.graph
  refine .of_graph fun k c hc => ?_
  have hk : k ≠ h := by
    rintro rfl
    exact nomatch hg.dead.symm.trans hc
  rw [hgraph, Graph.add_ne hk, hc]

theorem Gains.provides (hg : heap.Gains heap' kind length h) (hclaims : heap.Claims heap' kind h) :
    heap.Provides heap' kind length kept h := by
  obtain ⟨payload, hpayload, hgraph⟩ := hg.graph
  refine ⟨congrArg Control.roots hg.control,
    congrArg (fun c : Control => c.protect.slots) hg.control,
    congrArg Control.symbols hg.control, fun start _ => hg.conserves, fun start _ hr => ?_,
    fun _ hc => ⟨_, Heap.LosesUnreached.gains (.refl hc) hg⟩, ⟨payload, hpayload, ?_⟩, hclaims⟩
  · obtain ⟨c, hc⟩ := hr.live
    rw [graph_eq_none.mp hg.dead] at hc
    exact nomatch hc
  · rw [hgraph, Graph.add_self]

theorem Provides.of_redrawn (hr : heap.Redrawn mid heap.graph) (hlives : ∃ es, heap.Lives es mid)
    (hp : mid.Provides heap' kind length kept h) : heap.Provides heap' kind length kept h := by
  have hroots : mid.roots = heap.roots := congrArg Control.roots hr.control
  have hslots : mid.protect.slots = heap.protect.slots :=
    congrArg (fun c : Control => c.protect.slots) hr.control
  have hsymbols : mid.symbols = heap.symbols := congrArg Control.symbols hr.control
  have hrooted : ∀ p, heap.Rooted p ∨ p ∈ kept → mid.Rooted p ∨ p ∈ kept := by
    unfold Heap.Rooted Heap.Pins
    rw [hroots, hslots, hsymbols]
    exact fun p => id
  have hconserves : ∀ start, heap.Conserves mid start := fun start => .beside hr.graph
  obtain ⟨es, hlives⟩ := hlives
  refine ⟨hp.roots.trans hroots, hp.slots.trans hslots, hp.symbols.trans hsymbols,
    fun start hstart => ?_, fun start hstart hreached => ?_, fun records hc => ?_, hp.blank,
    hp.claims.before hlives⟩
  · exact (hconserves start).trans (hp.conserves start fun p h => hrooted p (hstart p h))
  · exact hp.unrooted start (fun p h => hrooted p (hstart p h))
      ((hconserves start).carries.reached hreached)
  · obtain ⟨rs, hlosesUnreached, hout⟩ := hp.losesUnreached records ((Heap.Preserves.of_redrawn hr).chain hc)
    have hbases : ∀ p, heap'.ReachedInTheEnd (heap.RootedOr kept) rs p →
        heap'.ReachedInTheEnd (mid.RootedOr kept) rs p := fun p => Or.imp_left (hrooted p)
    exact ⟨rs, Heap.LosesUnreached.trans (.of_redrawn hc hr) (hlosesUnreached.mono hrooted),
      fun hreached => hout (((hconserves _).carries.reached hreached).mono hbases)⟩

theorem AllocatesKeeping.provides (ho : Heap.AllocatesKeeping
      { heap with roots := { heap.roots with transient := heap.roots.transient ++ kept.toArray } }
      kind length h mid) :
    heap.Provides { mid with roots :=
      { mid.roots with transient := mid.roots.transient.shrink heap.roots.transient.size } }
      kind length kept h := by
  obtain ⟨last, -, hw, hgains, hclaims⟩ := ho
  have hrooted : ∀ p, heap.Rooted p ∨ p ∈ kept → Heap.Rooted { heap with roots :=
      { heap.roots with transient := heap.roots.transient ++ kept.toArray } } p := by
    unfold Heap.Rooted Heap.Pins
    intro p hp
    simp only [RootSet.handles, List.mem_append, Array.toList_append] at hp ⊢
    tauto
  have hopen : ∀ start, heap.Conserves { heap with roots :=
      { heap.roots with transient := heap.roots.transient ++ kept.toArray } } start :=
    fun start => .beside rfl
  have hconserves : ∀ start, (∀ p, start p → heap.Rooted p ∨ p ∈ kept) →
      heap.Conserves last start := fun start hstart =>
    (hopen start).trans (hw.conserves start fun p hp => hrooted p (hstart p hp))
  obtain ⟨payload, hpayload, hgraph⟩ := hgains.graph
  obtain ⟨es, hlives⟩ := hw.lives
  have hroots := (congrArg Control.roots hgains.control).trans hw.roots
  refine ⟨?_, (congrArg (fun c : Control => c.protect.slots) hgains.control).trans hw.slots,
    (congrArg Control.symbols hgains.control).trans hw.symbols, ?_, ?_, fun records hc => ?_,
    ⟨payload, hpayload, ?_⟩, ?_⟩
  · change { mid.roots with transient := mid.roots.transient.shrink heap.roots.transient.size } = _
    rw [show mid.roots = _ from hroots]
    simp
  · intro start hstart
    have hclose : mid.Conserves { mid with roots := { mid.roots with
        transient := mid.roots.transient.shrink heap.roots.transient.size } } start := .beside rfl
    exact ((hconserves start hstart).trans hgains.conserves).trans hclose
  · intro start hstart hr
    obtain ⟨c, hc⟩ := hr.live
    obtain ⟨d, hd, -⟩ := hconserves start hstart h c hr hc
    have hdead := Heap.graph_eq_none.mp hgains.dead
    rw [hd] at hdead
    cases hdead
  · obtain ⟨rs, hlosesUnreached⟩ := hw.losesUnreached records (hc.aside rfl rfl)
    obtain ⟨hlast, hout⟩ := (hlosesUnreached.mono hrooted).gains hgains
    exact ⟨rs, hlast.between hc rfl rfl, fun hr => hout ((hopen _).carries.reached hr)⟩
  · change mid.graph h = _
    rw [hgraph, Graph.add_self]
  · have hopened : Heap.Lives [] heap { heap with roots :=
        { heap.roots with transient := heap.roots.transient ++ kept.toArray } } := .aside rfl rfl rfl
    have hclosed : Heap.Lives [] mid { mid with roots := { mid.roots with
        transient := mid.roots.transient.shrink heap.roots.transient.size } } := .aside rfl rfl rfl
    exact (hclaims.after hclosed).before (hopened.trans hlives)

end Heap

def Heap.AllocatesOrKeeps (heap : Heap) (kind : Kind) (length : Nat) {ε : Type} (r : Except ε Handle)
    (heap' : Heap) : Prop :=
  match r with
  | .ok h => heap.AllocatesKeeping kind length h heap'
  | .error _ => heap.KeepsPinned heap'

theorem Heap.KeepsPinned.tries {heap mid heap' : Heap} {kind : Kind} {length : Nat} {ε : Type}
    {r : Except ε Handle} (hw : heap.KeepsPinned mid) (ht : mid.AllocatesOrKeeps kind length r heap') :
    heap.AllocatesOrKeeps kind length r heap' := by
  cases r with
  | ok h => exact hw.allocatesKeeping ht
  | error e => exact hw.trans ht

namespace HeapM

variable {heap heap' : Heap} {kind : Kind} {length : Nat} {r : Except Bool Handle}

theorem keepsPinned_collect {level : Level} {reason : Reason} {o : Outcome} (hs : heap.Sound)
    (hrun : (collect level reason).run heap = .ok (o, heap')) :
    heap'.finalizers.run = heap.finalizers.run ∧ heap.KeepsPinned heap' := by
  obtain ⟨records, hcol⟩ := collect_collected hs hrun
  exact ⟨congrArg (fun c : Control => c.finalizers.run) hcol.control,
    hcol.keepsPinned hs (collect_shape hs hrun) ⟨_, (Heap.Act.collect hs hrun).lives⟩⟩

theorem claims_claimCell? {payload : Payload} {claimed : Option Handle} (hs : heap.Sound)
    (hkind : kind ≠ .free) (hp : Payload.forKind? kind length = some payload)
    (hrun : (claimCell? (.forRequest kind length) kind payload (chunksFor kind length)).run heap =
      .ok (claimed, heap')) :
    (claimed = none → heap' = heap) ∧ ∀ h, claimed = some h → heap.Claims heap' kind h := by
  cases claimed with
  | none =>
    rcases run_claim hrun with ⟨-, rfl⟩ | ⟨h, arena, hsome, -⟩
    · exact ⟨fun _ => rfl, nofun⟩
    · exact nomatch hsome
  | some h =>
    refine ⟨nofun, fun k hk => ?_⟩
    obtain rfl := Option.some.inj hk
    exact ⟨_, (Heap.Act.claim hs hkind hp hrun).lives, List.mem_singleton.mpr rfl⟩

theorem claims_takeOrGrow {reserved : Bool} (hs : heap.Sound) (hkind : kind ≠ .free)
    (hrun : (takeOrGrow kind length reserved).run heap = .ok (r, heap')) :
    (∀ b, r = .error b → ∃ es, heap.Lives es heap') ∧
      ∀ h, r = .ok h → heap.Claims heap' kind h := by
  rcases run_take hrun with ⟨⟨b, rfl⟩, rfl⟩ | ⟨-, mid, hgrow, payload, claimed, hp, hclaim, hr⟩
  · exact ⟨fun _ _ => ⟨[], .refl⟩, nofun⟩
  · obtain ⟨hmid, es, hlives⟩ : mid.Sound ∧ ∃ es, heap.Lives es mid := by
      rcases hgrow with rfl | ⟨room, hgrow⟩
      · exact ⟨hs, [], .refl⟩
      · exact ⟨(run_grow hs hgrow).1, [], (Heap.Act.grow hgrow).lives⟩
    obtain ⟨hnone, hsome⟩ := claims_claimCell? hmid hkind hp hclaim
    rcases hr with ⟨hclaimed, rfl⟩ | ⟨h, hclaimed, rfl⟩
    · exact ⟨fun _ _ => ⟨es, hnone hclaimed ▸ hlives⟩, nofun⟩
    · refine ⟨nofun, fun k hk => ?_⟩
      obtain rfl := Except.ok.inj hk
      exact (hsome _ hclaimed).before hlives

theorem claims_allocateFast {h : Handle} (hs : heap.Sound)
    (hrun : (allocateFast kind length).run heap = .ok (h, heap')) :
    (∃ es, heap.Lives es heap') ∧ (h ≠ .noObject → heap.Claims heap' kind h) := by
  rcases run_fast hrun with ⟨rfl, rfl⟩ | ⟨hkind, hsmall, payload, claimed, hp, hclaim, rfl⟩
  · exact ⟨⟨[], .refl⟩, fun hno => absurd rfl hno⟩
  · have hchunks : chunksFor kind length = 0 := if_neg (hsmall ▸ Bool.false_ne_true)
    obtain ⟨hnone, hsome⟩ := claims_claimCell? hs hkind hp (hchunks ▸ hclaim)
    cases claimed with
    | none => exact ⟨⟨[], hnone rfl ▸ .refl⟩, fun hno => absurd rfl hno⟩
    | some h =>
      obtain ⟨es, hlives, hmem⟩ := hsome h rfl
      exact ⟨⟨es, hlives⟩, fun _ => ⟨es, hlives, hmem⟩⟩

theorem tries_takeOrGrow {reserved : Bool} (hs : heap.Sound) (hkind : kind ≠ .free)
    (hrun : (takeOrGrow kind length reserved).run heap = .ok (r, heap')) :
    heap'.finalizers.run = heap.finalizers.run ∧ heap.AllocatesOrKeeps kind length r heap' := by
  rcases gains_takeOrGrow hs hkind hrun with ⟨⟨b, rfl⟩, hsame⟩ | ⟨h, rfl, hgains⟩
  · exact ⟨congrArg (fun c : Control => c.finalizers.run) hsame.control,
      .of_redrawn hsame (capacity_takeOrGrow hrun) ((claims_takeOrGrow hs hkind hrun).1 _ rfl)⟩
  · exact ⟨congrArg (fun c : Control => c.finalizers.run) hgains.control, heap, hs, .refl heap,
      hgains, (claims_takeOrGrow hs hkind hrun).2 _ rfl⟩

theorem Safe.escalate {reserved : Bool} {levels : List Level} (hkind : kind ≠ .free) :
    Safe (escalate kind length reserved levels) :=
  have hholds : Triple (fun heap => heap.Sound ∧ heap.Holds []) (HeapM.escalate kind length reserved levels)
      fun r heap => (heap.Sound ∧ heap.Holds []) ∧ ∀ h, r = .ok h → heap.Fresh kind h :=
    escalate_holds hkind levels reserved
  hholds.conseq (fun _ hs => ⟨hs, nofun⟩) fun _ _ h => h.1.1

theorem tries_escalate {reserved : Bool} {levels : List Level} (hs : heap.Sound)
    (hkind : kind ≠ .free)
    (hrun : (escalate kind length reserved levels).run heap = .ok (r, heap')) :
    heap'.finalizers.run = heap.finalizers.run ∧ heap.AllocatesOrKeeps kind length r heap' := by
  induction levels generalizing heap reserved with
  | nil =>
    obtain ⟨rfl, rfl⟩ := run_pure.mp hrun
    exact ⟨rfl, .refl heap⟩
  | cons level deeper ih =>
    obtain ⟨o, mid, hcollect, hrun⟩ := run_bind.mp hrun
    obtain ⟨hcount, hmid⟩ := keepsPinned_collect hs hcollect
    obtain ⟨taken, next, htake, hrun⟩ := run_bind.mp hrun
    have hsmid := Safe.collect _ _ _ hs hcollect
    obtain ⟨hcount', hnext⟩ := tries_takeOrGrow hsmid hkind htake
    cases taken with
    | ok h =>
      obtain ⟨rfl, rfl⟩ := run_pure.mp hrun
      exact ⟨hcount'.trans hcount, hmid.tries hnext⟩
    | error reserved =>
      obtain ⟨hcount'', hlast⟩ := ih (Safe.takeOrGrow hkind _ _ _ hsmid htake) hrun
      exact ⟨(hcount''.trans hcount').trans hcount, (hmid.trans hnext).tries hlast⟩

end HeapM

namespace HostM.Quietly

variable {ω : Type} {fuel : Nat} {kind : Kind} {length : Nat}

theorem finalizeAndRetry (hkind : kind ≠ .free) (reserved : Bool) :
    Quietly (finalizeAndRetry (.mute fuel : Host ω) kind length reserved)
      fun heap r heap' => heap.AllocatesOrKeeps kind length r heap' := by
  refine (bind (reads .pendingFinalizerCount) fun n => (?_ :
    Quietly _ fun heap r heap' => heap.AllocatesOrKeeps kind length r heap')).conseq ?_
  · split
    · exact pure.conseq fun heap r heap' _ ⟨hr, hsame⟩ => hr ▸ hsame ▸ .refl heap
    · refine (bind runPendingFinalizers fun _ =>
        bind (lift .collect fun _ _ _ hs => HeapM.keepsPinned_collect hs) fun _ =>
        lift (.takeOrGrow hkind) fun _ _ _ hs => HeapM.tries_takeOrGrow hs hkind).conseq ?_
      rintro heap r heap' - ⟨_, _, -, hfirst, _, _, -, hcollect, hlast⟩
      exact (hfirst.trans hcollect).tries hlast
  · rintro heap r heap' - ⟨_, _, -, ⟨-, rfl⟩, hlast⟩
    exact hlast

theorem retry {ε : Type} {x : HostM ω (Except Bool Handle)} {next : Bool → HostM ω (Except ε Handle)}
    (hx : Quietly x fun heap r heap' => heap.AllocatesOrKeeps kind length r heap')
    (hnext : ∀ reserved, Quietly (next reserved)
      fun heap r heap' => heap.AllocatesOrKeeps kind length r heap') :
    Quietly (do
      match ← x with
      | .ok h => return .ok h
      | .error reserved => next reserved)
      fun heap r heap' => heap.AllocatesOrKeeps kind length r heap' := by
  refine (bind hx fun r => (?_ : Quietly _ fun heap s heap' => match r with
    | .ok h => s = .ok h ∧ heap' = heap
    | .error _ => heap.AllocatesOrKeeps kind length s heap')).conseq ?_
  · cases r with
    | ok h => exact pure
    | error reserved => exact hnext reserved
  · rintro heap s heap' - ⟨r, mid, -, hfirst, hlast⟩
    cases r with
    | ok h =>
      obtain ⟨rfl, rfl⟩ := hlast
      exact hfirst
    | error reserved => exact Heap.KeepsPinned.tries hfirst hlast

theorem allocateSlow (hkind : kind ≠ .free) :
    Quietly (allocateSlow (.mute fuel : Host ω) kind length)
      fun heap r heap' => heap.AllocatesOrKeeps kind length r heap' := by
  have hgive : ∀ reserved : Bool, Quietly (do
      HeapM.note (.allocationFailed kind length reserved)
      return .error (.outOfMemory kind length) : HostM ω (Except HeapError Handle))
      fun heap r heap' => heap.AllocatesOrKeeps kind length r heap' := by
    refine fun reserved => (bind (lift .note (Q := fun heap _ heap' => heap.KeepsPinned heap') ?_)
      fun _ => pure).conseq ?_
    · rintro heap u heap' - hrun
      obtain rfl := run_modify.mp hrun
      exact ⟨rfl, .of_redrawn ⟨rfl, rfl⟩ rfl ⟨[], .aside rfl rfl rfl⟩⟩
    · rintro heap r heap' - ⟨_, _, -, hw, rfl, rfl⟩
      exact hw
  have hrest : Quietly (do
      match ← (HeapM.takeOrGrow kind length false : HeapM (Except Bool Handle)) with
      | .ok h => return .ok h
      | .error reserved =>
        match ← HeapM.escalate kind length reserved (← getThe Heap).strategy.chooseLevel.upward with
        | .ok h => return .ok h
        | .error reserved =>
          match ← HostM.finalizeAndRetry (.mute fuel : Host ω) kind length reserved with
          | .ok h => return .ok h
          | .error reserved =>
            HeapM.note (.allocationFailed kind length reserved)
            return .error (.outOfMemory kind length) : HostM ω (Except HeapError Handle))
      fun heap r heap' => heap.AllocatesOrKeeps kind length r heap' := by
    refine retry (lift (.takeOrGrow hkind) fun _ _ _ hs => HeapM.tries_takeOrGrow hs hkind)
      fun reserved => ?_
    refine (bind getHeap fun heap => retry (lift (.escalate hkind) fun _ _ _ hs =>
      HeapM.tries_escalate hs hkind) fun reserved =>
        retry (finalizeAndRetry hkind reserved) hgive).conseq ?_
    rintro heap r heap' - ⟨_, _, -, ⟨-, rfl⟩, hlast⟩
    exact hlast
  refine (bind (reads .collectionDue) fun due => (?_ :
    Quietly _ fun heap r heap' => heap.AllocatesOrKeeps kind length r heap')).conseq ?_
  · cases due with
    | none => exact hrest
    | some reason =>
      refine (bind getHeap fun heap => bind (lift .collect fun _ _ _ hs =>
        HeapM.keepsPinned_collect hs) fun _ => hrest).conseq ?_
      rintro heap r heap' - ⟨_, _, -, ⟨-, rfl⟩, _, _, -, hcollect, hlast⟩
      exact hcollect.tries hlast
  · rintro heap r heap' - ⟨_, _, -, ⟨-, rfl⟩, hlast⟩
    exact hlast

end HostM.Quietly

end ManagedHeap
