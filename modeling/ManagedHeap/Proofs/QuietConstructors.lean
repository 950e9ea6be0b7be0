import ManagedHeap.Proofs.CountedReferences

/-!
# Calls that make objects, without finalizers

Whatever a call was given outlives it, and the object that it answers holds what it was
given. Between two allocations of one call the objects made so far are pinned.
-/

namespace ManagedHeap

open HostM (Quietly)

def Attempt.Quietly {ω α : Type} (act : Attempt ω α) (Q : Heap → α → Heap → Prop) : Prop :=
  HostM.Quietly act.run fun heap r heap' => ∀ a, r = .ok a → Q heap a heap'

namespace Attempt.Quietly

variable {ω α β : Type} {x : Attempt ω α} {f : α → Attempt ω β} {Q Q' : Heap → α → Heap → Prop}
  {R : α → Heap → β → Heap → Prop}

theorem bind (hx : Quietly x Q) (hf : ∀ a, Quietly (f a) (R a)) :
    Quietly (x >>= f) fun heap b heap' => ∃ a mid, mid.Sound ∧ Q heap a mid ∧ R a mid b heap' := by
  unfold Quietly
  rw [ExceptT.run_bind]
  refine (HostM.Quietly.bind hx fun r => (?_ : HostM.Quietly _ fun heap s heap' =>
    ∀ b, s = .ok b → ∃ a, r = .ok a ∧ R a heap b heap')).conseq ?_
  · cases r with
    | error e =>
      refine HostM.Quietly.pure.conseq ?_
      rintro heap s heap' - ⟨rfl, -⟩ b hb
      exact nomatch hb
    | ok a => exact (hf a).conseq fun heap s heap' _ h b hb => ⟨a, rfl, h b hb⟩
  · rintro heap s heap' - ⟨r, mid, hmid, hfirst, hlast⟩ b hb
    obtain ⟨a, hr, hR⟩ := hlast b hb
    exact ⟨a, mid, hmid, hfirst a hr, hR⟩

theorem pure {a : α} : Quietly (pure a : Attempt ω α) fun heap b heap' => b = a ∧ heap' = heap := by
  refine HostM.Quietly.pure.conseq ?_
  rintro heap r heap' - ⟨rfl, rfl⟩ b hb
  injection hb with hb
  exact ⟨hb.symm, rfl⟩

theorem throw {e : HeapError} : Quietly (throw e : Attempt ω α) Q := by
  refine HostM.Quietly.pure.conseq ?_
  rintro heap r heap' - ⟨rfl, -⟩ b hb
  exact nomatch hb

theorem throw_bind {e : HeapError} {R : Heap → β → Heap → Prop} :
    Quietly ((throwThe HeapError e : Attempt ω α) >>= f) R :=
  throw (α := β)

theorem throwFault {e : Fault} : Quietly (throwThe Fault e : Attempt ω α) Q := by
  intro state heap r state' heap' _ hrun
  exact nomatch hrun

theorem conseq (hx : Quietly x Q)
    (hQ : ∀ heap a heap', heap.Sound → Q heap a heap' → Q' heap a heap') : Quietly x Q' :=
  HostM.Quietly.conseq hx fun heap _ heap' hs h a ha => hQ heap a heap' hs (h a ha)

theorem mk {act : HostM ω (Except HeapError α)}
    (h : HostM.Quietly act fun heap r heap' => ∀ a, r = .ok a → Q heap a heap') :
    Quietly (ExceptT.mk act) Q := h

theorem liftHost {act : HostM ω α} (h : HostM.Quietly act Q) :
    Quietly (liftM act : Attempt ω α) Q := by
  unfold Quietly
  change HostM.Quietly (Functor.map Except.ok act) _
  rw [← bind_pure_comp]
  refine (HostM.Quietly.bind h fun a => HostM.Quietly.pure).conseq ?_
  rintro heap r heap' - ⟨a, mid, -, hQ, rfl, rfl⟩ b hb
  injection hb with hb
  exact hb ▸ hQ

theorem lift {act : HeapM α} (hsafe : act.Safe) (h : ∀ heap a heap', heap.Sound →
    act.run heap = .ok (a, heap') → heap'.finalizers.run = heap.finalizers.run ∧ Q heap a heap') :
    Quietly (liftM act : Attempt ω α) Q := liftHost (.lift hsafe h)

theorem reads {act : HeapM α} (h : act.Reads) : Quietly (liftM act : Attempt ω α)
    fun heap a heap' => act.run heap = .ok (a, heap) ∧ heap' = heap := liftHost (.reads h)

theorem redrawn {act : HeapM α} (hsafe : act.Safe)
    (h : ∀ heap a heap', act.run heap = .ok (a, heap') →
      ∃ g, heap.Redrawn heap' g ∧ Q heap a heap') : Quietly (liftM act : Attempt ω α) Q := by
  refine lift hsafe fun heap a heap' _ hrun => ?_
  obtain ⟨g, hg, hQ⟩ := h heap a heap' hrun
  exact ⟨congrArg (fun c : Control => c.finalizers.run) hg.control, hQ⟩

theorem attempt {act : HeapM (Except HeapError α)} (hsafe : act.Safe)
    (h : ∀ heap r heap', heap.Sound → act.run heap = .ok (r, heap') →
      heap'.finalizers.run = heap.finalizers.run ∧ ∀ a, r = .ok a → Q heap a heap') :
    Quietly (HostM.attempt act : Attempt ω α) Q := mk (.lift hsafe h)

theorem pushRoot {h : Handle} : Quietly (HostM.attempt (HeapM.pushRoot h) : Attempt ω Nat)
    fun heap index heap' => index = heap.protect.slots.size ∧ heap' =
      { heap with protect := { heap.protect with slots := heap.protect.slots.push h } } := by
  refine attempt .pushRoot fun heap _ heap' _ hrun => ?_
  simp only [HeapM.pushRoot, run_bind] at hrun
  obtain ⟨result, mid, hpush, hrun⟩ := hrun
  simp only [HeapM.onProtect, StateT.run] at hpush
  split at hpush
  · rename_i b protect hp
    rw [Except.ok.injEq, Prod.mk.injEq] at hpush
    obtain ⟨rfl, rfl⟩ := hpush
    unfold ProtectStack.push at hp
    split at hp
    · rw [Except.ok.injEq, Prod.mk.injEq] at hp
      obtain ⟨rfl, rfl⟩ := hp
      obtain ⟨rfl, rfl⟩ := run_pure.mp hrun
      refine ⟨rfl, fun a ha => ?_⟩
      injection ha with ha
      exact ⟨ha.symm, rfl⟩
    · split at hp
      · rw [Except.ok.injEq, Prod.mk.injEq] at hp
        obtain ⟨rfl, rfl⟩ := hp
        simp only [HeapM.note, run_bind, run_modify, run_pure] at hrun
        obtain ⟨_, _, rfl, rfl, rfl⟩ := hrun
        exact ⟨rfl, by simp⟩
      · cases hp
  · cases hpush

theorem protecting (hx : Quietly x Q) : Quietly (HostM.protecting x) fun heap a heap' =>
    ∃ mid, mid.Sound ∧ Q heap a mid ∧
      heap' = { mid with protect := mid.protect.truncate heap.protect.depth } := by
  refine mk ((HostM.Quietly.bind (.reads .protectDepth) fun base => .bind hx fun r =>
    .bind (.lift (HeapM.Safe.closeScope : HeapM.Safe (HeapM.closeScope base)) (Q := fun heap _ heap' =>
      heap' = { heap with protect := heap.protect.truncate base }) ?_) fun _ => .pure).conseq ?_)
  · intro heap u heap' _ hrun
    obtain rfl := HeapM.run_closeScope hrun
    exact ⟨rfl, rfl⟩
  · rintro heap r heap' - ⟨base, _, -, ⟨hbase, rfl⟩, r', mid, hmid, hQ, _, _, -, rfl, rfl, rfl⟩ a ha
    simp only [HeapM.protectDepth, run_bind, run_get, run_pure] at hbase
    obtain ⟨_, _, ⟨rfl, rfl⟩, rfl, -⟩ := hbase
    exact ⟨mid, hmid, hQ a ha, rfl⟩

end Attempt.Quietly

theorem HostM.quietly_allocate {ω : Type} {fuel : Nat} {kind : Kind} {length : Nat}
    {kept : List Handle} : Attempt.Quietly (allocate (.mute fuel : Host ω) kind length kept)
      fun heap h heap' => heap.Provides heap' kind length kept h := by
  unfold allocate
  dsimp only
  split
  · exact .throw_bind
  · rename_i hallocatable
    replace hallocatable : kind ≠ .free := HeapM.kind_ne_free (by simpa using hallocatable)
    split
    · exact .throw_bind
    · refine (Attempt.Quietly.bind (.lift (fun heap h heap' hs hrun =>
        (HeapM.run_allocateFast hs hrun).1) (Q := fun heap h heap' =>
          (h = .noObject ∧ heap.Redrawn heap' heap.graph ∧ ∃ es, heap.Lives es heap') ∨
            (h ≠ .noObject ∧ heap.Gains heap' kind length h ∧ heap.Claims heap' kind h))
          fun heap h heap' hs hrun => ?_) fun h =>
        (?_ : Attempt.Quietly _ fun heap h' heap' =>
          (h ≠ .noObject → h' = h ∧ heap' = heap) ∧
            (h = .noObject → heap.Provides heap' kind length kept h'))).conseq ?_
      · obtain ⟨hlives, hclaims⟩ := HeapM.claims_allocateFast hs hrun
        rcases HeapM.gains_allocateFast hs hrun with ⟨rfl, hsame⟩ | hgains
        · exact ⟨congrArg (fun c : Control => c.finalizers.run) hsame.control,
            .inl ⟨rfl, hsame, hlives⟩⟩
        · have hobject : h ≠ .noObject := by
            rintro rfl
            obtain ⟨payload, -, hgraph⟩ := hgains.graph
            obtain ⟨d, hd, -⟩ := Heap.graph_eq_some.mp (hgraph ▸ Graph.add_self)
            exact ((HeapM.run_allocateFast hs hrun).1.tidy.not_noObject
              (Arena.get?_eq_some.mp hd).1 rfl).elim
          exact ⟨congrArg (fun c : Control => c.finalizers.run) hgains.control,
            .inr ⟨hobject, hgains, hclaims hobject⟩⟩
      · split
        · rename_i hobject
          refine .conseq .pure fun heap h' heap' _ hsame => ⟨fun _ => hsame, ?_⟩
          rintro rfl
          exact nomatch hobject
        · rename_i hobject
          replace hobject : h = .noObject := by simpa [Handle.isNoObject] using hobject
          refine .mk (.conseq (.withTransient (.allocateSlow hallocatable)) ?_)
          rintro heap r heap' - ⟨mid, -, htries, rfl⟩ h' rfl
          exact ⟨fun hne => absurd hobject hne, fun _ => Heap.AllocatesKeeping.provides htries⟩
      · rintro heap h heap' - ⟨h', mid, -, ⟨rfl, hsame, hlives⟩ | ⟨hne, hgains, hclaims⟩, hfast, hslow⟩
        · exact .of_redrawn hsame hlives (hslow rfl)
        · obtain ⟨rfl, rfl⟩ := hfast hne
          exact hgains.provides hclaims

def Attempt.Writes {ω α : Type} (P : Heap → Prop) (act : Attempt ω α)
    (R : Heap → α → Heap → Prop) : Prop :=
  ∀ state heap r state' heap', P heap → (act.run.run state).run heap = .ok ((r, state'), heap') →
    heap'.finalizers.run = heap.finalizers.run ∧ ∀ a, r = .ok a → R heap a heap'

namespace Attempt.Writes

variable {ω α β : Type} {P : Heap → Prop} {x : Attempt ω α} {f : α → Attempt ω β}
  {Q S : Heap → α → Heap → Prop} {R : α → Heap → β → Heap → Prop}

theorem bind (hx : Writes P x Q) (hf : ∀ a, Writes (fun _ => True) (f a) (R a)) :
    Writes P (x >>= f) fun heap b heap' => ∃ a mid, Q heap a mid ∧ R a mid b heap' := by
  intro state heap r state' heap' hP hrun
  rw [ExceptT.run_bind, StateT.run_bind] at hrun
  obtain ⟨⟨s, state₁⟩, mid, hfirst, hrest⟩ := run_bind.mp hrun
  obtain ⟨hcount, hQ⟩ := hx _ _ _ _ _ hP hfirst
  cases s with
  | error e =>
    obtain ⟨hr, rfl⟩ := run_pure.mp hrest
    injection hr with hr
    subst hr
    exact ⟨hcount, nofun⟩
  | ok a =>
    obtain ⟨hcount', hR⟩ := hf a _ _ _ _ _ trivial hrest
    exact ⟨hcount'.trans hcount, fun b hb => ⟨a, mid, hQ a rfl, hR b hb⟩⟩

theorem pure {a : α} : Writes P (pure a : Attempt ω α) fun heap b heap' => b = a ∧ heap' = heap := by
  intro state heap r state' heap' _ hrun
  obtain ⟨hr, rfl⟩ := run_pure.mp hrun
  injection hr with hr
  subst hr
  refine ⟨rfl, fun b hb => ?_⟩
  injection hb with hb
  exact ⟨hb.symm, rfl⟩

theorem conseq (hx : Writes P x Q) (hQ : ∀ heap a heap', Q heap a heap' → S heap a heap') :
    Writes P x S := by
  intro state heap r state' heap' hP hrun
  obtain ⟨hcount, h⟩ := hx _ _ _ _ _ hP hrun
  exact ⟨hcount, fun a ha => hQ heap a heap' (h a ha)⟩

theorem lift {act : HeapM α} (h : ∀ heap a heap', P heap → act.run heap = .ok (a, heap') →
    heap'.finalizers.run = heap.finalizers.run ∧ Q heap a heap') :
    Writes P (liftM act : Attempt ω α) Q := by
  intro state heap r state' heap' hP hrun
  change ((Functor.map Except.ok (liftM act : HostM ω α)).run state).run heap = _ at hrun
  rw [← bind_pure_comp, StateT.run_bind] at hrun
  obtain ⟨⟨a, state₁⟩, mid, hlift, hpure⟩ := run_bind.mp hrun
  change (act >>= fun a => Pure.pure (a, state)).run heap = _ at hlift
  obtain ⟨b, last, hact, hgive⟩ := run_bind.mp hlift
  obtain ⟨hb, rfl⟩ := run_pure.mp hgive
  obtain ⟨hr, rfl⟩ := run_pure.mp hpure
  injection hb with hb
  injection hr with hr
  subst hb hr
  obtain ⟨hcount, hQ⟩ := h _ _ _ hP hact
  refine ⟨hcount, fun b hb => ?_⟩
  injection hb with hb
  exact hb ▸ hQ

theorem redrawn {act : HeapM α} {g : Heap → Graph} (h : ∀ heap a heap', P heap →
    act.run heap = .ok (a, heap') → heap.Redrawn heap' (g heap)) :
    Writes P (liftM act : Attempt ω α) fun heap _ heap' => heap.Redrawn heap' (g heap) :=
  lift fun heap a heap' hP hrun => by
    have hg := h heap a heap' hP hrun
    exact ⟨congrArg (fun c : Control => c.finalizers.run) hg.control, hg⟩

end Attempt.Writes

def Attempt.QuietlyFrom {ω α : Type} (P : Heap → Prop) (act : Attempt ω α)
    (Q : Heap → α → Heap → Prop) : Prop :=
  ∀ state heap r state' heap', heap.Sound → P heap →
    (act.run.run state).run heap = .ok ((r, state'), heap') →
    heap'.Sound ∧ heap.finalizers.run ≤ heap'.finalizers.run ∧
      (heap'.finalizers.run = heap.finalizers.run → ∀ a, r = .ok a → Q heap a heap')

namespace Attempt

variable {ω α β : Type} {P : Heap → Prop} {x : Attempt ω α} {f : α → Attempt ω β}
  {Q S : Heap → α → Heap → Prop} {R : α → Heap → β → Heap → Prop}

theorem QuietlyFrom.quietly (hx : QuietlyFrom (fun _ => True) x Q) : Quietly x Q :=
  fun state heap r state' heap' hs hrun => hx state heap r state' heap' hs trivial hrun

theorem Quietly.start (hx : Quietly x Q) : QuietlyFrom P x Q :=
  fun state heap r state' heap' hs _ hrun => hx state heap r state' heap' hs hrun

namespace QuietlyFrom

theorem strengthen {N : Heap → Prop} (hx : QuietlyFrom P x Q) (hP : ∀ heap, N heap → P heap) :
    QuietlyFrom N x Q :=
  fun state heap r state' heap' hs hN hrun => hx state heap r state' heap' hs (hP heap hN) hrun

theorem conseq (hx : QuietlyFrom P x Q)
    (hQ : ∀ heap a heap', heap.Sound → P heap → Q heap a heap' → S heap a heap') :
    QuietlyFrom P x S := by
  intro state heap r state' heap' hs hP hrun
  obtain ⟨hs', hle, h⟩ := hx _ _ _ _ _ hs hP hrun
  exact ⟨hs', hle, fun heq a ha => hQ heap a heap' hs hP (h heq a ha)⟩

theorem bind (hx : QuietlyFrom P x Q) (hf : ∀ a, Quietly (f a) (R a)) :
    QuietlyFrom P (x >>= f) fun heap b heap' => ∃ a mid, mid.Sound ∧ Q heap a mid ∧
      R a mid b heap' := by
  intro state heap r state' heap' hs hP hrun
  rw [ExceptT.run_bind, StateT.run_bind] at hrun
  obtain ⟨⟨s, state₁⟩, mid, hfirst, hrest⟩ := run_bind.mp hrun
  obtain ⟨hmid, hle, hQ⟩ := hx _ _ _ _ _ hs hP hfirst
  cases s with
  | error e =>
    obtain ⟨hr, rfl⟩ := run_pure.mp hrest
    injection hr with hr
    subst hr
    exact ⟨hmid, hle, fun _ => nofun⟩
  | ok a =>
    obtain ⟨hs', hle', hR⟩ := hf a _ _ _ _ _ hmid hrest
    exact ⟨hs', by omega, fun heq b hb =>
      ⟨a, mid, hmid, hQ (by omega) a rfl, hR (by omega) b hb⟩⟩

theorem reads_bind {act : HeapM α} (hact : act.Reads) (hf : ∀ a, QuietlyFrom
      (fun heap => P heap ∧ act.run heap = .ok (a, heap)) (f a) (R a)) :
    QuietlyFrom P ((liftM act : Attempt ω α) >>= f) fun heap b heap' =>
      ∃ a, act.run heap = .ok (a, heap) ∧ R a heap b heap' := by
  intro state heap r state' heap' hs hP hrun
  rw [ExceptT.run_bind, StateT.run_bind] at hrun
  obtain ⟨⟨s, state₁⟩, mid, hfirst, hrest⟩ := run_bind.mp hrun
  change ((Functor.map Except.ok (liftM act : HostM ω α)).run state).run heap = _ at hfirst
  rw [← bind_pure_comp, StateT.run_bind] at hfirst
  obtain ⟨⟨a, _⟩, mid', hlift, hpure⟩ := run_bind.mp hfirst
  change (act >>= fun a => Pure.pure (a, state)).run heap = _ at hlift
  obtain ⟨b, last, hread, hgive⟩ := run_bind.mp hlift
  obtain rfl := hact _ _ _ hread
  obtain ⟨hb, rfl⟩ := run_pure.mp hgive
  obtain ⟨hr, rfl⟩ := run_pure.mp hpure
  injection hb with hb
  injection hr with hr
  subst hb hr
  obtain ⟨hs', hle, hR⟩ := hf _ _ _ _ _ _ hs ⟨hP, hread⟩ hrest
  exact ⟨hs', hle, fun heq c hc => ⟨_, hread, hR heq c hc⟩⟩

theorem reads_first {S : Heap → β → Heap → Prop} {act : HeapM α} (hact : act.Reads)
    (hf : ∀ a, QuietlyFrom (fun heap => P heap ∧ act.run heap = .ok (a, heap)) (f a) S) :
    QuietlyFrom P ((liftM act : Attempt ω α) >>= f) S :=
  (reads_bind hact hf).conseq fun _ _ _ _ _ h => h.elim fun _ h => h.2

end QuietlyFrom

theorem Safe.start (hx : Safe x) : Attempt.Triple (fun heap => heap.Sound ∧ P heap) x
    (fun _ => Heap.Sound) Heap.Sound :=
  Triple.conseq hx (fun _ hs => hs.1) (fun _ _ => id) fun _ => id

theorem Quietly.finish {M : α → Heap → Prop}
    (hx : Quietly x Q) (hM : Attempt.Triple Heap.Sound x M fun _ => True)
    (hsafe : Attempt.Triple (fun heap => heap.Sound ∧ P heap) (x >>= f) (fun _ => Heap.Sound)
      Heap.Sound) (hf : ∀ a, (f a).Writes (M a) (R a)) :
    QuietlyFrom P (x >>= f) fun heap b heap' =>
      ∃ a mid, M a mid ∧ Q heap a mid ∧ R a mid b heap' := by
  intro state heap r state' heap' hs hP hrun
  have hs' : heap'.Sound := by
    have hend := hsafe state heap _ heap' ⟨hs, hP⟩ hrun
    cases r <;> exact hend
  rw [ExceptT.run_bind, StateT.run_bind] at hrun
  obtain ⟨⟨s, state₁⟩, mid, hfirst, hrest⟩ := run_bind.mp hrun
  obtain ⟨-, hle, hQ⟩ := hx _ _ _ _ _ hs hfirst
  have hmid := hM _ _ _ _ hs hfirst
  cases s with
  | error e =>
    obtain ⟨hr, rfl⟩ := run_pure.mp hrest
    injection hr with hr
    subst hr
    exact ⟨hs', hle, fun _ => nofun⟩
  | ok a =>
    obtain ⟨hcount, hR⟩ := hf a _ _ _ _ _ hmid hrest
    exact ⟨hs', by omega, fun heq b hb => ⟨a, mid, hmid, hQ (by omega) a rfl, hR b hb⟩⟩

end Attempt

theorem HostM.quietly_allocate_bind {ω β : Type} {fuel : Nat} {kind : Kind} {length : Nat}
    {P : Heap → Prop} {kept : List Handle} {f : Handle → Attempt ω β}
    {R : Handle → Heap → β → Heap → Prop}
    (hsafe : Attempt.Triple (fun heap => heap.Sound ∧ P heap)
      (allocate (.mute fuel : Host ω) kind length kept >>= f) (fun _ => Heap.Sound) Heap.Sound)
    (hf : ∀ h, (f h).Writes (fun heap => heap.Sound ∧ heap.Fresh kind h) (R h)) :
    Attempt.QuietlyFrom P (allocate (.mute fuel : Host ω) kind length kept >>= f)
      fun heap b heap' => ∃ h mid, mid.Sound ∧ heap.Provides mid kind length kept h ∧
        R h mid b heap' :=
  (quietly_allocate.finish ((allocate_fresh (Host.mute_safe fuel)).conseq (fun _ => id)
    (fun _ _ => id) fun _ _ => trivial) hsafe hf).conseq
    fun _ _ _ _ _ ⟨h, mid, hfresh, hprovides, hR⟩ => ⟨h, mid, hfresh.1, hprovides, hR⟩

/-- The cells of a frame bind the names to the values, one after the other. -/
inductive Heap.Binds (heap : Heap) : Handle → List (Handle × Handle) → Prop
  | nil : Binds heap .nil []
  | cons {cell next name value : Handle} {rest : List (Handle × Handle)} :
      heap.Shows cell .pair (.pair value next name) → Binds heap next rest →
      Binds heap cell ((name, value) :: rest)

/-- What a call that was given `kept` leaves as it is. -/
structure Heap.Spares (heap heap' : Heap) (kept : List Handle) : Prop where
  roots : heap'.roots = heap.roots
  slots : heap'.protect.slots = heap.protect.slots
  carries : ∀ start, (∀ p, start p → heap.Pins p ∨ p ∈ kept) → heap.Carries heap' start

namespace Heap

variable {heap mid heap' : Heap} {h k : Handle} {kind : Kind} {payload : Payload}
  {kept : List Handle} {length : Nat}

theorem Shows.graph (hshows : heap.Shows h kind payload) :
    ∃ c, heap.graph h = some c ∧ c.content = (Cell.blank kind payload).content := by
  obtain ⟨d, hd, hdc⟩ := hshows
  exact ⟨d.seen, graph_of_get? hd, (Cell.content_seen d).trans hdc⟩

theorem Shows.of_graph {c : Cell} (hc : heap.graph h = some c)
    (hcontent : c.content = (Cell.blank kind payload).content) : heap.Shows h kind payload := by
  obtain ⟨d, hd, rfl⟩ := graph_eq_some.mp hc
  exact ⟨d, hd, (Cell.content_seen d).symm.trans hcontent⟩

theorem Shows.agrees {E : Handle → Prop} (hshows : heap.Shows h kind payload)
    (hg : Graph.Agrees E heap.graph heap'.graph) (hh : ¬ E h) :
    heap'.Shows h kind payload := by
  obtain ⟨c, hc, hcontent⟩ := hshows.graph
  obtain ⟨d, hd, hdc⟩ := hg h c hh hc
  exact .of_graph hd (hdc.trans hcontent)

theorem Shows.carried (hshows : heap.Shows h kind payload)
    (hp : ∀ key value finalizer next, payload ≠ .weakRef key value finalizer next)
    (hcarries : heap.Carries heap' (· = h)) : heap'.Shows h kind payload := by
  obtain ⟨c, hc, hcontent⟩ := hshows
  obtain ⟨d, hd, hlasts⟩ := hcarries h c (.start rfl hc) hc
  rcases hlasts with hdc | ⟨key, value, next, hweak, -⟩
  · exact ⟨d, hd, hdc.trans hcontent⟩
  · have hforget : c.payload.forgetting.unchained = payload.forgetting.unchained :=
      congrArg Cell.payload hcontent
    rw [hweak] at hforget
    cases payload
    case weakRef => exact absurd rfl (hp _ _ _ _)
    all_goals exact nomatch hforget

theorem Provides.spares (hp : heap.Provides mid kind length kept h)
    (hroots : heap'.roots = mid.roots) (hslots : heap'.protect.slots = mid.protect.slots)
    (hg : Graph.Agrees (· = h) mid.graph heap'.graph) : heap.Spares heap' kept :=
  ⟨hroots.trans hp.roots, hslots.trans hp.slots, fun start hstart =>
    (hp.carries start hstart).before hg fun _ hk => hk ▸ hp.unreached start hstart⟩

theorem Provides.roomy (hp : heap.Provides heap' kind length kept h) (hsuits : payload.suits kind = true)
    (hlength : payload.length = length) : heap'.Roomy payload.length h := by
  obtain ⟨blank, hblank, hgraph⟩ := hp.blank
  obtain ⟨d, hd, hseen⟩ := graph_eq_some.mp hgraph
  subst hlength
  refine ⟨d, hd, (congrArg (fun c : Cell => c.header.flags.permanent) hseen :), ?_⟩
  have hforget : d.payload.forgetting = blank := congrArg Cell.payload hseen
  rw [Payload.length_of_suits hsuits hblank, ← hforget]
  cases d.payload <;> rfl

/-- A new object was filled with a payload, and `slots` were counted. -/
structure Fills (heap heap' : Heap) (kind : Kind) (length : Nat) (payload : Payload)
    (kept slots : List Handle) (h : Handle) : Prop where
  made : ∃ mid, mid.Sound ∧ heap.Provides mid kind length kept h ∧ heap'.control = mid.control ∧
    Graph.Counts (mid.graph.edit h fun c => { c with payload }) heap'.graph slots ∧
    (payload.length = length → ∃ es, mid.Lives es heap')

namespace Fills

variable {slots : List Handle}

theorem spares (hf : heap.Fills heap' kind length payload kept slots h) : heap.Spares heap' kept := by
  obtain ⟨mid, -, hprovides, hcontrol, hcounts, -⟩ := hf.made
  exact hprovides.spares (congrArg Control.roots hcontrol)
    (congrArg (fun c : Control => c.protect.slots) hcontrol) hcounts.agrees

theorem shows (hf : heap.Fills heap' kind length payload kept slots h) : heap'.Shows h kind payload := by
  obtain ⟨mid, -, hprovides, -, hcounts, -⟩ := hf.made
  obtain ⟨start, -, hblank⟩ := hprovides.blank
  obtain ⟨c, hc, hsame, -⟩ := hcounts h _ (Graph.edit_self hblank)
  exact .of_graph hc (hsame.trans (Cell.content_seen _))

theorem symbols (hf : heap.Fills heap' kind length payload kept slots h) :
    heap'.symbols = heap.symbols := by
  obtain ⟨mid, -, hprovides, hcontrol, -⟩ := hf.made
  exact (congrArg Control.symbols hcontrol).trans hprovides.symbols

theorem unreached (hf : heap.Fills heap' kind length payload kept slots h) (start : Handle → Prop)
    (hstart : ∀ p, start p → heap.Pins p ∨ p ∈ kept) : ¬ heap.ReachedFrom start h := by
  obtain ⟨mid, -, hprovides, -⟩ := hf.made
  exact hprovides.unreached start hstart

end Fills

end Heap

namespace HostM

variable {ω : Type} {fuel : Nat} {kind : Kind} {payload : Payload} {kept slots : List Handle}

theorem setPayload_writes {P : Heap → Prop} (h : Handle) (payload : Payload) :
    Attempt.Writes P (liftM (setPayload h payload) : Attempt ω Unit) fun heap _ heap' =>
      heap.Redrawn heap' (heap.graph.edit h fun c => { c with payload }) ∧
        (heap.Roomy payload.length h → ∃ es, heap.Lives es heap') := by
  refine .lift fun heap u heap' _ hrun => ?_
  obtain ⟨-, hr⟩ := HeapM.redrawn_updateCell (fun c => { c with payload }) (fun _ => rfl)
    (Cell.seen_payload (f := fun _ => payload) fun _ => rfl) hrun
  exact ⟨congrArg (fun c : Control => c.finalizers.run) hr.control, hr, fun hroomy =>
    ⟨[], (HeapM.Retouches.setPayload hroomy hrun).act.lives⟩⟩

theorem countReferences_writes {P : Heap → Prop} (slots : List Handle) :
    Attempt.Writes P (liftM (countReferences slots) : Attempt ω Unit) fun heap _ heap' =>
      heap.Redrawn heap' (slots.foldl Graph.count heap.graph) ∧ (∃ es, heap.Lives es heap') ∧
        ∀ length h, heap.Roomy length h → heap'.Roomy length h := by
  refine .lift fun heap u heap' _ hrun => ?_
  have hr := HeapM.redrawn_countReferences hrun
  exact ⟨congrArg (fun c : Control => c.finalizers.run) hr.control, hr,
    ⟨[], (HeapM.Retouches.countReferences slots _ _ _ hrun).act.lives⟩,
    fun _ _ hroomy => HeapM.Retouches.roomy_countReferences slots _ _ _ hroomy hrun⟩

theorem fills_construct (hfits : payload.Fits kind slots) :
    Attempt.Quietly (do
      let h ← allocate (.mute fuel : Host ω) kind 0 kept
      setPayload h payload
      countReferences slots
      return h) fun heap h heap' => heap.Fills heap' kind 0 payload kept slots h := by
  refine (quietly_allocate_bind ?_ fun h => .bind (setPayload_writes h payload) fun _ =>
      .bind (countReferences_writes slots) fun _ => .pure).quietly.conseq ?_
  · refine Attempt.Safe.start ?_
    exact Attempt.Triple.bind (allocate_fresh (Host.mute_safe fuel)) fun _ =>
      .bind (.lift HeapM.setPayload_filled) fun _ =>
      .bind (.lift (HeapM.countReferences_filled hfits)) fun _ => .pure fun _ => id
  · rintro heap h heap' - ⟨_, mid, hmid, hprovides, _, next, ⟨hfill, hlives⟩, _, _,
      ⟨hcount, hlives', -⟩, rfl, rfl⟩
    have hgraph := hcount.graph
    rw [hfill.graph] at hgraph
    refine ⟨mid, hmid, hprovides, hcount.control.trans hfill.control, hgraph ▸ .countAll slots,
      fun hlength => ?_⟩
    obtain ⟨es, hes⟩ := hlives (hprovides.roomy hfits.suits hlength)
    obtain ⟨fs, hfs⟩ := hlives'
    exact ⟨es ++ fs, hes.trans hfs⟩

theorem quietly_construct (hfits : payload.Fits kind slots) :
    Attempt.Quietly (do
      let h ← allocate (.mute fuel : Host ω) kind 0 kept
      setPayload h payload
      countReferences slots
      return h)
      fun heap h heap' => heap.Spares heap' kept ∧ heap'.Shows h kind payload ∧
        heap'.symbols = heap.symbols ∧
        ∀ start, (∀ p, start p → heap.Pins p ∨ p ∈ kept) → ¬ heap.ReachedFrom start h :=
  (fills_construct hfits).conseq fun _ _ _ _ hfills =>
    ⟨hfills.spares, hfills.shows, hfills.symbols, hfills.unreached⟩

end HostM

end ManagedHeap
