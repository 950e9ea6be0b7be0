import ManagedHeap.Proofs.SessionEffects
import ManagedHeap.Proofs.CallEffects

/-!
# The countdown between collections

Every allocation counts, on whichever path and however deep inside finalizers it was made, and
every collection begins to count anew. Both paths of an allocation make sure that the count is
not full. The history shows every allocation and every collection, so it shows how many objects
were allocated in between.
-/

namespace ManagedHeap

namespace Entry

/-- The configuration of the heap and the claims on the count, after one more entry. -/
def count : Option Config × Nat → Entry → Option Config × Nat
  | _, opened config => (some config, 0)
  | past, collected _ => (past.1, 0)
  | past, claimed _ _ => (past.1, past.2 + 1)
  | past, _ => past

/-- The configuration of the heap that was opened last, and how many cells were claimed since it
was opened or last collected. -/
def claims (es : List Entry) : Option Config × Nat := es.foldl count (none, 0)

def recordedCollections (es : List Entry) : List RecordedCollection :=
  es.foldl (fun past e => match e with
    | opened _ => []
    | collected level => ⟨false, level⟩ :: past
    | _ => past) []

/-- At no time more cells were claimed since a collection than the configuration says. -/
def InTime (es : List Entry) : Prop :=
  ∀ p, p <+: es → ∀ config, (claims p).1 = some config → (claims p).2 ≤ config.collectInterval

variable {es fs : List Entry} {e : Entry} {config : Config} {past : Option Config × Nat}

theorem claims_append : claims (es ++ fs) = fs.foldl count (claims es) := List.foldl_append

theorem claims_snoc : claims (es ++ [e]) = count (claims es) e := claims_append

theorem claims_filter (es : List Entry) : claims (es.filter ofCells) = claims es := by
  unfold claims
  generalize (none, 0) = past
  induction es generalizing past with
  | nil => rfl
  | cons e es ih =>
    cases e
    case opened | claimed | freed | collected => exact ih _
    all_goals exact ih past

theorem fst_foldl_count (hes : ∀ e ∈ es, ∀ config, e ≠ opened config) :
    (es.foldl count past).1 = past.1 := by
  induction es generalizing past with
  | nil => rfl
  | cons e es ih =>
    refine (ih fun e he => hes e (List.mem_cons_of_mem _ he)).trans ?_
    cases e with
    | opened config => exact absurd rfl (hes _ List.mem_cons_self config)
    | _ => rfl

theorem snd_foldl_count (hopened : ∀ e ∈ es, ∀ config, e ≠ opened config)
    (hcollected : ∀ e ∈ es, ∀ level, e ≠ collected level) :
    (es.foldl count past).2 = past.2 + es.countP isClaim := by
  induction es generalizing past with
  | nil => rfl
  | cons e es ih =>
    rw [List.foldl_cons, ih (fun e he => hopened e (List.mem_cons_of_mem _ he))
      fun e he => hcollected e (List.mem_cons_of_mem _ he), List.countP_cons]
    cases e with
    | opened config => exact absurd rfl (hopened _ List.mem_cons_self config)
    | collected level => exact absurd rfl (hcollected _ List.mem_cons_self level)
    | claimed h kind =>
      simp only [count, isClaim, if_true]
      omega
    | _ => rfl

theorem recordedCollections_append_losses (gone : List (Handle × Kind)) :
    recordedCollections (es ++ gone.map loss) = recordedCollections es := by
  rw [recordedCollections, List.foldl_append, ← recordedCollections]
  induction gone with
  | nil => rfl
  | cons x gone ih => exact ih

namespace InTime

theorem snoc (hes : InTime es)
    (he : ∀ config, (count (claims es) e).1 = some config →
      (count (claims es) e).2 ≤ config.collectInterval) : InTime (es ++ [e]) := by
  intro p hp config hconfig
  rcases List.prefix_concat_iff.mp hp with rfl | hp
  · rw [claims_snoc] at hconfig ⊢
    exact he config hconfig
  · exact hes p hp config hconfig

theorem losses (hes : InTime es) (gone : List (Handle × Kind)) : InTime (es ++ gone.map loss) := by
  induction gone generalizing es with
  | nil => rwa [List.map_nil, List.append_nil]
  | cons x gone ih =>
    rw [List.map_cons, List.append_cons]
    exact ih (hes.snoc fun config => hes es (List.prefix_refl es) config)

theorem of_filter (hes : InTime (es.filter ofCells)) : InTime es := by
  intro p hp config hconfig
  rw [← claims_filter] at hconfig ⊢
  exact hes _ (hp.filter _) config hconfig

theorem countP_le {front middle segment rest : List Entry}
    (hes : InTime (front ++ opened config :: (middle ++ segment ++ rest)))
    (hopened : ∀ e ∈ middle ++ segment, ∀ config, e ≠ opened config)
    (hcollected : ∀ e ∈ segment, ∀ level, e ≠ collected level) :
    segment.countP isClaim ≤ config.collectInterval := by
  have hp : front ++ opened config :: (middle ++ segment) <+:
      front ++ opened config :: (middle ++ segment ++ rest) :=
    ⟨rest, by rw [List.append_assoc, List.cons_append]⟩
  have hclaims : claims (front ++ opened config :: (middle ++ segment)) =
      segment.foldl count (middle.foldl count (some config, 0)) := by
    rw [claims_append, List.foldl_cons, List.foldl_append]
    rfl
  have hconfig : ((middle ++ segment).foldl count (some config, 0)).1 = some config :=
    fst_foldl_count hopened
  rw [List.foldl_append] at hconfig
  have hlimit := hes _ hp config (by rw [hclaims, hconfig])
  rw [hclaims, snd_foldl_count (fun e he => hopened e (List.mem_append_right _ he)) hcollected]
    at hlimit
  exact (Nat.le_add_left _ _).trans hlimit

end InTime

end Entry

open HeapM

/-- The interval is that of the configuration, and not too many objects have been allocated. -/
structure Heap.Timely (heap : Heap) : Prop where
  interval : heap.strategy.interval = heap.config.collectInterval
  positive : 0 < heap.config.collectInterval
  count : heap.strategy.sinceCollection ≤ heap.strategy.interval

/-- The policy counts what the history shows, and the history has always kept to the interval. -/
structure Heap.Paced (heap : Heap) : Prop extends heap.Timely where
  claims : Entry.claims heap.journal.ofCells = (some heap.config, heap.strategy.sinceCollection)
  inTime : Entry.InTime heap.journal.ofCells
  recordedCollections : Strategy.History heap.config (Entry.recordedCollections heap.journal.ofCells) heap.strategy

theorem Config.collectInterval_pos {c : Config} (hv : c.validate = .ok ()) :
    0 < c.collectInterval := by
  simp only [Config.validate, except_bind] at hv
  obtain ⟨_, hzero, -⟩ := hv
  have hne := (refuse_eq_ok_iff ..).mp hzero ("collect_interval", c.collectInterval) (by simp)
  exact Nat.pos_of_ne_zero (by simpa using hne)

namespace Heap

variable {heap mid heap' : Heap}

theorem timely_build {config : Config} {hash : Bytes → Encoding → UInt32}
    (hv : config.validate = .ok ()) (hb : Heap.build config hash = .ok heap) : heap.Timely := by
  obtain ⟨arena, -, rfl⟩ := build_eq_ok hb
  exact ⟨rfl, Config.collectInterval_pos hv, Nat.zero_le _⟩

namespace Paced

theorem congr (hp : heap.Paced) (hpace : heap'.pace = heap.pace) : heap'.Paced := by
  obtain ⟨hconfig, hstrategy, -, -, hcells⟩ := pace_eq_iff.mp hpace
  refine ⟨⟨?_, ?_, ?_⟩, ?_, ?_, ?_⟩ <;> simp only [hconfig, hstrategy, hcells]
  exacts [hp.interval, hp.positive, hp.count, hp.claims, hp.inTime, hp.recordedCollections]

theorem renewed {config : Config} {hash : Bytes → Encoding → UInt32} {fresh : Heap}
    {es : List Entry} (hv : config.validate = .ok ()) (hb : Heap.build config hash = .ok fresh)
    (hes : Entry.InTime es) (hconfig : heap.config = fresh.config)
    (hstrategy : heap.strategy = fresh.strategy)
    (hcells : heap.journal.ofCells = es ++ [.opened config]) : heap.Paced := by
  have ht := timely_build hv hb
  obtain ⟨arena, -, rfl⟩ := build_eq_ok hb
  have hclaims : Entry.claims (es ++ [.opened config]) = (some config, 0) := Entry.claims_snoc
  have hrecordedCollections : Entry.recordedCollections (es ++ [.opened config]) = [] := by
    rw [Entry.recordedCollections, List.foldl_append]
    rfl
  refine ⟨⟨?_, ?_, ?_⟩, ?_, ?_, ?_⟩ <;> simp only [hconfig, hstrategy, hcells]
  · exact ht.interval
  · exact ht.positive
  · exact ht.count
  · exact hclaims
  · exact hes.snoc fun _ _ => Nat.zero_le _
  · exact hrecordedCollections ▸ .new

theorem build {config : Config} {hash : Bytes → Encoding → UInt32}
    (hv : config.validate = .ok ()) (hb : Heap.build config hash = .ok heap) : heap.Paced := by
  have hnone : Entry.InTime [] := by
    intro p hp config hconfig
    rw [List.prefix_nil.mp hp] at hconfig
    cases hconfig
  exact renewed hv hb hnone rfl rfl (build_ofCells hb)

theorem claim {n : NodeClass} {kind : Kind} {payload : Payload} {chunks : Nat} {r : Option Handle}
    (hp : heap.Paced) (hfree : heap.strategy.countdownExpired = false)
    (hrun : (claimCell? n kind payload chunks).run heap = .ok (r, heap')) : heap'.Paced := by
  rcases run_claim hrun with ⟨-, rfl⟩ | ⟨h, arena, -, -, rfl⟩
  · exact hp
  have hroom : heap.strategy.sinceCollection + 1 ≤ heap.strategy.interval :=
    Nat.lt_of_not_le (of_decide_eq_false hfree)
  have hcells : (heap.journal.record (.claimed h kind)).ofCells =
      heap.journal.ofCells ++ [.claimed h kind] := Journal.ofCells_record
  refine ⟨⟨hp.interval, hp.positive, hroom⟩, ?_, ?_, ?_⟩ <;> simp only [hcells]
  · rw [Entry.claims_snoc, hp.claims]
    rfl
  · refine hp.inTime.snoc fun config hconfig => ?_
    rw [hp.claims] at hconfig ⊢
    rw [← Option.some.inj hconfig]
    exact hroom.trans_eq hp.interval
  · rw [Entry.recordedCollections, List.foldl_append, ← Entry.recordedCollections]
    exact hp.recordedCollections.allocated

theorem collect {level : Level} {reason : Reason} {o : Outcome} (hp : heap.Paced)
    (hs : heap.Sound) (hrun : (collect level reason).run heap = .ok (o, heap')) : heap'.Paced := by
  have hstrategy := collect_strategy hs hrun
  obtain ⟨records, hcol⟩ := collect_collected hs hrun
  have hconfig := hcol.config
  have hcells : heap'.journal.ofCells = heap.journal.ofCells ++ (heap.losses heap').map .loss ++
      [.collected level] := by
    rw [(collect_reports hs hrun).ofCells, Entry.filter_collected (fun _ => rfl) rfl,
      List.append_assoc]
  refine ⟨⟨?_, ?_, ?_⟩, ?_, ?_, ?_⟩ <;> simp only [hconfig, hstrategy, hcells]
  · rw [Strategy.interval_record]
    exact hp.interval
  · exact hp.positive
  · rw [Strategy.sinceCollection_record]
    exact Nat.zero_le _
  · have hsame : (((heap.losses heap').map .loss).foldl Entry.count
        (Entry.claims heap.journal.ofCells)).1 = (Entry.claims heap.journal.ofCells).1 := by
      refine Entry.fst_foldl_count fun e he config => ?_
      obtain ⟨x, -, rfl⟩ := List.mem_map.mp he
      exact Entry.noConfusion
    rw [Entry.claims_snoc, Strategy.sinceCollection_record]
    refine Prod.ext ((congrArg Prod.fst Entry.claims_append).trans (hsame.trans ?_)) rfl
    rw [hp.claims]
  · exact (hp.inTime.losses _).snoc fun _ _ => Nat.zero_le _
  · rw [Entry.recordedCollections, List.foldl_append, ← Entry.recordedCollections, Entry.recordedCollections_append_losses]
    exact hp.recordedCollections.asked _ _ _

end Paced

end Heap

theorem Heap.Paced.step {heap heap' : Heap} (hs : heap.Sound) (hstep : heap.CellStep heap')
    (hp : heap.Paced) : heap'.Paced := by
  cases hstep with
  | amend ha => exact hp.congr ha.pace
  | grow hrun =>
    rcases run_growth hrun with ⟨-, rfl⟩ | ⟨-, -, i, arena, event, -, rfl⟩
    · exact hp
    · exact hp.congr rfl
  | claim _ _ hfree hrun => exact hp.claim (hfree (hp.interval ▸ hp.positive)) hrun
  | collect hrun => exact hp.collect hs hrun
  | renew hbuild =>
    refine .renewed rfl hbuild hp.inTime rfl rfl ?_
    exact (Journal.ofCells_append rfl).trans (congrArg (_ ++ ·) (Heap.build_ofCells hbuild))

/-! ### Torture -/

theorem HeapM.run_collectionDue_of_torture {heap : Heap} (htorture : heap.config.torture = true)
    (kind : Kind) (length : Nat) :
    (collectionDue kind length).run heap = .ok (some .torture, heap) := by
  simp only [collectionDue, run_bind, run_get]
  exact ⟨_, _, ⟨rfl, rfl⟩, run_ite.mpr (.inl ⟨htorture, run_pure.mpr ⟨rfl, rfl⟩⟩)⟩

theorem HostM.allocate_tortured {ω : Type} {host : Host ω} {kind : Kind} {length : Nat}
    {roots : List Handle} {heap heap' : Heap} {state state' : ω} {h : Handle}
    (htorture : heap.config.torture = true)
    (hrun : ((allocate host kind length roots).run.run state).run heap =
      .ok ((.ok h, state'), heap')) : ∃ o mid last,
    (collect heap.strategy.chooseLevel .torture).run
      (heap.keeping (heap.roots.transient ++ roots.toArray)) = .ok (o, mid) ∧
    ((takeOrRetry host kind length).run state).run mid = .ok ((.ok h, state'), last) ∧
    heap' = last.keeping (last.roots.transient.shrink heap.roots.transient.size) := by
  have hslow : ((withTransient roots (allocateSlow host kind length)).run state).run heap =
      .ok ((.ok h, state'), heap') := by
    unfold allocate at hrun
    dsimp only at hrun
    split at hrun
    · obtain ⟨_, _, _, hthrow, -⟩ := Attempt.run_bind_ok hrun
      cases congrArg (fun x => x.1.1) (Except.ok.inj hthrow)
    · split at hrun
      · obtain ⟨_, _, _, hthrow, -⟩ := Attempt.run_bind_ok hrun
        cases congrArg (fun x => x.1.1) (Except.ok.inj hthrow)
      · obtain ⟨g, mid, hfast, hrest⟩ := Attempt.run_lift_bind hrun
        rw [run_fast_of_due (.inl htorture)] at hfast
        obtain ⟨rfl, rfl⟩ := Prod.mk.inj (Except.ok.inj hfast)
        exact hrest
  obtain ⟨last, hinside, rfl⟩ := run_withTransient hslow
  rw [allocateSlow_eq] at hinside
  obtain ⟨due, middle, mid, hasked, hrest⟩ := run_bindM.mp hinside
  obtain ⟨rfl, hdue⟩ := run_liftM.mp hasked
  have hopen : (heap.keeping (heap.roots.transient ++ roots.toArray)).config.torture = true :=
    htorture
  rw [run_collectionDue_of_torture hopen] at hdue
  obtain ⟨rfl, rfl⟩ := Prod.mk.inj (Except.ok.inj hdue)
  obtain ⟨now, _, _, hnow, hcollects⟩ := run_bindM.mp hrest
  cases hnow
  obtain ⟨o, _, mid, hcollected, htake⟩ := run_bindM.mp hcollects
  obtain ⟨rfl, hcollect⟩ := run_liftM.mp hcollected
  exact ⟨o, mid, last, hcollect, htake, rfl⟩

namespace Session

/-- In every heap that a session reaches, the policy counts what the history shows. -/
theorem Reachable.paced {state : State} {heap : Heap} (hr : Reachable state heap) : heap.Paced := by
  induction hr with
  | new hvalid hbuild => exact .build hvalid hbuild
  | step hr hrun ih =>
    exact (runStep_comes hr.soundWithHistory hrun).2.keep (fun hv he => he.keep hv.1 Heap.Paced.step) ih

/-- The next collection that a reachable heap makes by itself is deep enough for those that its
history shows. -/
theorem Reachable.next_level {state : State} {heap : Heap} (hr : Reachable state heap) :
    Strategy.Suits heap.config (Entry.recordedCollections heap.journal.ofCells) heap.strategy.chooseLevel :=
  hr.paced.recordedCollections.agrees.suits

/-- The count of allocations is what the history of a reachable heap shows, and keeps to the
interval, as it did at every time of the history. So no more cells are claimed between two
collections than the configuration of the heap says. And where every allocation collects, one that
succeeds has collected before it took a cell. -/
theorem collections_in_time {state : State} {heap : Heap} (hr : Reachable state heap) :
    heap.Timely ∧
    Entry.claims heap.history = (some heap.config, heap.strategy.sinceCollection) ∧
    Entry.InTime heap.history ∧
    (∀ {front middle segment rest : List Entry} {config : Config},
      heap.history = front ++ .opened config :: (middle ++ segment ++ rest) →
      (∀ e ∈ middle ++ segment, ∀ config, e ≠ .opened config) →
      (∀ e ∈ segment, ∀ level, e ≠ .collected level) →
      segment.countP Entry.isClaim ≤ config.collectInterval) ∧
    ∀ {before : Heap}, before.config.torture = true → ∀ kind length,
      (allocateFast kind length).run before = .ok (.noObject, before) ∧
      ∀ {ω : Type} {host : Host ω} {roots : List Handle} {s s' : ω} {h : Handle} {after : Heap},
        ((HostM.allocate host kind length roots).run.run s).run before =
          .ok ((.ok h, s'), after) → ∃ o mid last,
        (collect before.strategy.chooseLevel .torture).run
          (before.keeping (before.roots.transient ++ roots.toArray)) = .ok (o, mid) ∧
        ((HostM.takeOrRetry host kind length).run s).run mid = .ok ((.ok h, s'), last) ∧
        after = last.keeping (last.roots.transient.shrink before.roots.transient.size) := by
  have hp := hr.paced
  have hes : Entry.InTime heap.history := .of_filter hp.inTime
  refine ⟨hp.toTimely, (Entry.claims_filter _).symm.trans hp.claims, hes, fun hsplit => ?_,
    fun htorture kind length => ⟨run_fast_of_due (.inl htorture), fun hrun =>
      HostM.allocate_tortured htorture hrun⟩⟩
  rw [hsplit] at hes
  exact hes.countP_le

/-- Five pairs, one after the other. -/
def fivePairs : List Step :=
  .replicate 5 (.command (.request (.cons (.handle .nil) (.handle .nil))) none)

/-- The heap, as it would be if every allocation collected. -/
def tortured (heap : Heap) : Heap :=
  { heap with config := { heap.config with torture := true } }

/-- Where two objects may be allocated between collections, five pairs take two collections and
leave one on the count. If every allocation collected from then on, the next one would. -/
theorem collections_in_time_fivePairs : ∃ heap state h after,
    opened { segmentCells := 8, collectInterval := 2 } fivePairs = .ok heap ∧
    heap.counters.collections.young = 2 ∧ heap.strategy.sinceCollection = 1 ∧ heap.Timely ∧
    heap.history.countP Entry.isClaim = 5 ∧ Entry.claims heap.history = (some heap.config, 1) ∧
    Entry.InTime heap.history ∧
    ((HostM.allocate Session.host .pair 0 []).run.run {}).run (tortured heap) =
      .ok ((.ok h, state), after) ∧
    ∃ transient o mid, (collect (tortured heap).strategy.chooseLevel .torture).run
      ((tortured heap).keeping transient) = .ok (o, mid) := by
  obtain ⟨⟨heap, result, state, after⟩, ho, htest⟩ := except_of_test
    (x := do
      let heap ← opened { segmentCells := 8, collectInterval := 2 } fivePairs
      let ((result, state), after) ←
        ((HostM.allocate Session.host .pair 0 []).run.run {}).run (tortured heap)
      return (heap, result, state, after))
    (p := fun r => r.1.counters.collections.young == 2 && r.1.strategy.sinceCollection == 1 &&
      r.1.history.countP Entry.isClaim == 5 && r.2.1.toBool) (by decide +kernel)
  simp only [Bool.and_eq_true, beq_iff_eq] at htest
  obtain ⟨⟨⟨hyoung, hcount⟩, hfive⟩, hok⟩ := htest
  simp only [except_bind] at ho
  obtain ⟨start, hopened, ⟨⟨answer, last⟩, stop⟩, hrun, hsame⟩ := ho
  cases hsame
  cases answer with
  | error e => cases hok
  | ok h =>
    obtain ⟨_, hr⟩ := reachable_of_opened rfl hopened
    obtain ⟨htimely, hclaims, hintime, -, htorture⟩ := collections_in_time hr
    obtain ⟨-, hcollects⟩ := @htorture (tortured heap) rfl .pair 0
    obtain ⟨o, mid, -, hcollect, -⟩ := hcollects hrun
    exact ⟨heap, last, h, stop, hopened, hyoung, hcount, htimely, hfive, hcount ▸ hclaims, hintime,
      hrun, _, o, mid, hcollect⟩

end Session

end ManagedHeap
