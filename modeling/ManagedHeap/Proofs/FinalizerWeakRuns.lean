import ManagedHeap.Proofs.HostWeakRuns

/-!
# What passes of finalizers do to the weak chain

A pass goes along the chain, takes the ready records off it and calls their finalizers, which
may link records, collect, and flag others as ready meanwhile. Passes are repeated until one
finds no ready record.
-/

namespace ManagedHeap

variable {ω : Type}

namespace Heap

variable {heap mid heap' : Heap} {r : Handle} {f : WeakFields}

theorem TakesOffChain.aside (htakesOffChain : heap.TakesOffChain mid r f) (harena : heap'.arena = mid.arena)
    (hweak : heap'.weak = mid.weak) : heap.TakesOffChain heap' r f where
  ready := htakesOffChain.ready
  filled := htakesOffChain.filled
  emptied := by rw [fieldsOf, harena, ← fieldsOf, htakesOffChain.emptied]
  contains hlive := by
    rw [harena]
    exact htakesOffChain.contains hlive
  others {h g} hne hg := by
    rw [fieldsOf, harena, ← fieldsOf] at hg
    exact htakesOffChain.others hne hg
  chain hc := ⟨(htakesOffChain.chain hc).1, (Preserves.aside harena hweak).chain (htakesOffChain.chain hc).2⟩

theorem KeepsRecords.aside (hkeepsRecords : heap.KeepsRecords mid) (harena : heap'.arena = mid.arena)
    (hweak : heap'.weak = mid.weak) : heap.KeepsRecords heap' := by
  intro records rs k hc hrs hk hk'
  have hback : heap'.Preserves mid := .aside harena.symm hweak.symm
  exact (hkeepsRecords hc (hback.chain hrs) hk hk').trans
    (KeepsRecords.of_arena harena (hback.chain hrs) hrs hk' hk')

theorem recordFields_eq (hf : heap.fieldsOf r = some f) :
    heap.arena.recordFields r = [f.key, f.value, f.finalizer, f.next] := by
  obtain ⟨c, hc, hp⟩ := fieldsOf_eq_some.mp hf
  rw [Arena.recordFields, hc, Option.map_some, hp]

def call (heap : Heap) (record key function : Handle) : Invocation where
  record := record
  key := key
  finalizer := function
  fields := heap.arena.recordFields record
  chain := (heap.arena.weakRecords heap.weak).toOption.getD []
  live := heap.alive [key, function]
  transient := heap.roots.transient.size

def calling (heap : Heap) (c : Invocation) : Heap :=
  { heap with journal := heap.journal.record (.called c) }

end Heap

theorem HeapM.run_enterRecovery {scope : RecoveryScope} {heap heap' : Heap}
    (hrun : enterRecovery.run heap = .ok (scope, heap')) :
    scope.transient = heap.roots.transient.size ∧ heap' = heap := by
  simp only [enterRecovery, run_bind, run_get, run_pure] at hrun
  obtain ⟨_, _, ⟨rfl, rfl⟩, rfl, rfl⟩ := hrun
  exact ⟨rfl, rfl⟩

/-- No record of the chain is ready. -/
def Heap.NoneReady (heap : Heap) : Prop :=
  ∀ records, heap.arena.weakRecords heap.weak = .ok records →
    ∀ r ∈ records, ¬ heap.arena.Ready r

namespace HostM

variable {host : Host ω} {record function key : Handle} {state state' : ω} {heap heap' : Heap}
  {u : PUnit}

theorem run_runFinalizer
    (hrun : ((runFinalizer host record function key).run state).run heap =
      .ok ((u, state'), heap')) :
    ∃ opened outcome stop back,
      opened = heap.keeping (heap.roots.transient ++ [key, function].toArray) ∧
      ((invoke host function key).run state).run (opened.calling (opened.call record key function)) =
        .ok ((outcome, state'), stop) ∧
      stop.Performs back (.returned opened.roots.transient.size) ∧ stop.KeepsRecords back ∧
      back.pinned = stop.pinned.take heap.pinned.length ∧
      back.finalizers.running = stop.finalizers.running ∧ back.PreservesFlags heap' := by
  rw [runFinalizer] at hrun
  obtain ⟨outcome, first, closed, hscope, hcount⟩ := run_bindM.mp hrun
  obtain ⟨last, hinside, rfl⟩ := run_withTransient hscope
  obtain ⟨_, second, noted, hnote, hentering⟩ := run_bindM.mp hinside
  obtain ⟨rfl, hnoted⟩ := run_liftM.mp hnote
  obtain rfl := run_modify.mp hnoted
  obtain ⟨scope, second, opened, henter, hbody⟩ := run_bindM.mp hentering
  obtain ⟨rfl, hentered⟩ := run_liftM.mp henter
  obtain ⟨hdepth, rfl⟩ := HeapM.run_enterRecovery hentered
  obtain ⟨result, third, stop, hinvoke, hunwind⟩ := run_bindM.mp hbody
  obtain ⟨changed, fourth, cut, hleave, hend⟩ := run_bindM.mp hunwind
  obtain ⟨rfl, hleft⟩ := run_liftM.mp hleave
  obtain ⟨hkeeps, htally, hpins, harena⟩ := HeapM.cuts_leaveRecovery hleft
  have hnoted : outcome = result ∧ first = fourth ∧ cut.PreservesFlags last := by
    split at hend
    · obtain ⟨_, fifth, noted, hnote, hreturn⟩ := run_bindM.mp hend
      obtain ⟨rfl, hnoted⟩ := run_liftM.mp hnote
      obtain ⟨hsame, rfl⟩ := run_pure.mp hreturn
      obtain ⟨rfl, rfl⟩ := Prod.mk.inj hsame
      exact ⟨rfl, rfl, HeapM.PreservesRecords.note _ _ _ hnoted⟩
    · obtain ⟨hsame, rfl⟩ := run_pure.mp hend
      obtain ⟨rfl, rfl⟩ := Prod.mk.inj hsame
      exact ⟨rfl, rfl, .refl _⟩
  obtain ⟨rfl, rfl, hpreservesFlags⟩ := hnoted
  obtain ⟨_, fifth, counted, hmodify, hfailed⟩ := run_bindM.mp hcount
  obtain ⟨rfl, hmodified⟩ := run_liftM.mp hmodify
  have hcounted := run_modify.mp hmodified
  have hlast := hpreservesFlags.tally.trans htally
  obtain ⟨rfl, hafter⟩ : state' = fifth ∧ counted.PreservesFlags heap' := by
    cases outcome with
    | ok _ =>
      obtain ⟨hsame, rfl⟩ := run_pure.mp hfailed
      exact ⟨(Prod.mk.inj hsame).2.symm, .refl _⟩
    | error e =>
      obtain ⟨_, sixth, noticed, hfail, hnote⟩ := run_bindM.mp hfailed
      obtain ⟨hsame, hfail'⟩ := run_liftM.mp hfail
      obtain ⟨hsame', hnote'⟩ := run_liftM.mp hnote
      have hpreservesRecords : HeapM.PreservesRecords (HeapM.modifyFinalizers fun f => { f with failed := f.failed + 1 }) :=
        .modifyFinalizers (fun _ => rfl) fun _ => rfl
      exact ⟨hsame'.trans hsame,
        (hpreservesRecords _ _ _ hfail').trans (HeapM.PreservesRecords.note _ _ _ hnote')⟩
  refine ⟨_, outcome, stop, counted, rfl, hinvoke, ⟨?_, ?_, ?_⟩, ?_, ?_, ?_, hafter⟩ <;>
    subst hcounted
  · exact (hkeeps.trans hpreservesFlags.toPreserves).trans (.aside rfl rfl)
  · exact congrArg (fun t : Tally => t.run + 1) hlast
  · change (last.journal.record .returned).ofRecords = _
    rw [Journal.ofRecords_record, show last.journal.ofRecords = _ from congrArg Tally.entries hlast,
      hdepth]
    exact List.append_assoc _ _ _
  · refine Heap.Preserves.keepsRecords ((hkeeps.trans hpreservesFlags.toPreserves).trans (.aside rfl rfl)) ?_
    exact fun hc hd => hpreservesFlags.flags (harena ▸ hc) hd
  · have hcut : last.pinned = stop.pinned.take (heap.roots.transient.size + 2) := by
      rw [Heap.pinned, hpreservesFlags.transient]
      refine hpins.trans (congrArg (stop.pinned.take ·) (hdepth.trans ?_))
      exact Array.size_append
    change (last.keeping (last.roots.transient.shrink heap.roots.transient.size)).pinned = _
    rw [Heap.pinned_cut, hcut, List.take_take, heap.length_pinned]
    congr 1
    omega
  · exact congrArg Tally.running hlast

def At (cursor : Handle) (f : WeakFields) (heap : Heap) : Prop :=
  heap.Sound ∧ heap.fieldsOf cursor = some f

theorem run_finalize {record hint : Handle} {f : WeakFields} {u : PUnit} (hs : heap.Sound)
    (hne : record ≠ .nil) (hfinalizer : f.finalizer ≠ .nil) (hf : heap.fieldsOf record = some f)
    (hready : heap.arena.Ready record)
    (hrun : ((liftM (HeapM.unlinkWeakRef record hint) >>= fun _ =>
      runFinalizer host record f.finalizer f.key).run state).run heap = .ok ((u, state'), heap')) :
    ∃ c called outcome stop back, c.record = record ∧ called.Sound ∧ heap.Performs called (.called c) ∧ heap.KeepsRecords called ∧
      called.finalizers.running = heap.finalizers.running ∧
      ((invoke host f.finalizer f.key).run state).run called = .ok ((outcome, state'), stop) ∧
      stop.Performs back (.returned c.transient) ∧ stop.KeepsRecords back ∧
      back.pinned = stop.pinned.take heap.pinned.length ∧
      back.finalizers.running = stop.finalizers.running ∧ back.PreservesFlags heap' := by
  obtain ⟨_, first, off, hunlink, hcall⟩ := run_bindM.mp hrun
  obtain ⟨rfl, hunlinked⟩ := run_liftM.mp hunlink
  obtain ⟨htakesOffChain, hpins, htally, hkeepsRecords⟩ := HeapM.takesOffChain_unlinkWeakRef hne hf hready hunlinked
  obtain ⟨opened, outcome, stop, back, hopened, hinvoke, hreturned, hreturn, hback, hrunning,
    hpreservesFlags⟩ := run_runFinalizer hcall
  have hoff : off.Sound := HeapM.Safe.unlinkWeakRef _ _ _ hs hunlinked
  have hadded : opened.pinned = heap.pinned ++ [f.key, f.finalizer] := by
    rw [hopened, Heap.pinned_added, hpins]
  subst hopened
  set opened := off.keeping (off.roots.transient ++ [f.key, f.finalizer].toArray) with hopened
  set c := opened.call record f.key f.finalizer
  refine ⟨c, opened.calling c, outcome, stop, back, rfl, hoff.aside rfl rfl rfl rfl rfl,
    ⟨⟨f, htakesOffChain.aside rfl rfl, rfl, rfl, hfinalizer, ?_, fun hrecords => ?_, rfl, hadded, ?_⟩,
      congrArg Tally.run htally, ?_⟩, hkeepsRecords.aside rfl rfl, congrArg Tally.running htally, hinvoke,
    hreturned, hreturn, hpins ▸ hback, hrunning, hpreservesFlags⟩
  · exact Heap.recordFields_eq htakesOffChain.emptied
  · exact congrArg (fun x => x.toOption.getD []) hrecords.listed
  · exact opened.length_pinned.symm
  · change (opened.journal.record (.called c)).ofRecords = _
    rw [Journal.ofRecords_record,
      show opened.journal.ofRecords = _ from congrArg Tally.entries htally]
    exact List.append_assoc _ _ _

theorem weakRunTriple_finalize (hhost : host.HasWeakRun) {record hint : Handle} {f : WeakFields}
    (hne : record ≠ .nil) (hfinalizer : f.finalizer ≠ .nil) :
    WeakRunTriple (fun heap => At record f heap ∧ heap.arena.Ready record)
      (liftM (HeapM.unlinkWeakRef record hint) >>= fun _ => runFinalizer host record f.finalizer f.key)
      fun _ => Heap.Sound := by
  refine .of fun state heap u state' heap' hc ⟨⟨hs, hf⟩, hready⟩ hrun => ?_
  have hsound : heap'.Sound :=
    (Safe.bind (.lift .unlinkWeakRef) fun _ => .runFinalizer hhost.safe _ _ _) _ _ _ _ hs hrun
  obtain ⟨c, called, outcome, stop, back, -, hstart, hcalled, hkeepsRecords, hrunning, hinvoke, hreturned,
    hreturn, hback, hrunning', hpreservesFlags⟩ := run_finalize hs hne hfinalizer hf hready hrun
  obtain ⟨-, hbody⟩ := (HasWeakRun.invoke hhost f.finalizer f.key).run (hcalled.readable hc) hstart hinvoke
  exact ⟨hsound, .trans (.of_called hcalled hbody hreturned hkeepsRecords hreturn hback hrunning hrunning')
    (.of_preservesFlags hpreservesFlags)⟩

namespace HasWeakRun

theorem finalizePass (hhost : host.HasWeakRun) (fuel : Nat) (previous cursor : Handle) (found : Bool)
    (ran : Nat) : HasWeakRun (finalizePass host previous cursor found ran fuel) := by
  induction fuel generalizing previous cursor found ran with
  | zero => exact throw
  | succ fuel ih =>
    unfold HostM.finalizePass
    split
    · exact pure
    · rename_i hnil
      have hne : cursor ≠ .nil := by simpa [Handle.isNil] using hnil
      refine WeakRunTriple.bind (Q := At cursor) (.lift (.preservesRecords ?_ (.of_reads .chainFields))) fun fields =>
        WeakRunTriple.bind (Q := fun fs heap => At cursor fields heap ∧
          (fs.readyToFinalize = true → heap.arena.Ready cursor))
          (.lift (.preservesRecords ?_ (.of_reads .flags))) fun fs => ?_
      · intro heap f heap' hs hrun
        simp only [HeapM.chainFields, run_bind, run_get, run_lift] at hrun
        obtain ⟨_, _, ⟨rfl, rfl⟩, hfields, rfl⟩ := hrun
        exact ⟨hs, Heap.fieldsOf_eq_some.mpr (Arena.weakFields_eq_ok.mp hfields)⟩
      · intro heap fs heap' hat hrun
        obtain ⟨c, hc, hfs, rfl⟩ := HeapM.run_flags.mp hrun
        exact ⟨hat, fun hready => ⟨c, hc, hfs ▸ hready⟩⟩
      · split
        · exact (ih cursor fields.next found ran).conseq (fun _ h => h.1.1) fun _ _ => id
        · rename_i hflag
          have hready : fs.readyToFinalize = true := by simpa using hflag
          refine .conseq (P := fun heap => At cursor fields heap ∧ heap.arena.Ready cursor) ?_
            (fun _ h => ⟨h.1, h.2 hready⟩) fun _ _ => id
          by_cases hfinalizer : fields.finalizer = .nil
          · rw [hfinalizer]
            refine WeakRunTriple.bind (Q := fun _ => Heap.Sound) (.lift (.of ?_)) fun _ =>
              ih previous fields.next true ran
            rintro heap u heap' _ ⟨⟨hs, hf⟩, hready⟩ hrun
            obtain ⟨htakesOffChain, hpins, htally, hkeepsRecords⟩ :=
              HeapM.takesOffChain_unlinkWeakRef hne hf hready hrun
            exact ⟨HeapM.Safe.unlinkWeakRef _ _ _ hs hrun,
              .of_drops htakesOffChain hfinalizer hpins htally hkeepsRecords⟩
          · have hisNil : ¬ fields.finalizer.isNil = true := by simpa [Handle.isNil] using hfinalizer
            simp only [if_neg hisNil]
            rw [← bind_assoc]
            exact WeakRunTriple.bind (weakRunTriple_finalize hhost hne hfinalizer) fun _ =>
              ih previous fields.next true (ran + 1)

theorem finalizePasses (hhost : host.HasWeakRun) (fuel ran : Nat) :
    HasWeakRun (finalizePasses host ran fuel) := by
  induction fuel generalizing ran with
  | zero => exact throw
  | succ fuel ih =>
    refine bind getHeap fun heap => bind stepBound fun bound =>
      bind (finalizePass hhost bound .nil heap.weak.head false ran) fun result => ?_
    obtain ⟨found, ran⟩ := result
    dsimp only
    split
    · exact ih ran
    · exact pure

end HasWeakRun

theorem run_runPendingFinalizers {ran : Nat}
    (hrun : ((runPendingFinalizers host).run state).run heap = .ok ((ran, state'), heap')) :
    (heap.finalizers.running = true ∧ heap' = heap) ∨
      heap.finalizers.running = false ∧
        ∃ stop, ((finalizePasses host 0 host.fuel).run state).run
            { heap with finalizers := { heap.finalizers with running := true } } =
              .ok ((ran, state'), stop) ∧
          heap' = { stop with finalizers := { stop.finalizers with running := false } } := by
  rw [runPendingFinalizers] at hrun
  obtain ⟨now, first, mid, hget, hrest⟩ := run_bindM.mp hrun
  obtain ⟨rfl, hnow⟩ := run_liftM.mp hget
  obtain ⟨rfl, rfl⟩ := run_get.mp hnow
  split at hrest
  · rename_i hrunning
    obtain ⟨-, rfl⟩ := run_pure.mp hrest
    exact .inl ⟨hrunning, rfl⟩
  · rename_i hrunning
    obtain ⟨_, second, opened, hopen, hbody⟩ := run_bindM.mp hrest
    obtain ⟨rfl, hopened⟩ := run_liftM.mp hopen
    obtain rfl := run_modify.mp hopened
    obtain ⟨count, third, stop, hpasses, hend⟩ := run_bindM.mp hbody
    obtain ⟨_, fourth, closed, hclose, hanswer⟩ := run_bindM.mp hend
    obtain ⟨rfl, hclosed⟩ := run_liftM.mp hclose
    obtain rfl := run_modify.mp hclosed
    obtain ⟨hsame, rfl⟩ := run_pure.mp hanswer
    obtain ⟨rfl, rfl⟩ := Prod.mk.inj hsame
    exact .inr ⟨by simpa using hrunning, stop, hpasses, rfl⟩

namespace HasWeakRun

theorem runPendingFinalizers (hhost : host.HasWeakRun) : HasWeakRun (runPendingFinalizers host) := by
  refine .of fun state heap ran state' heap' hc hs hrun => ?_
  refine ⟨Safe.runPendingFinalizers hhost.safe _ _ _ _ hs hrun, ?_⟩
  rcases run_runPendingFinalizers hrun with ⟨-, rfl⟩ | ⟨-, stop, hpasses, rfl⟩
  · exact .refl _
  · have hopen : heap.Performs { heap with finalizers := { heap.finalizers with running := true } }
        .aside := ⟨Heap.Preserves.aside rfl rfl, rfl, (List.append_nil _).symm⟩
    have hclose : stop.Performs { stop with finalizers := { stop.finalizers with running := false } }
        .aside := ⟨Heap.Preserves.aside rfl rfl, rfl, (List.append_nil _).symm⟩
    obtain ⟨-, hevolves⟩ := (finalizePasses hhost host.fuel 0).run (hopen.readable hc)
      (hs.aside rfl rfl rfl rfl rfl) hpasses
    exact .of_between hopen (List.append_nil _).symm hevolves hclose rfl rfl rfl
      fun _ _ => rfl

theorem runExitFinalizers (hhost : host.HasWeakRun) : HasWeakRun (runExitFinalizers host) := by
  refine bind getHeap fun heap => ?_
  split
  · exact pure
  · exact bind (reads .weakRecords) fun records =>
      bind (preservesRecords (.flagOnExit records) (.flagOnExit records)) fun _ =>
      bind (runPendingFinalizers hhost) fun ran =>
      bind (preservesRecords .modifyFinalizers (.modifyFinalizers (fun _ => rfl) fun _ => rfl)) fun _ =>
      bind note fun _ => pure

theorem requestCollection (hhost : host.HasWeakRun) (level : Level) :
    HasWeakRun (requestCollection host level) :=
  bind (WeakRunTriple.lift HeapM.collects) fun _ => bind (runPendingFinalizers hhost) fun _ => pure

end HasWeakRun

theorem spent_finalizePass {fuel : Nat} {previous cursor : Handle} {found : Bool} {ran count : Nat}
    (hrun : ((finalizePass host previous cursor found ran fuel).run state).run heap =
      .ok (((false, count), state'), heap')) :
    found = false ∧ heap' = heap ∧
      ∀ rs, Strung heap.fieldsOf cursor rs → ∀ r ∈ rs, ¬ heap.arena.Ready r := by
  induction fuel generalizing previous cursor found ran state heap with
  | zero => cases hrun
  | succ fuel ih =>
    unfold finalizePass at hrun
    split at hrun
    · rename_i hnil
      obtain ⟨hsame, rfl⟩ := run_pure.mp hrun
      obtain ⟨hanswer, -⟩ := Prod.mk.inj hsame
      obtain rfl : cursor = .nil := by simpa [Handle.isNil] using hnil
      refine ⟨(Prod.mk.inj hanswer).1, rfl, fun rs hrs r hr => ?_⟩
      rw [hrs.of_nil] at hr
      cases hr
    · rename_i hnil
      have hne : cursor ≠ .nil := by simpa [Handle.isNil] using hnil
      obtain ⟨fields, first, mid, hread, hflags⟩ := run_bindM.mp hrun
      obtain ⟨rfl, hfields⟩ := run_liftM.mp hread
      simp only [HeapM.chainFields, run_bind, run_get, run_lift] at hfields
      obtain ⟨_, _, ⟨rfl, rfl⟩, hfields, rfl⟩ := hfields
      have hf := Heap.fieldsOf_eq_some.mpr (Arena.weakFields_eq_ok.mp hfields)
      obtain ⟨fs, second, last, hlook, hrest⟩ := run_bindM.mp hflags
      obtain ⟨rfl, hlooked⟩ := run_liftM.mp hlook
      obtain ⟨c, hc, rfl, rfl⟩ := HeapM.run_flags.mp hlooked
      split at hrest
      · rename_i hflag
        obtain ⟨hfound, hsame, hnone⟩ := ih hrest
        refine ⟨hfound, hsame, fun rs hrs r hr => ?_⟩
        obtain ⟨f, tail, rfl, hcursor, htail⟩ := hrs.of_ne_nil hne
        rw [hf, Option.some.injEq] at hcursor
        subst hcursor
        rcases List.mem_cons.mp hr with rfl | hr
        · exact Arena.not_ready hc (by simpa using hflag)
        · exact hnone tail htail r hr
      · -- a ready record makes the answer true
        obtain ⟨_, third, off, -, hagain⟩ := run_bindM.mp hrest
        split at hagain
        · cases (ih hagain).1
        · obtain ⟨_, fourth, ended, -, hlast⟩ := run_bindM.mp hagain
          cases (ih hlast).1

theorem spent_finalizePasses {fuel ran count : Nat}
    (hrun : ((finalizePasses host ran fuel).run state).run heap = .ok ((count, state'), heap')) :
    ∀ rs, Strung heap'.fieldsOf heap'.weak.head rs → ∀ r ∈ rs, ¬ heap'.arena.Ready r := by
  induction fuel generalizing ran state heap with
  | zero => exact nomatch hrun
  | succ fuel ih =>
    unfold finalizePasses at hrun
    obtain ⟨now, first, start, hget, hbound⟩ := run_bindM.mp hrun
    obtain ⟨rfl, hnow⟩ := run_liftM.mp hget
    obtain ⟨rfl, rfl⟩ := run_get.mp hnow
    obtain ⟨bound, second, mid, hstep, hpass⟩ := run_bindM.mp hbound
    obtain ⟨limit, third, walked, hwalk, hstepped⟩ := run_bindM.mp hstep
    obtain ⟨rfl, hwalked⟩ := run_liftM.mp hwalk
    obtain rfl := HeapM.Reads.walkBound _ _ _ hwalked
    obtain ⟨-, rfl⟩ := run_pure.mp hstepped
    obtain ⟨⟨found, total⟩, fourth, passed, hfirst, hrest⟩ := run_bindM.mp hpass
    cases found with
    | true => exact ih hrest
    | false =>
      obtain ⟨-, rfl⟩ := run_pure.mp hrest
      obtain ⟨-, rfl, hnone⟩ := spent_finalizePass hfirst
      exact hnone

theorem spent_runPendingFinalizers {ran : Nat} (hrests : heap.finalizers.running = false)
    (hrun : ((runPendingFinalizers host).run state).run heap = .ok ((ran, state'), heap')) :
    heap'.NoneReady := by
  rcases run_runPendingFinalizers hrun with ⟨hrunning, -⟩ | ⟨-, stop, hpasses, rfl⟩
  · rw [hrests] at hrunning
    exact nomatch hrunning
  · intro records hrecords
    exact spent_finalizePasses hpasses records (Heap.weakRecords_eq_ok.mp hrecords).1

theorem spent_requestCollection {level : Level} {o : Outcome} (hs : heap.Sound)
    (hrests : heap.finalizers.running = false)
    (hrun : ((requestCollection host level).run state).run heap = .ok ((o, state'), heap')) :
    heap'.NoneReady := by
  obtain ⟨outcome, first, collected, hcollect, hrest⟩ := run_bindM.mp hrun
  obtain ⟨rfl, hcollected⟩ := run_liftM.mp hcollect
  obtain ⟨records, hcol⟩ := HeapM.collect_collected hs hcollected
  obtain ⟨ran, second, ended, hpending, hend⟩ := run_bindM.mp hrest
  obtain ⟨-, rfl⟩ := run_pure.mp hend
  refine spent_runPendingFinalizers ?_ hpending
  exact (congrArg (fun c : Control => c.finalizers.running) hcol.control).trans hrests

end HostM

end ManagedHeap
