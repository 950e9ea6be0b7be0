import ManagedHeap.Proofs.WriteInvariant

/-!
# Other updates keep the invariant

Linking and unlinking weak records, finding and removing bindings, overwriting data and
what tasks do to the registry. The slots of a weak record hold nothing, and data vectors
have none, so neither needs the barrier.
-/

namespace ManagedHeap

namespace PendingObjects

theorem keys_upsert {p : PendingObjects} (hp : (p.entries.map Prod.fst).Nodup) (h : Handle)
    (f : TaskUse → TaskUse) : ((p.upsert h f).entries.map Prod.fst).Nodup := by
  unfold upsert
  cases hget : p.get? h with
  | some u =>
    simp only [keys_modify]
    exact hp
  | none =>
    simp only [List.map_append, List.map_cons, List.map_nil]
    refine List.nodup_append.mpr ⟨hp, List.nodup_singleton h, ?_⟩
    rintro k hk _ hkh rfl
    obtain rfl := List.mem_singleton.mp hkh
    obtain ⟨e, he, rfl⟩ := List.mem_map.mp hk
    simp only [get?, Option.map_eq_none_iff, List.find?_eq_none] at hget
    exact hget e he (beq_self_eq_true e.1)

end PendingObjects

theorem Heap.Sound.retask {heap : Heap} (hs : heap.Sound) (tasks : Tasks)
    (ht : (tasks.registry.entries.map Prod.fst).Nodup) : ({ heap with tasks } : Heap).Sound :=
  { hs with registered := ht }

theorem Cell.Adjusts.data {a : Arena} {h : Handle} {c : Cell} {p : Payload}
    (hsuits : c.payload.suits c.kind = true → p.suits c.kind = true)
    (hchildren : p.children true = [])
    (hsymbol : ∀ {name value internal lastEnv}, p ≠ .symbol name value internal lastEnv) :
    c.Adjusts a h { c with payload := p } := by
  refine .payload hsuits (fun hp => absurd hp hsymbol) ?_
  intro k hk
  rw [hchildren] at hk
  exact absurd hk List.not_mem_nil

def Payload.relinked (next : Handle) : Payload → Payload
  | .weakRef key value finalizer _ => .weakRef key value finalizer next
  | p => p

def Cell.relinked (next : Handle) (c : Cell) : Cell :=
  match c.payload with
  | .weakRef key value finalizer _ => { c with payload := .weakRef key value finalizer next }
  | _ => c

theorem Cell.relinked_eq (next : Handle) (c : Cell) :
    c.relinked next = { c with payload := c.payload.relinked next } := by
  obtain ⟨header, attrib, payload⟩ := c
  cases payload <;> rfl

/-- A record off the chain, cleared. -/
def Cell.emptied (c : Cell) : Cell :=
  { c.mapFlags fun fs => { fs with readyToFinalize := false, finalizeOnExit := false } with
    payload := .weakRef .nil .nil .nil .nil }

def Payload.foundIn (env : Handle) : Payload → Payload
  | .symbol name value internal _ => .symbol name value internal env
  | p => p

def Cell.foundIn (env : Handle) (c : Cell) : Cell :=
  match c.payload with
  | .symbol name value internal _ => { c with payload := .symbol name value internal env }
  | _ => c

theorem Cell.foundIn_eq (env : Handle) (c : Cell) :
    c.foundIn env = { c with payload := c.payload.foundIn env } := by
  obtain ⟨header, attrib, payload⟩ := c
  cases payload <;> rfl

theorem Payload.suits_relinked (p : Payload) (next : Handle) (kind : Kind) :
    (p.relinked next).suits kind = p.suits kind := by
  cases p
  case weakRef => cases kind <;> rfl
  all_goals rfl

theorem Payload.children_relinked (p : Payload) (next : Handle) (withNames : Bool) :
    (p.relinked next).children withNames = p.children withNames := by
  cases p <;> rfl

theorem Payload.suits_foundIn (p : Payload) (env : Handle) (kind : Kind) :
    (p.foundIn env).suits kind = p.suits kind := by
  cases p
  case symbol => cases kind <;> rfl
  all_goals rfl

theorem Payload.children_foundIn (p : Payload) (env : Handle) (withNames : Bool) :
    (p.foundIn env).children withNames = p.children withNames := by
  cases p <;> rfl

theorem Payload.suits_weakRef {p q : Payload} {kind : Kind} (hp : p.suits kind = true)
    (hrecord : p.suits .weakRef = true) (hq : q.suits .weakRef = true) :
    q.suits kind = true := by
  cases p
  case weakRef => cases kind <;> first | exact hq | exact nomatch hp
  all_goals exact nomatch hrecord

def Heap.RecordAt (heap : Heap) (h : Handle) : Prop :=
  ∃ c, heap.arena.get? h = some c ∧ c.payload.suits .weakRef = true

namespace HeapM

open Arena

variable {α : Type} {heap heap' : Heap} {h value : Handle}

theorem chainFields_record : Triple Heap.Sound (chainFields h)
    fun _ heap => heap.Sound ∧ heap.RecordAt h := by
  intro heap fields heap' hs hrun
  simp only [chainFields, run_bind, run_get, run_lift] at hrun
  obtain ⟨_, _, ⟨rfl, rfl⟩, hfields, rfl⟩ := hrun
  obtain ⟨c, hc, hpayload⟩ := weakFields_eq_ok.mp hfields
  refine ⟨hs, c, hc, ?_⟩
  rw [hpayload]
  rfl

theorem relinked_adjusts {a : Arena} {next : Handle} (c : Cell) :
    c.Adjusts a h (c.relinked next) := by
  rw [Cell.relinked_eq]
  refine .payload ?_ ?_ ?_
  · rw [Payload.suits_relinked]
    exact id
  · intro name value internal lastEnv hq
    left
    cases hp : c.payload <;> simp_all [Payload.relinked]
  · intro k hk
    rw [Payload.children_relinked] at hk
    exact .inl hk

theorem foundIn_adjusts {a : Arena} {env : Handle} (c : Cell) :
    c.Adjusts a h (c.foundIn env) := by
  rw [Cell.foundIn_eq]
  refine .payload ?_ ?_ ?_
  · rw [Payload.suits_foundIn]
    exact id
  · intro name value internal lastEnv hq
    left
    cases hp : c.payload <;> simp_all [Payload.foundIn]
  · intro k hk
    rw [Payload.children_foundIn] at hk
    exact .inl hk

theorem relink_record {next record : Handle} :
    Triple (fun heap => heap.Sound ∧ heap.RecordAt record) (updateCell h (Cell.relinked next))
      fun _ heap => heap.Sound ∧ heap.RecordAt record := by
  rintro heap u heap' ⟨hs, c, hc, hrecord⟩ hrun
  obtain ⟨⟨d, hd⟩, rfl⟩ := run_updateCell.mp hrun
  refine ⟨hs.adjust hd (relinked_adjusts d) (by rw [Cell.relinked_eq]; rfl), ?_⟩
  by_cases hh : record = h
  · subst hh
    refine ⟨c.relinked next, get?_setCell_self hc ?_, ?_⟩
    · rw [Cell.relinked_eq]
      exact (get?_eq_some.mp hc).2
    · rw [Cell.relinked_eq]
      exact (Payload.suits_relinked c.payload next .weakRef).trans hrecord
  · exact ⟨c, (get?_setCell_ne hh).trans hc, hrecord⟩

theorem empty_record :
    Triple (fun heap => heap.Sound ∧ heap.RecordAt h) (updateCell h Cell.emptied)
      fun _ => Heap.Sound := by
  rintro heap u heap' ⟨hs, c, hc, hrecord⟩ hrun
  obtain ⟨-, rfl⟩ := run_updateCell.mp hrun
  have hflags : c.Adjusts heap.arena h (c.mapFlags fun fs =>
      { fs with readyToFinalize := false, finalizeOnExit := false }) :=
    .header rfl rfl rfl rfl rfl rfl rfl rfl id
  have hdata := Cell.Adjusts.data (a := heap.arena) (h := h) (c := c)
    (p := .weakRef .nil .nil .nil .nil) (fun hsuits => Payload.suits_weakRef hsuits hrecord rfl)
    rfl nofun
  refine hs.adjust hc ⟨rfl, rfl, rfl, id, .inl, id, rfl, id, hdata.suits, fun _ => rfl, nofun, ?_⟩ rfl
  intro k hk
  exact hdata.edges k hk

theorem fill_record {key finalizer next : Handle} :
    Triple (fun heap => heap.Sound ∧ heap.RecordAt h)
      (updateCell h fun c => { c with payload := .weakRef key value finalizer next })
      fun _ => Heap.Sound := by
  rintro heap u heap' ⟨hs, c, hc, hrecord⟩ hrun
  obtain ⟨-, rfl⟩ := run_updateCell.mp hrun
  exact hs.adjust hc (.data (fun hsuits => Payload.suits_weakRef hsuits hrecord rfl) rfl nofun) rfl

namespace Safe

theorem unlinkWeakRef {record hint : Handle} : Safe (unlinkWeakRef record hint) := by
  refine Triple.bind chainFields_record fun fields => ?_
  refine .bind (Q := fun _ heap => heap.Sound ∧ heap.RecordAt record)
    (.of_reads .predecessor fun _ _ => id) fun previous => ?_
  refine .bind (Q := fun _ heap => heap.Sound ∧ heap.RecordAt record)
    (.of_reads .flags fun _ _ => id) fun fs => ?_
  have hend : Triple (fun heap => heap.Sound ∧ heap.RecordAt record)
      (clearRecord record fs.readyToFinalize) fun _ => Heap.Sound := by
    refine .bind empty_record fun _ => ?_
    exact modify (fun _ => rfl) (fun _ => rfl) (fun _ => rfl) (fun _ => rfl) fun _ => rfl
  dsimp only
  split
  · exact .bind (.modify fun heap hs => ⟨hs.1.aside rfl rfl rfl rfl rfl, hs.2⟩) fun _ => hend
  · exact .bind relink_record fun _ => hend

theorem findVar {env sym : Handle} : Safe (findVar env sym) := by
  refine bind (of_reads .walkBound) fun fuel => ?_
  induction fuel generalizing env with
  | zero => exact throw
  | succ fuel ih =>
    unfold HeapM.searchEnvironments
    split
    · exact bind (of_reads .symbolValue) fun base => pure
    · refine bind (of_reads .findVarInFrame) fun found => ?_
      cases found with
      | none => exact bind (of_reads .envEnclos) fun outer => ih
      | some value =>
        refine bind (x := HeapM.updateCell sym (Cell.foundIn env)) ?_ fun _ => pure
        refine updateCell fun heap c _ _ => ⟨foundIn_adjusts c, ?_⟩
        rw [Cell.foundIn_eq]
        rfl

theorem unbindFrom {env sym : Handle} (fuel : Nat) (previous cursor : Handle) :
    Safe (unbindFrom env sym previous cursor fuel) := by
  induction fuel generalizing previous cursor with
  | zero => exact throw
  | succ fuel ih =>
    unfold HeapM.unbindFrom
    split
    · exact pure
    · refine bind (of_reads .cdr) fun next => bind (of_reads .tag) fun t => ?_
      have hend : Safe (do
          HeapM.decrementRefCount (← car cursor)
          return true) :=
        bind (of_reads .car) fun old => bind decrementRefCount fun _ => pure
      split
      · split
        · exact bind setFrame fun _ => hend
        · exact bind setCdr fun _ => hend
      · exact ih cursor next

theorem removeVar {env sym : Handle} : Safe (removeVar env sym) :=
  bind (of_reads .envFrame) fun frame => bind (of_reads .walkBound) fun fuel =>
    unbindFrom fuel .nil frame

theorem flagOnExit (records : List Handle) : Safe (flagOnExit records) := by
  induction records with
  | nil => exact pure
  | cons r rs ih =>
    exact bind (updateCell fun _ _ _ _ => ⟨.header rfl rfl rfl rfl rfl rfl rfl rfl id, rfl⟩)
      fun _ => ih

theorem setObjectBit {b : Bool} : Safe (setObjectBit h b) :=
  updateCell fun _ _ _ _ => ⟨.header rfl rfl rfl rfl rfl rfl rfl rfl id, rfl⟩

theorem noteWrite : Safe (noteWrite h) :=
  Triple.conseq noteWrite_open (fun _ => id) fun _ _ hs => hs.1

theorem touch : Safe (touch h) := bind noteWrite fun _ => of_reads .length

theorem awaitOutput : Safe (awaitOutput h) := by
  refine bind get fun heap => ?_
  split
  · refine Triple.modify fun heap hs => ?_
    refine (hs.retask (heap.tasks.awaitOutput h) ?_).aside rfl rfl rfl rfl rfl
    unfold Tasks.awaitOutput
    split
    · exact hs.registered
    · rw [PendingObjects.settleOutputs, PendingObjects.keys_modify]
      exact hs.registered
    · rw [PendingObjects.settleOutputs, PendingObjects.keys_modify]
      exact hs.registered
  · exact pure

theorem task {a : Session.TaskAction} : Safe (Session.task a h) := by
  refine bind (Triple.modify fun heap hs => hs.retask _ ?_) fun _ => bind get fun _ => pure
  cases a
  case beginOutput => exact PendingObjects.keys_upsert hs.registered h _
  case beginInput => exact PendingObjects.keys_upsert hs.registered h _
  case finishOutput => exact (PendingObjects.keys_modify ..).symm ▸ hs.registered
  case finishInput => exact (PendingObjects.keys_modify ..).symm ▸ hs.registered

theorem setScheduler {scheduler : Scheduler} :
    Triple Heap.Sound
      (MonadState.modifyGet fun heap : Heap =>
        (PUnit.unit, { heap with tasks := { heap.tasks with scheduler } }))
      fun _ => Heap.Sound :=
  .modify fun _ hs => hs.retask _ hs.registered

end Safe

theorem payload_spec : Triple Heap.Sound (payload h)
    fun p heap => heap.Sound ∧ ∃ c, heap.arena.get? h = some c ∧ c.payload = p := by
  intro heap p heap' hs hrun
  obtain ⟨c, hc, rfl, rfl⟩ := run_payload.mp hrun
  exact ⟨hs, c, hc, rfl⟩

theorem overwrite_sound {p q : Payload} (hsuits : ∀ kind, p.suits kind = true → q.suits kind = true)
    (hchildren : q.children true = [])
    (hsymbol : ∀ {name value internal lastEnv}, q ≠ .symbol name value internal lastEnv) :
    Triple (fun heap => heap.Sound ∧ ∃ c, heap.arena.get? h = some c ∧ c.payload = p)
      (updateCell h fun c => { c with payload := q }) fun _ => Heap.Sound := by
  rintro heap u heap' ⟨hs, c, hc, rfl⟩ hrun
  obtain ⟨-, rfl⟩ := run_updateCell.mp hrun
  exact hs.adjust hc (.data (hsuits c.kind) hchildren hsymbol) rfl

namespace Safe

theorem touched : Safe (HeapM.updateCell h id) := by
  intro heap u heap' hs hrun
  obtain ⟨-, rfl⟩ := run_updateCell.mp hrun
  rw [setCell_id]
  exact hs

theorem setRealData {values : Array Float} : Safe (setRealData h values) := by
  refine bind touched fun _ => Triple.bind payload_spec fun p => ?_
  cases p
  case real elements =>
    refine .bind (overwrite_sound ?_ rfl nofun) fun _ => pure
    intro k
    cases k <;> exact id
  all_goals exact .throw

theorem setIntegerData {values : Array Int32} : Safe (setIntegerData h values) := by
  refine bind touched fun _ => Triple.bind payload_spec fun p => ?_
  cases p
  case integer elements =>
    refine .bind (overwrite_sound ?_ rfl nofun) fun _ => pure
    intro k
    cases k <;> exact id
  case logical elements =>
    refine .bind (overwrite_sound ?_ rfl nofun) fun _ => pure
    intro k
    cases k <;> exact id
  all_goals exact .throw

theorem setRawData {values : Bytes} : Safe (setRawData h values) := by
  refine bind noteWrite fun _ => Triple.bind payload_spec fun p => ?_
  cases p
  case raw elements =>
    refine .bind (overwrite_sound ?_ rfl nofun) fun _ => pure
    intro k
    cases k <;> exact id
  all_goals exact .pure fun _ hs => hs.1

end Safe

end HeapM

end ManagedHeap
