import ManagedHeap.Proofs.SessionWeakRuns
import ManagedHeap.Proofs.InterningRules

/-!
# Copies and sessions in cache steps

A session keeps to rules if its own commands do and if the commands of all scripts do, which
may be other rules. Only interning, leaving a scope and going on with another heap ask for
anything.
-/

namespace ManagedHeap

namespace HostM

variable {ω : Type} {s : CacheRules} {pins : List Handle} {I : ω → Prop} {host : Host ω}
  {copyOne : Handle → Attempt ω Handle}

theorem copyPairs_byCacheSteps (hhost : host.ByCacheSteps s I) (ha : s.Admits pins)
    (hcopy : ∀ h, Attempt.ByCacheSteps s pins I (copyOne h)) {index : Nat} (fuel : Nat)
    (head tail cursor : Handle) :
    Attempt.ByCacheSteps s pins I (copyPairs host copyOne index head tail cursor fuel) := by
  induction fuel generalizing head tail cursor with
  | zero => exact .throwFault
  | succ fuel ih =>
    refine .bind (.reads .kind) fun k => ?_
    split
    · exact .pure
    · refine .bind (.reads .car) fun car => .bind (hcopy car) fun element =>
        .bind (.reads .kind) fun cellKind => .bind (.reads .tag) fun cellTag => ?_
      refine Attempt.CacheTriple.bind (goes_allocate hhost ha) fun cell =>
        .conseq (P := Heap.Sound) ?_ (fun _ hs => hs.1) fun _ _ => id
      refine Attempt.ByCacheSteps.bind (.lift .setCar .setCar) fun _ =>
        .bind (.lift .setTag .setTag) fun _ => ?_
      have hend : ∀ head, Attempt.ByCacheSteps s pins I (do
          let next ← HeapM.cdr cursor
          copyPairs host copyOne index head cell next fuel) :=
        fun head => .bind (.reads .cdr) fun next => ih head cell next
      split
      · exact .bind (.lift .reprotect .reprotect) fun _ => hend cell
      · exact .bind (.lift .setCdr .setCdr) fun _ => hend head

theorem copyPairlist_byCacheSteps (hhost : host.ByCacheSteps s I) (ha : s.Admits pins)
    (hcopy : ∀ h, Attempt.ByCacheSteps s pins I (copyOne h)) {h : Handle} :
    Attempt.ByCacheSteps s pins I (copyPairlist host copyOne h) := by
  refine .protecting (.bind .pushRoot fun index => .bind (.liftHost .stepBound) fun bound =>
    .bind (copyPairs_byCacheSteps hhost ha hcopy bound .nil .nil h) fun result => ?_)
  obtain ⟨head, tail, rest⟩ := result
  dsimp only
  split
  · exact .bind (hcopy rest) fun last => .bind (.lift .setCdr .setCdr) fun _ => .pure
  · exact .pure

theorem copyElements_byCacheSteps (hcopy : ∀ h, Attempt.ByCacheSteps s pins I (copyOne h)) {h copy : Handle}
    (places : List Nat) : Attempt.ByCacheSteps s pins I (copyElements copyOne h copy places) := by
  induction places with
  | nil => exact .pure
  | cons i rest ih =>
    exact .bind (.attempt (.of_reads .vectorElt) (.of_reads .vectorElt)
        fun _ _ _ => HeapM.plain_vectorElt) fun old => .bind (hcopy old) fun element =>
      .bind (.attempt .setVectorElt .setVectorElt fun _ _ _ => HeapM.plain_setVectorElt) fun _ => ih

theorem copyVector_byCacheSteps (hhost : host.ByCacheSteps s I) (ha : s.Admits pins)
    (hcopy : ∀ h, Attempt.ByCacheSteps s pins I (copyOne h)) {h : Handle} :
    Attempt.ByCacheSteps s pins I (copyVector host copyOne h) := by
  refine .bind (.reads .kind) fun kind => .bind (.reads .length) fun length => .protecting ?_
  refine Attempt.CacheTriple.bind (goes_allocate hhost ha) fun copy =>
    .conseq (P := Heap.Sound) ?_ (fun _ hs => hs.1) fun _ _ => id
  exact Attempt.ByCacheSteps.bind .pushRoot fun _ =>
    .bind (copyElements_byCacheSteps hcopy (List.range length)) fun _ => .pure

theorem copyStrings_byCacheSteps (hhost : host.ByCacheSteps s I) (ha : s.Admits pins) {h : Handle} :
    Attempt.ByCacheSteps s pins I (copyStrings host h) := by
  refine Attempt.CacheTriple.bind (.lift (.of_byCacheSteps HeapM.payload_spec (.of_reads .payload))) fun p => ?_
  cases p
  case handles elements =>
    refine .bind (.lift (.of_byCacheSteps HeapM.kind_suits (.of_reads .kind))) fun kind => ?_
    refine HostM.CacheTriple.of_and fun hsuits => ?_
    refine Attempt.CacheTriple.bind (goes_allocate hhost ha) fun copy => .bind (.lift .countFirst) fun _ =>
      .bind (.lift (.fillCounted ⟨hsuits, nofun, fun k hk => .inl hk⟩)) fun _ => Attempt.ByCacheSteps.pure
  all_goals
    exact .conseq (P := Heap.Sound) (Attempt.ByCacheSteps.reads .wrongKind) (fun _ hs => hs.1)
      fun _ _ => id

theorem goes_copyData (hhost : host.ByCacheSteps s I) (ha : s.Admits pins) {h : Handle} {data : Kind}
    (hdata : data ∈ [.charString, .logicalVector, .integerVector, .realVector, .rawVector]) :
    Attempt.CacheTriple s pins I
      (fun heap => heap.Sound ∧ ∃ c, heap.arena.get? h = some c ∧ c.kind = data)
      (copyData host h) fun _ => Heap.Sound := by
  refine .bind (.lift (.of_byCacheSteps HeapM.payload_suits (.of_reads .payload))) fun p => ?_
  refine HostM.CacheTriple.of_and fun hp => ?_
  refine Attempt.CacheTriple.bind (.lift (.of_byCacheSteps HeapM.kind_suits (.of_reads .kind))) fun kind => ?_
  refine HostM.CacheTriple.of_and fun hsuits => ?_
  have hfits : p.Fits kind [] := Payload.fits_of_data hp hdata hsuits
  exact Attempt.CacheTriple.bind (goes_allocate hhost ha) fun copy => .bind (.lift .setPayload) fun _ =>
    .pure fun heap hfilled => HeapM.countReferences_filled hfits heap ⟨⟩ heap hfilled rfl

theorem copyAttributes_byCacheSteps (hcopy : ∀ h, Attempt.ByCacheSteps s pins I (copyOne h)) {h copy : Handle} :
    Attempt.ByCacheSteps s pins I (copyAttributes copyOne h copy) := by
  refine .bind (.reads .attrib) fun attached => .bind (.reads .flags) fun flags => ?_
  have hend : Attempt.ByCacheSteps s pins I (do
      HeapM.updateCell copy (Cell.mapFlags fun fs =>
        { fs with object := fs.object || flags.object, s4Object := fs.s4Object || flags.s4Object })
      return copy) :=
    .bind (.lift (.updateCell fun _ _ _ _ => ⟨.header rfl rfl rfl rfl rfl rfl rfl rfl id, rfl⟩)
      (.updateCell fun _ => .mapFlags rfl id rfl)) fun _ => .pure
  dsimp only
  split
  · refine .bind (.protecting ?_) fun _ => hend
    exact .bind .pushRoot fun _ => .bind (hcopy attached) fun value => .lift .setAttrib .setAttrib
  · exact hend

theorem copyWithin_byCacheSteps (hhost : host.ByCacheSteps s I) (ha : s.Admits pins) (fuel : Nat) (h : Handle) :
    Attempt.ByCacheSteps s pins I (copyWithin host fuel h) := by
  induction fuel generalizing h with
  | zero => exact .throwFault
  | succ fuel ih =>
    refine Attempt.ByCacheSteps.bind (.lift .awaitOutput .awaitOutput) fun _ =>
      Attempt.CacheTriple.bind (.lift (.of_byCacheSteps HeapM.kind_spec (.of_reads .kind))) fun k => ?_
    have hdata : k ∈ [.charString, .logicalVector, .integerVector, .realVector, .rawVector] →
        Attempt.CacheTriple s pins I
          (fun heap => heap.Sound ∧ ∃ c, heap.arena.get? h = some c ∧ c.kind = k) (do
            copyAttributes (copyWithin host fuel) h (← copyData host h)) fun _ => Heap.Sound :=
      fun hk => .bind (goes_copyData hhost ha hk) fun copy => copyAttributes_byCacheSteps ih
    have hplain : ∀ {act : Attempt ω Handle}, Attempt.ByCacheSteps s pins I act →
        Attempt.CacheTriple s pins I
          (fun heap => heap.Sound ∧ ∃ c, heap.arena.get? h = some c ∧ c.kind = k) act
          fun _ => Heap.Sound :=
      fun hact => .conseq hact (fun _ hs => hs.1) fun _ _ => id
    cases k
    case pair | language =>
      exact hplain (.bind (copyPairlist_byCacheSteps hhost ha ih) fun copy => copyAttributes_byCacheSteps ih)
    case list | expression =>
      exact hplain (.bind (copyVector_byCacheSteps hhost ha ih) fun copy => copyAttributes_byCacheSteps ih)
    case stringVector =>
      exact hplain (.bind (copyStrings_byCacheSteps hhost ha) fun copy => copyAttributes_byCacheSteps ih)
    case charString =>
      refine .bind (.lift (.of_reads .flags fun _ _ => id)) fun flags => ?_
      split
      · exact hplain .pure
      · exact hdata (by simp)
    case logicalVector | integerVector | realVector | rawVector => exact hdata (by simp)
    case closure =>
      refine hplain (.bind (.reads .closureParts) fun parts => ?_)
      obtain ⟨formals, body, env⟩ := parts
      refine .bind (construct_byCacheSteps hhost ha ⟨rfl, nofun, ?_⟩) fun copy => copyAttributes_byCacheSteps ih
      simp [Payload.children]
    all_goals exact hplain .pure

theorem duplicate_byCacheSteps (hhost : host.ByCacheSteps s I) (ha : s.Admits pins) {h : Handle} :
    Attempt.ByCacheSteps s pins I (duplicate host h) :=
  .protecting (.bind .pushRoot fun _ => .bind (.liftHost .stepBound) fun bound =>
    copyWithin_byCacheSteps hhost ha bound h)

theorem duplicateIfShared_byCacheSteps (hhost : host.ByCacheSteps s I) (ha : s.Admits pins) {h : Handle} :
    Attempt.ByCacheSteps s pins I (duplicateIfShared host h) := by
  refine .bind (.reads .mayMutate) fun free => ?_
  split
  · exact .pure
  · exact duplicate_byCacheSteps hhost ha

end HostM

/-- The rules that allow everything. -/
def CacheRules.free : CacheRules := ⟨fun _ _ _ => True, fun _ _ _ => True, True, True⟩

namespace Session

open HostM

def Command.Permitted (s r : CacheRules) : Command → Prop
  | .request (.string bytes encoding) =>
    s.MayCache r bytes (encoding.normalize (bytes.all (· < 128)))
  | .request (.symbol name) =>
    s.MayCache r name ((nameEncoding name).normalize (name.all (· < 128))) ∧ s.MayEnter r name
  | .leaveScope _ => r.cuts
  | .replaceHeap => r.renews ∧ r.cuts
  | _ => True

mutual

/-- The commands of a step are of one kind, and those of the scripts that it sets of another. -/
def Step.Obeys (own scripts : Command → Prop) : Step → Prop
  | .command c _ => own c
  | .scope steps => Obey own scripts steps
  | .times _ steps => Obey own scripts steps
  | .setScript _ steps _ => Obey scripts scripts steps

def Obey (own scripts : Command → Prop) : List Step → Prop
  | [] => True
  | step :: steps => step.Obeys own scripts ∧ Obey own scripts steps

end

/-- The commands of all scripts are of one kind. -/
def State.Obeys (scripts : Command → Prop) (state : State) : Prop :=
  ∀ e ∈ state.scripts, Obey scripts scripts e.2.steps

theorem State.Obeys.script {scripts : Command → Prop} {state : State} (hs : state.Obeys scripts)
    (routine : Nat) : Obey scripts scripts (state.script routine).steps := by
  unfold State.script
  cases hl : state.scripts.lookup routine with
  | none => exact trivial
  | some script =>
    obtain ⟨k, hmem⟩ : ∃ k, (k, script) ∈ state.scripts := by
      obtain ⟨front, back, hsplit, -⟩ := List.lookup_eq_some_iff.mp hl
      exact ⟨routine, hsplit ▸ by simp⟩
    exact hs _ hmem

theorem State.Obeys.assign {scripts : Command → Prop} {state : State} {routine : Nat}
    {script : Script} (hs : state.Obeys scripts) (hscript : Obey scripts scripts script.steps) :
    ({ state with scripts := Session.assign state.scripts routine script } : State).Obeys scripts := by
  intro e he
  rcases List.mem_cons.mp he with rfl | he
  · exact hscript
  · exact hs e (List.mem_of_mem_filter he)

def Replied (reply : Reply) (heap : Heap) : Prop :=
  heap.Sound ∧ ∀ e, reply = .error e → heap.NonePendingBefore e

variable {s r : CacheRules} {pins : List Handle} {I : State → Prop} {host : Host State}

theorem Replied.of_plain {reply : Reply} {heap : Heap} (hs : heap.Sound)
    (hplain : ∀ e, reply = .error e → e.Plain) : Replied reply heap :=
  ⟨hs, fun e he => .of_ne (hplain e he)⟩

theorem Replied.of_isError {reply : Reply} {heap : Heap} (hs : heap.Sound)
    (hreply : reply.isError = false) : Replied reply heap :=
  ⟨hs, fun _ he => nomatch he ▸ hreply⟩

theorem goes_value {P : Heap → Prop} (o : Operand) : CacheTriple r pins I P (value o) fun _ => P := by
  cases o with
  | handle h => exact .pure fun _ => id
  | register name => exact .bind (.getState fun _ _ _ => id) fun _ => .pure fun _ => id

theorem goes_mapM {P : Heap → Prop} {α β : Type} {f : α → SessionM β}
    (hf : ∀ a, CacheTriple r pins I P (f a) fun _ => P) (as : List α) :
    CacheTriple r pins I P (as.mapM f) fun _ => P := by
  induction as with
  | nil => exact .pure fun _ => id
  | cons a as ih =>
    rw [List.mapM_cons]
    exact .bind (hf a) fun b => .bind ih fun bs => .pure fun _ => id

theorem goes_values {P : Heap → Prop} (os : List Operand) : CacheTriple r pins I P (values os) fun _ => P :=
  goes_mapM goes_value os

theorem goes_fieldValues {P : Heap → Prop} (fields : List (ContextField × Operand)) :
    CacheTriple r pins I P (fieldValues fields) fun _ => P := by
  unfold fieldValues
  exact goes_mapM (fun f => .bind (goes_value f.2) fun _ => .pure fun _ => id) fields

theorem request_byCacheSteps (hhost : host.ByCacheSteps s I) (hw : s.Within r) (ha : s.Admits pins)
    {q : Request} (hq : (Command.request q).Permitted s r) :
    Attempt.ByCacheSteps r pins I (request host q) := by
  have hvalue : ∀ o, Attempt.ByCacheSteps r pins I (liftM (value o) : Attempt State Handle) :=
    fun o => .liftHost (goes_value o)
  have hvalues : ∀ os, Attempt.ByCacheSteps r pins I (liftM (values os) : Attempt State (List Handle)) :=
    fun os => .liftHost (goes_values os)
  cases q with
  | allocate kind length roots =>
    exact .bind (hvalues roots) fun roots =>
      ((goes_allocate hhost ha).mono hw).conseq (fun _ => id) fun _ _ hs => hs.1
  | cons car cdr =>
    exact .bind (hvalue car) fun car => .bind (hvalue cdr) fun cdr =>
      .mono hw (construct_byCacheSteps hhost ha ⟨rfl, by simp, by simp [Payload.children]⟩)
  | lcons car cdr =>
    exact .bind (hvalue car) fun car => .bind (hvalue cdr) fun cdr =>
      .mono hw (construct_byCacheSteps hhost ha ⟨rfl, by simp, by simp [Payload.children]⟩)
  | closure formals body env =>
    exact .bind (hvalue formals) fun formals => .bind (hvalue body) fun body =>
      .bind (hvalue env) fun env =>
      .mono hw (construct_byCacheSteps hhost ha ⟨rfl, by simp, by simp [Payload.children]⟩)
  | environment names vals parent =>
    exact .bind (hvalues names) fun names => .bind (hvalues vals) fun vals =>
      .bind (hvalue parent) fun parent => .mono hw (makeEnvironment_byCacheSteps hhost ha)
  | promise expr env =>
    refine .bind (hvalue expr) fun expr => .bind (hvalue env) fun env =>
      .mono hw (construct_byCacheSteps hhost ha ⟨rfl, by simp, ?_⟩)
    simp [Payload.children]
  | externalPtr address tag inner =>
    exact .bind (hvalue tag) fun tag => .bind (hvalue inner) fun inner =>
      .mono hw (construct_byCacheSteps hhost ha ⟨rfl, by simp, by simp [Payload.children]⟩)
  | byteCode code consts =>
    exact .bind (hvalue code) fun code => .bind (hvalue consts) fun consts =>
      .mono hw (construct_byCacheSteps hhost ha ⟨rfl, by simp, by simp [Payload.children]⟩)
  | nativeFunction routine => exact .mono hw (makeNativeFunction_byCacheSteps hhost ha)
  | string bytes encoding =>
    exact (goes_internString hhost hw ha hq).conseq (fun _ => id) fun _ _ hs => hs.1
  | symbol name =>
    exact (goes_internSymbol hhost hw ha hq.1 hq.2).conseq (fun _ => id) fun _ _ hs => hs.1
  | duplicate h => exact .bind (hvalue h) fun h => .mono hw (duplicate_byCacheSteps hhost ha)
  | duplicateIfShared h =>
    exact .bind (hvalue h) fun h => .mono hw (duplicateIfShared_byCacheSteps hhost ha)
  | weakRef key val finalizer onExit =>
    exact .bind (hvalue key) fun key => .bind (hvalue val) fun val =>
      .bind (hvalue finalizer) fun finalizer => .mono hw (makeWeakRef_byCacheSteps hhost ha)
  | nativeFinalizer key routine onExit =>
    exact .bind (hvalue key) fun key => .mono hw (registerFinalizer_byCacheSteps hhost ha)
  | closureFinalizer key closure onExit =>
    exact .bind (hvalue key) fun key => .bind (hvalue closure) fun closure =>
      .mono hw (registerFinalizer_byCacheSteps hhost ha)

theorem State.Obeys.congr {scripts : Command → Prop} {state state' : State}
    (hs : state.Obeys scripts) (hsame : state'.scripts = state.scripts) : state'.Obeys scripts := by
  rw [State.Obeys, hsame]
  exact hs

theorem plain_ask {q : Query} {h : Handle} {heap heap' : Heap} {reply : Reply}
    (hrun : (ask q h).run heap = .ok (reply, heap')) : ∀ e, reply = .error e → e.Plain := by
  rintro e rfl
  cases q
  case weakRefKey | weakRefValue =>
    simp only [ask, HeapM.weakRefKey, HeapM.weakRefValue, run_bind, run_pure] at hrun
    obtain ⟨result, _, ⟨fields, _, hfields, hresult, -⟩, hreply, -⟩ := hrun
    cases fields with
    | ok f =>
      rw [← hresult] at hreply
      exact nomatch hreply
    | error e' =>
      rw [← hresult] at hreply
      obtain rfl := Reply.error.inj hreply
      exact HeapM.plain_weakFields hfields
  all_goals
    simp only [ask, run_bind, run_pure, run_get] at hrun
    obtain ⟨_, _, -, hreply, -⟩ := hrun
    exact nomatch hreply

theorem report_replies {q : Report} {heap heap' : Heap} {reply : Reply}
    (hrun : (report q).run heap = .ok (reply, heap')) : reply.isError = false := by
  obtain ⟨now, _, -, hrest⟩ := run_bind.mp hrun
  cases q
  case stats | hasPendingFinalizers | pendingFinalizerCount =>
    obtain ⟨_, _, -, hreply⟩ := run_bind.mp hrest
    obtain ⟨rfl, -⟩ := run_pure.mp hreply
    rfl
  case lastCollection =>
    dsimp only at hrest
    split at hrest <;> obtain ⟨rfl, -⟩ := run_pure.mp hrest <;> rfl
  all_goals
    obtain ⟨rfl, -⟩ := run_pure.mp hrest
    rfl

theorem set_byCacheSteps (q : Setter) (h v : Handle) : HeapM.ByCacheSteps r pins (set q h v) := by
  cases q
  case car => exact .setCar
  case cdr => exact .setCdr
  case tag => exact .setTag
  case attrib => exact .setAttrib
  case promiseValue => exact .setPromiseValue
  case symbolValue => exact .setSymbolValue

theorem Replied.of_byCacheSteps {α : Type} {x : SessionM α} {f : α → Reply} (hx : ByCacheSteps r pins I x)
    (hf : ∀ a, (f a).isError = false) : CacheTriple r pins I Heap.Sound (do return f (← x)) Replied :=
  .bind hx fun a => .pure fun _ hs => .of_isError hs (hf a)

theorem Replied.of_attempt {α : Type} {x : HeapM (Except HeapError α)} {f : α → Reply}
    (hsafe : x.Safe) (hbyCacheSteps : x.ByCacheSteps r pins)
    (hplain : ∀ heap e heap', x.run heap = .ok (.error e, heap') → e.Plain)
    (hf : ∀ a, (f a).isError = false) :
    CacheTriple r pins I Heap.Sound (do return .ofExcept f (← (liftM x : SessionM _))) Replied := by
  refine .bind (Q := fun result heap => heap.Sound ∧ ∀ e, result = .error e → e.Plain) (.lift ?_)
    fun result => .pure fun heap hs => ?_
  · intro heap result heap' _ hs hrun
    exact ⟨hbyCacheSteps _ _ _ hrun, hsafe _ _ _ hs hrun, fun e he => hplain _ _ _ (he ▸ hrun)⟩
  · cases result with
    | ok a => exact .of_isError hs.1 (hf a)
    | error e => exact .of_plain hs.1 fun e' he' => Reply.error.inj he' ▸ hs.2 e rfl

theorem Replied.of_request {α : Type} {x : Attempt State α} {f : α → Reply}
    (hx : Attempt.ByCacheSteps r pins I x) (hf : ∀ a, (f a).isError = false) :
    CacheTriple r pins I Heap.Sound (do return .ofExcept f (← x.run)) Replied := by
  refine .bind hx.run fun result => .pure fun heap hs => ?_
  cases result with
  | ok a => exact .of_isError hs (hf a)
  | error e => exact ⟨hs.1, fun e' he' => Reply.error.inj he' ▸ hs.2⟩

theorem replaceHeap_byCacheSteps (hhost : host.ByCacheSteps s I) (hw : s.Within r) (ha : r.Admits pins)
    (hrenews : r.renews) (hcuts : r.cuts) : ByCacheSteps r pins I (replaceHeap host) := by
  intro state heap u state' heap' hI hg hs hrun
  obtain ⟨ran, between, mid, hexit, hnext⟩ := run_bindM.mp hrun
  obtain ⟨hI', hmoves, hmid⟩ := (ByCacheSteps.runExitFinalizers hhost (hw.admits ha)).mono hw _ _ _ _ _
    hI hg hs hexit
  obtain ⟨old, between', _, hold, hbuild⟩ := run_bindM.mp hnext
  obtain ⟨rfl, hget⟩ := run_liftM.mp hold
  obtain ⟨rfl, rfl⟩ := run_get.mp hget
  obtain ⟨fresh, between'', _, hfresh, hset⟩ := run_bindM.mp hbuild
  obtain ⟨hbuilt, rfl, rfl⟩ := run_liftExcept hfresh
  obtain ⟨hpair, rfl⟩ := run_pure.mp hset
  obtain ⟨rfl, rfl⟩ := Prod.mk.inj hpair
  refine ⟨hI', hmoves.tail (.renew hrenews (ha hcuts) (Config.valid_of_ok rfl) hbuilt), ?_⟩
  exact replaceHeap_safe hhost.safe _ _ _ _ hs hrun

variable {scripts : Command → Prop}

theorem modifyState_byCacheSteps {f : State → State} (hf : ∀ state, (f state).scripts = state.scripts) :
    ByCacheSteps r pins (State.Obeys scripts) (modifyThe State f : SessionM PUnit) :=
  .modifyState fun state hs => hs.congr (hf state)

theorem value_byCacheSteps (o : Operand) : ByCacheSteps r pins I (value o) := goes_value o

theorem getState_byCacheSteps : ByCacheSteps r pins I (getThe State : SessionM State) :=
  CacheTriple.getState fun _ _ _ => id

theorem modifyRoots_byCacheSteps {f : RootSet → RootSet} (hf : ∀ r, (f r).transient = r.transient) :
    ByCacheSteps r pins I (liftM (HeapM.modifyRoots f) : SessionM PUnit) := .lift .modifyRoots (.modifyRoots hf)

theorem goes_setRoots {old : Heap} {roots : RootSet}
    (hsame : roots.transient = old.roots.transient) :
    CacheTriple r pins I (fun heap => heap.Sound ∧ old.roots.transient = heap.roots.transient)
      (liftM (HeapM.modifyRoots fun _ => roots) : SessionM PUnit) fun _ => Heap.Sound := by
  refine .lift ?_
  rintro heap u heap' - ⟨hs, hkept⟩ hrun
  refine ⟨.single ?_, HeapM.Safe.modifyRoots _ _ _ hs hrun⟩
  obtain rfl := run_modify.mp hrun
  refine .aside ⟨fun _ => rfl, rfl, rfl, rfl, List.prefix_refl _⟩ fun hpins => ?_
  rwa [Heap.PinsAll, Heap.pinned, hsame, hkept]

theorem goes_getRoots : CacheTriple r pins I Heap.Sound (getThe Heap : SessionM Heap)
    fun old heap => heap.Sound ∧ old.roots.transient = heap.roots.transient :=
  .getHeap fun _ hs => ⟨hs, rfl⟩

theorem aside_byCacheSteps {f : Heap → Heap}
    (hf : ∀ heap, ∃ evaluator journal, f heap = { heap with evaluator, journal } ∧
      journal.history = heap.journal.history) :
    ByCacheSteps r pins I (modifyThe Heap f : SessionM PUnit) := by
  have hsame : ∀ heap, (f heap).config = heap.config ∧ (f heap).arena = heap.arena ∧
      (f heap).strings = heap.strings ∧ (f heap).remembered = heap.remembered ∧
      (f heap).tasks = heap.tasks ∧ (f heap).symbols = heap.symbols ∧
      (f heap).roots = heap.roots ∧ (f heap).history = heap.history := by
    intro heap
    obtain ⟨evaluator, journal, hrest, hhistory⟩ := hf heap
    rw [hrest]
    exact ⟨rfl, rfl, rfl, rfl, rfl, rfl, rfl, congrArg Array.toList hhistory⟩
  exact .modifyHeap (fun heap => (hsame heap).1) (fun heap => (hsame heap).2.1)
    (fun heap => (hsame heap).2.2.1) (fun heap => (hsame heap).2.2.2.1)
    (fun heap => (hsame heap).2.2.2.2.1) (fun heap => (hsame heap).2.2.2.2.2.1)
    (fun heap => congrArg RootSet.transient (hsame heap).2.2.2.2.2.2.1)
    fun heap => (hsame heap).2.2.2.2.2.2.2

theorem contextReply_isError (context : Option EvalContext) :
    (contextReply context).isError = false := by
  cases context <;> rfl

theorem perform_goes (hhost : host.ByCacheSteps s (State.Obeys scripts)) (hw : s.Within r)
    (ha : r.Admits pins) {c : Command} (hc : c.Permitted s r) :
    CacheTriple r pins (State.Obeys scripts) Heap.Sound (perform host c) Replied := by
  have hs := hw.admits ha
  have hend : ∀ {reply : Reply}, reply.isError = false →
      CacheTriple r pins (State.Obeys scripts) Heap.Sound (pure reply : SessionM Reply) Replied :=
    fun hreply => .pure fun _ hs => .of_isError hs hreply
  cases c
  case request q => exact Replied.of_request (request_byCacheSteps hhost hw hs hc) fun _ => rfl
  case allocateFast kind length =>
    exact .bind (.lift HeapM.CacheTriple.allocateFast) fun _ => .pure fun _ h => .of_isError h.1 rfl
  case ask q h =>
    refine .bind (value_byCacheSteps h) fun h => .lift ?_
    exact fun heap reply heap' _ hs hrun => ⟨HeapM.ByCacheSteps.of_reads .ask _ _ _ hrun,
      .of_plain (HeapM.Safe.of_reads .ask _ _ _ hs hrun) (plain_ask hrun)⟩
  case report q =>
    refine .lift ?_
    exact fun heap reply heap' _ hs hrun => ⟨HeapM.ByCacheSteps.of_reads .report _ _ _ hrun,
      .of_isError (HeapM.Safe.of_reads .report _ _ _ hs hrun) (report_replies hrun)⟩
  case vectorElt h index =>
    exact .bind (value_byCacheSteps h) fun h => Replied.of_attempt (.of_reads .vectorElt) (.of_reads .vectorElt)
      (fun _ _ _ => HeapM.plain_vectorElt) fun _ => rfl
  case set q h v =>
    exact .bind (value_byCacheSteps h) fun h => .bind (value_byCacheSteps v) fun v =>
      .bind (ByCacheSteps.lift (set_safe q h v) (set_byCacheSteps q h v)) fun _ => hend rfl
  case setVectorElt h index v =>
    exact .bind (value_byCacheSteps h) fun h => .bind (value_byCacheSteps v) fun v =>
      Replied.of_attempt .setVectorElt .setVectorElt (fun _ _ _ => HeapM.plain_setVectorElt) fun _ => rfl
  case setObjectBit h b =>
    exact .bind (value_byCacheSteps h) fun h => .bind (ByCacheSteps.lift .setObjectBit .setObjectBit) fun _ =>
      hend rfl
  case touch h =>
    exact .bind (value_byCacheSteps h) fun h => .bind (ByCacheSteps.lift .touch .touch) fun _ => hend rfl
  case setReal h vs =>
    exact .bind (value_byCacheSteps h) fun h => .bind (ByCacheSteps.lift .setRealData .setRealData) fun _ =>
      hend rfl
  case setInteger h vs =>
    exact .bind (value_byCacheSteps h) fun h => .bind (ByCacheSteps.lift .setIntegerData .setIntegerData)
      fun _ => hend rfl
  case setRaw h vs =>
    refine .bind (value_byCacheSteps h) fun h => .bind (ByCacheSteps.lift .setRawData .setRawData)
      fun written => hend ?_
    cases written <;> rfl
  case incrementRefCount h =>
    exact .bind (value_byCacheSteps h) fun h =>
      .bind (ByCacheSteps.lift .incrementRefCount .incrementRefCount) fun _ => hend rfl
  case decrementRefCount h =>
    exact .bind (value_byCacheSteps h) fun h =>
      .bind (ByCacheSteps.lift .decrementRefCount .decrementRefCount) fun _ => hend rfl
  case defineVar env sym v =>
    refine .bind (value_byCacheSteps env) fun env => .bind (value_byCacheSteps sym) fun sym =>
      .bind (value_byCacheSteps v) fun v => ?_
    exact Replied.of_request (.mono hw (defineVar_byCacheSteps hhost hs)) fun _ => rfl
  case findVar env sym =>
    refine .bind (value_byCacheSteps env) fun env => .bind (value_byCacheSteps sym) fun sym =>
      .bind (ByCacheSteps.lift .findVar .findVar) fun found => hend ?_
    cases found <;> rfl
  case findVarInFrame env sym =>
    refine .bind (value_byCacheSteps env) fun env => .bind (value_byCacheSteps sym) fun sym =>
      .bind (ByCacheSteps.reads .findVarInFrame) fun found => hend ?_
    cases found <;> rfl
  case removeVar env sym =>
    exact .bind (value_byCacheSteps env) fun env => .bind (value_byCacheSteps sym) fun sym =>
      .bind (ByCacheSteps.lift .removeVar .removeVar) fun _ => hend rfl
  case pushRoot h =>
    exact .bind (value_byCacheSteps h) fun h => Replied.of_attempt .pushRoot .pushRoot
      (fun _ _ _ => HeapM.plain_pushRoot) fun _ => rfl
  case pushRootWithIndex h slot =>
    refine .bind (value_byCacheSteps h) fun h => .bind (Q := fun result heap => heap.Sound ∧
      ∀ e, result = .error e → e.Plain) (.lift ?_) fun result => ?_
    · intro heap result heap' _ hs hrun
      exact ⟨HeapM.ByCacheSteps.pushRoot _ _ _ hrun, HeapM.Safe.pushRoot _ _ _ hs hrun,
        fun e he => HeapM.plain_pushRoot (he ▸ hrun)⟩
    · cases result with
      | ok index =>
        refine .bind (Q := fun _ => Heap.Sound) ?_ fun _ => hend rfl
        exact CacheTriple.conseq (modifyState_byCacheSteps fun _ => rfl) (fun heap h => h.1) fun _ _ => id
      | error e =>
        exact .pure fun heap h => .of_plain h.1 fun e' he' => Reply.error.inj he' ▸ h.2 e rfl
  case reprotect h slot =>
    refine .bind getState_byCacheSteps fun state => ?_
    cases state.protectSlots.lookup slot with
    | none => exact hend rfl
    | some index =>
      exact .bind (value_byCacheSteps h) fun h => .bind (ByCacheSteps.lift .reprotect .reprotect) fun _ =>
        hend rfl
  case popRoots n =>
    exact .bind (ByCacheSteps.lift .popRoots .popRoots) fun _ => .bind (ByCacheSteps.reads .protectDepth)
      fun _ => hend rfl
  case preserve h =>
    exact .bind (value_byCacheSteps h) fun h => .bind (modifyRoots_byCacheSteps fun _ => rfl) fun _ => hend rfl
  case release h =>
    refine CacheTriple.bind goes_getRoots fun heap => .bind (goes_value h) fun h => ?_
    cases hroots : heap.roots.release? h with
    | none => exact .pure fun _ h => .of_isError h.1 rfl
    | some roots =>
      exact .bind (goes_setRoots (RootSet.transient_release? hroots)) fun _ => hend rfl
  case beginContext fields =>
    exact .bind (goes_fieldValues fields) fun fields => .bind (modifyRoots_byCacheSteps fun _ => rfl)
      fun _ => .bind ByCacheSteps.getHeap fun _ => hend rfl
  case setContext fields =>
    exact .bind (goes_fieldValues fields) fun fields => .bind (modifyRoots_byCacheSteps fun _ => rfl)
      fun _ => .bind ByCacheSteps.getHeap fun heap => hend (contextReply_isError _)
  case endContext =>
    exact CacheTriple.bind goes_getRoots fun heap => .bind (goes_setRoots rfl) fun _ =>
      hend (contextReply_isError _)
  case byteCodePush h =>
    exact .bind (value_byCacheSteps h) fun h => .bind (modifyRoots_byCacheSteps fun _ => rfl) fun _ =>
      .bind ByCacheSteps.getHeap fun _ => hend rfl
  case byteCodePop n =>
    exact .bind (modifyRoots_byCacheSteps fun _ => rfl) fun _ => .bind ByCacheSteps.getHeap fun _ => hend rfl
  case setHandlerStack h =>
    exact .bind (value_byCacheSteps h) fun h => .bind (modifyRoots_byCacheSteps fun _ => rfl) fun _ => hend rfl
  case setRestartStack h =>
    exact .bind (value_byCacheSteps h) fun h => .bind (modifyRoots_byCacheSteps fun _ => rfl) fun _ => hend rfl
  case addRootSource hs =>
    exact CacheTriple.bind goes_getRoots fun heap => .bind (goes_values hs) fun hs =>
      .bind (goes_setRoots rfl) fun _ => .bind getState_byCacheSteps fun state =>
      .bind (modifyState_byCacheSteps fun _ => rfl) fun _ => hend rfl
  case setRootSource number hs =>
    refine .bind (goes_values hs) fun hs => .bind getState_byCacheSteps fun state => ?_
    cases state.currentSource? number with
    | none => exact hend rfl
    | some id => exact .bind (modifyRoots_byCacheSteps fun _ => rfl) fun _ => hend rfl
  case removeRootSource number =>
    refine .bind getState_byCacheSteps fun state => ?_
    cases state.sources[number]? with
    | none => exact hend rfl
    | some id =>
      refine CacheTriple.bind goes_getRoots fun heap => ?_
      cases hroots : heap.roots.removeSource? id with
      | none => exact .pure fun _ h => .of_isError h.1 rfl
      | some roots =>
        exact .bind (goes_setRoots (RootSet.transient_removeSource? hroots)) fun _ => hend rfl
  case runPendingFinalizers =>
    exact Replied.of_byCacheSteps (.mono hw (ByCacheSteps.runPendingFinalizers hhost hs)) fun _ => rfl
  case runExitFinalizers =>
    exact Replied.of_byCacheSteps (.mono hw (ByCacheSteps.runExitFinalizers hhost hs)) fun _ => rfl
  case enterScope name =>
    exact .bind (ByCacheSteps.reads .enterRecovery) fun scope =>
      .bind (modifyState_byCacheSteps fun _ => rfl) fun _ => hend rfl
  case leaveScope name =>
    refine .bind getState_byCacheSteps fun state => ?_
    cases state.scopes.lookup name with
    | none => exact hend rfl
    | some scope =>
      obtain rfl : pins = [] := ha hc
      exact Replied.of_byCacheSteps (.lift .leaveRecovery (.leaveRecovery (Nat.zero_le _))) fun _ => rfl
  case setEvaluator name routine =>
    exact .bind (aside_byCacheSteps fun _ => ⟨_, _, rfl, rfl⟩) fun _ => hend rfl
  case collect level =>
    exact Replied.of_byCacheSteps (.mono hw (ByCacheSteps.requestCollection hhost hs level)) fun _ => rfl
  case observe => exact .bind (aside_byCacheSteps fun _ => ⟨_, _, rfl, rfl⟩) fun _ => hend rfl
  case stopObserving => exact .bind (aside_byCacheSteps fun _ => ⟨_, _, rfl, rfl⟩) fun _ => hend rfl
  case freed =>
    exact .bind ByCacheSteps.getHeap fun heap => .bind (aside_byCacheSteps fun _ => ⟨_, _, rfl, rfl⟩) fun _ => hend rfl
  case log =>
    exact .bind ByCacheSteps.getHeap fun heap => .bind (aside_byCacheSteps fun _ => ⟨_, _, rfl, rfl⟩) fun _ => hend rfl
  case runs =>
    exact .bind getState_byCacheSteps fun state => .bind (modifyState_byCacheSteps fun _ => rfl) fun _ => hend rfl
  case setScheduler scheduler =>
    exact .bind (ByCacheSteps.lift .setScheduler .setScheduler) fun _ => hend rfl
  case task a h =>
    refine .bind (value_byCacheSteps h) fun h => .lift ?_
    intro heap reply heap' _ hs hrun
    refine ⟨HeapM.ByCacheSteps.task _ _ _ hrun, .of_isError (HeapM.Safe.task _ _ _ hs hrun) ?_⟩
    simp only [task, run_bind, run_pure] at hrun
    obtain ⟨_, _, -, _, _, -, rfl, -⟩ := hrun
    rfl
  case move h => exact .bind (value_byCacheSteps h) fun h => hend rfl
  case replaceHeap => exact .bind (replaceHeap_byCacheSteps hhost hw ha hc.1 hc.2) fun _ => hend rfl

theorem repeatRounds_byCacheSteps {round : SessionM (Option Reply)} (hround : ByCacheSteps r pins I round)
    (n : Nat) (completed : Nat) (last : Option Reply) :
    ByCacheSteps r pins I (repeatRounds round completed last n) := by
  induction n generalizing completed last with
  | zero => exact .pure
  | succ n ih =>
    refine .bind hround fun reply => ?_
    split
    · exact .pure
    · exact ih _ _

mutual

theorem runStep_byCacheSteps (hhost : host.ByCacheSteps s (State.Obeys (Command.Permitted s s))) (hw : s.Within r)
    (ha : r.Admits pins) :
    ∀ {step : Step}, step.Obeys (Command.Permitted s r) (Command.Permitted s s) →
      ByCacheSteps r pins (State.Obeys (Command.Permitted s s)) (runStep host step)
  | .command c store, hstep => by
    rw [runStep]
    rw [Step.Obeys] at hstep
    refine .bind ((perform_goes hhost hw ha hstep).conseq (fun _ => id) fun _ _ h => h.1)
      fun reply => ?_
    cases store with
    | none => exact .pure
    | some name =>
      cases reply.handle? with
      | none => exact .pure
      | some h => exact .bind (modifyState_byCacheSteps fun _ => rfl) fun _ => .pure
  | .scope steps, hstep => by
    rw [runStep]
    rw [Step.Obeys] at hstep
    exact .bind (.reads .protectDepth) fun base => .bind (runSteps_byCacheSteps hhost hw ha hstep)
      fun replies => .bind (.lift .closeScope .closeScope) fun _ => .bind (.reads .protectDepth)
      fun _ => .pure
  | .times n steps, hstep => by
    rw [runStep]
    rw [Step.Obeys] at hstep
    exact repeatRounds_byCacheSteps (runRound_byCacheSteps hhost hw ha hstep) n 0 none
  | .setScript routine steps ending, hstep => by
    rw [runStep]
    rw [Step.Obeys] at hstep
    exact .bind (.modifyState fun _ hs => hs.assign hstep) fun _ => .pure

theorem runSteps_byCacheSteps (hhost : host.ByCacheSteps s (State.Obeys (Command.Permitted s s))) (hw : s.Within r)
    (ha : r.Admits pins) :
    ∀ {steps : List Step}, Obey (Command.Permitted s r) (Command.Permitted s s) steps →
      ByCacheSteps r pins (State.Obeys (Command.Permitted s s)) (runSteps host steps)
  | [], _ => by
    rw [runSteps]
    exact .pure
  | step :: steps, hsteps => by
    rw [runSteps]
    rw [Obey] at hsteps
    exact .bind (runStep_byCacheSteps hhost hw ha hsteps.1) fun reply =>
      .bind (runSteps_byCacheSteps hhost hw ha hsteps.2) fun replies => .pure

theorem runRound_byCacheSteps (hhost : host.ByCacheSteps s (State.Obeys (Command.Permitted s s))) (hw : s.Within r)
    (ha : r.Admits pins) :
    ∀ {steps : List Step}, Obey (Command.Permitted s r) (Command.Permitted s s) steps →
      ByCacheSteps r pins (State.Obeys (Command.Permitted s s)) (runRound host steps)
  | [], _ => by
    rw [runRound]
    exact .pure
  | step :: steps, hsteps => by
    rw [runRound]
    rw [Obey] at hsteps
    refine .bind (runStep_byCacheSteps hhost hw ha hsteps.1) fun reply => ?_
    split
    · exact .pure
    · exact .bind (runRound_byCacheSteps hhost hw ha hsteps.2) fun last => .pure

end

theorem runScript_byCacheSteps (hhost : host.ByCacheSteps s (State.Obeys (Command.Permitted s s)))
    (ha : s.Admits pins) (caller : Caller) (routine : Nat) (key : Handle) :
    ByCacheSteps s pins (State.Obeys (Command.Permitted s s)) (runScript host caller routine key) := by
  refine CacheTriple.bind (Q := fun state heap => heap.Sound ∧ state.Obeys (Command.Permitted s s))
    (.getState fun _ _ hstate hs => ⟨hs, hstate⟩) fun state => .of_and fun hstate => ?_
  refine ByCacheSteps.bind (.reads .isLive) fun live => .bind getState_byCacheSteps fun before =>
    .bind (modifyState_byCacheSteps fun _ => rfl) fun _ =>
    .bind (runSteps_byCacheSteps hhost (.refl s) ha (hstate.script routine)) fun replies =>
    .bind (modifyState_byCacheSteps fun _ => rfl) fun _ => ?_
  cases (state.script routine).ending <;> exact .pure

theorem hostWithin_byCacheSteps (levels : Nat) :
    (hostWithin levels).ByCacheSteps s (State.Obeys (Command.Permitted s s)) := by
  induction levels with
  | zero => exact ⟨hostWithin_safe 0, fun _ _ _ => .throw, fun _ _ _ _ => .throw⟩
  | succ levels ih =>
    exact ⟨hostWithin_safe (levels + 1),
      fun ha routine key => runScript_byCacheSteps ih ha _ routine key,
      fun ha evaluator _ key => runScript_byCacheSteps ih ha _ evaluator.routine key⟩

theorem runStep_command {c : Command} {store : Option String} {reply : Reply}
    {state state' : State} {heap heap' : Heap}
    (hrun : ((runStep host (.command c store)).run state).run heap = .ok ((reply, state'), heap')) :
    ∃ between, ((perform host c).run state).run heap = .ok ((reply, between), heap') := by
  rw [runStep] at hrun
  obtain ⟨r, between, mid, hperform, hrest⟩ := run_bindM.mp hrun
  suffices hend : reply = r ∧ heap' = mid by
    obtain ⟨rfl, rfl⟩ := hend
    exact ⟨between, hperform⟩
  have hpure : ∀ {now : State}, ((pure r : SessionM Reply).run now).run mid =
      .ok ((reply, state'), heap') → reply = r ∧ heap' = mid := by
    intro now hlast
    obtain ⟨hsame, rfl⟩ := run_pure.mp hlast
    exact ⟨(Prod.mk.inj hsame).1.symm, rfl⟩
  cases store with
  | none => exact hpure hrest
  | some name =>
    cases hhandle : r.handle? with
    | none =>
      simp only [hhandle] at hrest
      exact hpure hrest
    | some h =>
      simp only [hhandle] at hrest
      obtain ⟨_, _, _, hset, hlast⟩ := run_bindM.mp hrest
      obtain ⟨-, rfl⟩ := run_pure.mp hset
      exact hpure hlast

theorem Command.permitted_free (c : Command) : c.Permitted .free .free := by
  cases c with
  | request q =>
    cases q with
    | string bytes encoding => exact fun _ _ _ => trivial
    | symbol name => exact ⟨fun _ _ _ => trivial, fun _ _ _ _ => trivial⟩
    | _ => exact trivial
  | leaveScope name => exact trivial
  | replaceHeap => exact ⟨trivial, trivial⟩
  | _ => exact trivial

mutual

theorem Step.obeys_of_all {own scripts : Command → Prop} (ho : ∀ c, own c) (hs : ∀ c, scripts c) :
    ∀ step : Step, step.Obeys own scripts
  | .command c store => by
    rw [Step.Obeys]
    exact ho c
  | .scope steps => by
    rw [Step.Obeys]
    exact obey_of_all ho hs steps
  | .times n steps => by
    rw [Step.Obeys]
    exact obey_of_all ho hs steps
  | .setScript routine steps ending => by
    rw [Step.Obeys]
    exact obey_of_all hs hs steps

theorem obey_of_all {own scripts : Command → Prop} (ho : ∀ c, own c) (hs : ∀ c, scripts c) :
    ∀ steps : List Step, Obey own scripts steps
  | [] => by
    rw [Obey]
    exact trivial
  | step :: steps => by
    rw [Obey]
    exact ⟨Step.obeys_of_all ho hs step, obey_of_all ho hs steps⟩

end

/-- Cache steps lead from a new heap to every heap that a session reaches. -/
theorem Reachable.moves {state : State} {heap : Heap} (hr : Reachable state heap) :
    ∃ (config : Config) (hash : Bytes → Encoding → UInt32) (start : Heap), config.Valid ∧
      Heap.build config hash = .ok start ∧ start.CacheSteps .free [] heap := by
  induction hr with
  | new hvalid hbuild => exact ⟨_, _, _, Config.valid_of_ok hvalid, hbuild, .refl⟩
  | @step levels step reply state state' heap heap' hbefore hrun ih =>
    obtain ⟨config, hash, start, hvalid, hbuild, hmoves⟩ := ih
    refine ⟨config, hash, start, hvalid, hbuild, hmoves.trans ?_⟩
    have hguards : heap.Guards [] := (hmoves.cacheExact (Heap.build_cacheExact hvalid hbuild)).guards
    exact (runStep_byCacheSteps (hostWithin_byCacheSteps levels) (.refl .free) (fun _ => rfl)
      (Step.obeys_of_all Command.permitted_free Command.permitted_free step) state heap reply state' heap'
      (fun _ _ => obey_of_all Command.permitted_free Command.permitted_free _) hguards hbefore.sound
      hrun).2.1

/-- Every heap that a session reaches has an exact cache. -/
theorem Reachable.cacheExact {state : State} {heap : Heap} (hr : Reachable state heap) : heap.CacheExact := by
  obtain ⟨config, hash, start, hvalid, hbuild, hmoves⟩ := hr.moves
  exact hmoves.cacheExact (Heap.build_cacheExact hvalid hbuild)

end Session

end ManagedHeap
