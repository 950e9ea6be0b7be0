import ManagedHeap.Proofs.SessionHistories
import ManagedHeap.Proofs.QuietBindings
import ManagedHeap.Proofs.CopyConstruction

/-!
# Arguments outlive a call

The calls that make objects or bind symbols, what they are given, and what they leave of it.
The arguments need not be rooted: a call keeps alive for itself what it was given, across
every collection that its allocations may need.
-/

namespace ManagedHeap

open HostM (Finalizer)

/-- The calls that allocate, other than those for strings and for an object of a given kind. -/
inductive Call
  | cons (car cdr : Handle)
  | lcons (car cdr : Handle)
  | closure (formals body env : Handle)
  | environment (names values : List Handle) (parent : Handle)
  | promise (expr env : Handle)
  | externalPtr (address : Nat) (tag inner : Handle)
  | byteCode (code consts : Handle)
  | weakRef (key value finalizer : Handle) (onExit : Bool)
  | register (key : Handle) (f : Finalizer) (onExit : Bool)
  | defineVar (env sym value : Handle)
  | symbol (name : Bytes)
  | duplicate (h : Handle)

namespace Call

/-- The handles that a call is given. -/
def args : Call → List Handle
  | cons car cdr | lcons car cdr => [car, cdr]
  | closure formals body env => [formals, body, env]
  | environment names values parent => names ++ values ++ [parent]
  | promise expr env => [expr, env]
  | externalPtr _ tag inner => [tag, inner]
  | byteCode code consts => [code, consts]
  | weakRef key value f _ => [key, value, f]
  | register key (.native _) _ => [key]
  | register key (.closure f) _ => [key, f]
  | defineVar env sym value => [env, sym, value]
  | symbol _ => []
  | duplicate h => [h]

/-- Perform a call. Answers the object that it makes; binding a symbol answers nothing new. -/
def run {ω : Type} (host : Host ω) : Call → Attempt ω Handle
  | cons car cdr => HostM.cons host car cdr
  | lcons car cdr => HostM.lcons host car cdr
  | closure formals body env => HostM.makeClosure host formals body env
  | environment names values parent => HostM.makeEnvironment host names values parent
  | promise expr env => HostM.makePromise host expr env
  | externalPtr address tag inner => HostM.makeExternalPtr host address tag inner
  | byteCode code consts => HostM.makeByteCode host code consts
  | weakRef key value f onExit => HostM.makeWeakRef host key value f onExit
  | register key f onExit => HostM.registerFinalizer host key f onExit
  | defineVar env sym value => do
    HostM.defineVar host env sym value
    return env
  | symbol name => HostM.internSymbol host name
  | duplicate h => HostM.duplicate host h

/-- The changes of what was there that a call is for. -/
def Edits (heap : Heap) (heap' : Heap) : Call → (Handle → Cell → Cell) → Prop
  | defineVar env sym value, edit => heap.Rebinds env sym value heap' edit
  | _, edit => edit = fun _ => id

/-- What the object that a call answers holds. -/
def Makes (heap : Heap) (r : Handle) (heap' : Heap) : Call → Prop
  | cons car cdr => heap'.Shows r .pair (.pair car cdr .nil)
  | lcons car cdr => heap'.Shows r .language (.pair car cdr .nil)
  | closure formals body env => heap'.Shows r .closure (.closure formals body env)
  | environment names values parent => names.length = values.length ∧
      ∃ frame, heap'.Shows r .environment (.environment frame parent) ∧
        heap'.Binds frame (names.zip values)
  | promise expr env => heap'.Shows r .promise (.promise expr env .unbound)
  | externalPtr address tag inner => heap'.Shows r .externalPtr (.externalPtr address tag inner)
  | byteCode code consts => heap'.Shows r .byteCode (.byteCode code consts)
  | weakRef key value f onExit => heap'.ShowsRecord r key value f onExit
  | register key (.native routine) onExit => ∃ function,
      heap'.Shows function .nativeFunction (.nativeFunction (some routine)) ∧
        heap'.ShowsRecord r key .nil function onExit
  | register key (.closure f) onExit => heap'.ShowsRecord r key .nil f onExit
  | defineVar _ _ _ => True
  | symbol name => heap'.symbols.find? name = some r ∧
      (heap.symbols.find? name = none → heap'.ShowsSymbol r name)
  | duplicate h => (∃ d, heap'.arena.get? r = some d) ∧
      ∀ c, heap.arena.get? h = some c → c.kind ∉ [.pair, .language, .list, .expression] →
        ∃ d, heap'.arena.get? r = some d ∧ d.kind = c.kind ∧ d.payload = c.payload

/-- What a call that answers `r` leaves, and what it makes. -/
structure Keeps (call : Call) (heap : Heap) (r : Handle) (heap' : Heap) : Prop where
  kept : ∃ edit, call.Edits heap heap' edit ∧ heap.CarriesBut heap' edit (· ∈ call.args)
  made : call.Makes heap r heap'

theorem Keeps.of_spares {call : Call} {heap heap' : Heap} {r : Handle}
    (hedits : call.Edits heap heap' fun _ => id) (hs : heap.Spares heap' call.args)
    (hmade : call.Makes heap r heap') : call.Keeps heap r heap' :=
  ⟨⟨_, hedits, (hs.carries _ fun _ hp => .inr hp).but⟩, hmade⟩

variable {ω : Type} {fuel : Nat}

theorem keeps_construct (call : Call) {kind : Kind} {payload : Payload}
    (hfits : payload.Fits kind call.args) (hedits : ∀ heap heap', call.Edits heap heap' fun _ => id)
    (hmakes : ∀ heap r heap', heap'.Shows r kind payload → call.Makes heap r heap') :
    Attempt.Quietly (HostM.construct (.mute fuel : Host ω) kind payload call.args)
      fun heap r heap' => heap.Copyable → call.Keeps heap r heap' :=
  (HostM.quietly_construct hfits).conseq fun heap r heap' _ ⟨hspares, hshows, _⟩ _ =>
    .of_spares (hedits heap heap') hspares (hmakes heap r heap' hshows)

theorem keeps (call : Call) : Attempt.Quietly (call.run (.mute fuel : Host ω))
    fun heap r heap' => heap.Copyable → call.Keeps heap r heap' := by
  cases call with
  | cons car cdr =>
    exact keeps_construct (.cons car cdr) ⟨rfl, by simp, by simp [args, Payload.children]⟩
      (fun _ _ => rfl) fun _ _ _ hshows => hshows
  | lcons car cdr =>
    exact keeps_construct (.lcons car cdr) ⟨rfl, by simp, by simp [args, Payload.children]⟩
      (fun _ _ => rfl) fun _ _ _ hshows => hshows
  | closure formals body env =>
    exact keeps_construct (.closure formals body env)
      ⟨rfl, by simp, by simp [args, Payload.children]⟩ (fun _ _ => rfl) fun _ _ _ hshows => hshows
  | environment names values parent =>
    refine HostM.quietly_makeEnvironment.conseq ?_
    rintro heap r heap' - ⟨hlength, hspares, hmade⟩ -
    exact .of_spares rfl hspares ⟨hlength, hmade⟩
  | promise expr env =>
    exact keeps_construct (.promise expr env) ⟨rfl, by simp, by simp [args, Payload.children]⟩
      (fun _ _ => rfl) fun _ _ _ hshows => hshows
  | externalPtr address tag inner =>
    exact keeps_construct (.externalPtr address tag inner)
      ⟨rfl, by simp, by simp [args, Payload.children]⟩ (fun _ _ => rfl) fun _ _ _ hshows => hshows
  | byteCode code consts =>
    exact keeps_construct (.byteCode code consts) ⟨rfl, by simp, by simp [args, Payload.children]⟩
      (fun _ _ => rfl) fun _ _ _ hshows => hshows
  | weakRef key value f onExit =>
    refine HostM.quietly_makeWeakRef.conseq ?_
    rintro heap r heap' - ⟨hspares, hmade⟩ -
    exact .of_spares rfl hspares hmade
  | register key f onExit =>
    refine HostM.quietly_registerFinalizer.conseq ?_
    rintro heap r heap' - ⟨function, hspares, hfunction, hmade⟩ -
    cases f with
    | native routine => exact .of_spares rfl hspares ⟨function, hfunction, hmade⟩
    | closure f =>
      obtain rfl : function = f := hfunction
      exact .of_spares rfl hspares hmade
  | defineVar env sym value =>
    refine (Attempt.Quietly.bind HostM.quietly_defineVar fun _ => .pure).conseq ?_
    rintro heap r heap' - ⟨_, mid, -, ⟨edit, hedit, hcarries⟩, rfl, rfl⟩ -
    exact ⟨⟨edit, hedit, hcarries _ fun p hp => .inr hp⟩, trivial⟩
  | symbol name =>
    refine HostM.quietly_internSymbol.conseq ?_
    rintro heap r heap' - (⟨hfound, rfl⟩ | ⟨hnew, hsymbols, hshows⟩) -
    · refine .of_spares rfl (.refl _ _) ⟨hfound, fun hnone => ?_⟩
      rw [hfound] at hnone
      cases hnone
    · refine ⟨⟨_, rfl, ?_⟩, ?_, fun _ => hshows⟩
      · rintro k c hk -
        obtain ⟨p, hp⟩ := hk.started
        exact absurd hp List.not_mem_nil
      · rw [hsymbols, SymbolTable.find?_insert, if_pos rfl]
  | duplicate h =>
    refine HostM.answersReplica_duplicate.conseq ?_
    rintro heap r heap' - hanswersReplica hcopy
    exact .of_spares rfl (hanswersReplica.spares hcopy) (hanswersReplica.same hcopy)

end Call

theorem Session.Reachable.copyable {state : Session.State} {heap : Heap}
    (hr : Session.Reachable state heap) : heap.Copyable := by
  obtain ⟨-, es, start, hborn, hlives⟩ := hr.traced
  exact Heap.Copyable.lives (Heap.Copyable.born hborn) hlives

/-- Whatever the configuration and the history of a heap: a call that returns, and inside which
no finalizer runs, leaves all of what its arguments reach, but for the change that it is for, and
the object that it answers holds what it was given. -/
theorem call_keeps_arguments {ω : Type} {state : Session.State} {heap heap' : Heap} {call : Call}
    {fuel : Nat} {s s' : ω} {r : Handle} (hr : Session.Reachable state heap)
    (hrun : ((call.run (Host.mute fuel)).run.run s).run heap = .ok ((.ok r, s'), heap'))
    (hquiet : heap'.finalizers.run = heap.finalizers.run) : call.Keeps heap r heap' :=
  (call.keeps _ _ _ _ _ hr.sound hrun).2.2 hquiet r rfl hr.copyable

namespace Session

/-- Steps of a session on a new heap, and a call in the end that no foreign code answers. -/
def called (config : Config) (steps : List Step) (call : Call) :
    Except Fault (Heap × Except HeapError Handle × Heap) := do
  let heap ← opened config steps
  let ((r, _), heap') ← ((call.run (Host.mute loopBound : Host Unit)).run.run ()).run heap
  return (heap, r, heap')

theorem called_eq_ok {config : Config} {steps : List Step} {call : Call} {heap heap' : Heap}
    {r : Except HeapError Handle} (hc : called config steps call = .ok (heap, r, heap')) :
    opened config steps = .ok heap ∧
      ((call.run (Host.mute loopBound : Host Unit)).run.run ()).run heap = .ok ((r, ()), heap') := by
  simp only [called, except_bind] at hc
  obtain ⟨start, ho, ⟨⟨q, u⟩, last⟩, hrun, hend⟩ := hc
  injection hend with hend
  injection hend with hheap hend
  injection hend with hr hlast
  subst hheap hr hlast
  exact ⟨ho, hrun⟩

/-- A symbol and a pair that nothing but the session itself knows of. -/
def looseParts : List Step :=
  [.command (.request (.symbol #[120])) (some "x"),
    .command (.request (.cons (.handle .nil) (.handle .nil))) (some "v")]

/-- With a collection at each allocation, an environment that binds the pair keeps both. -/
theorem environment_keeps_looseParts : ∃ heap heap',
    called { segmentCells := 8, torture := true } looseParts
      (.environment [⟨2⟩] [⟨3⟩] .nil) = .ok (heap, .ok ⟨5⟩, heap') ∧
    heap'.finalizers.run = heap.finalizers.run ∧
    (Call.environment [⟨2⟩] [⟨3⟩] .nil).Keeps heap ⟨5⟩ heap' := by
  obtain ⟨⟨heap, r, heap'⟩, hcalled, htest⟩ := except_of_test
    (x := called { segmentCells := 8, torture := true } looseParts
      (.environment [⟨2⟩] [⟨3⟩] .nil))
    (p := fun p : Heap × Except HeapError Handle × Heap =>
      decide (p.2.1.toOption = some ⟨5⟩) &&
        decide (p.2.2.finalizers.run = p.1.finalizers.run))
    (by decide +kernel)
  simp only [Bool.and_eq_true, decide_eq_true_eq] at htest
  obtain ⟨hanswer, hquiet⟩ := htest
  obtain rfl : r = .ok ⟨5⟩ := eq_ok_of_toOption hanswer
  obtain ⟨ho, hrun⟩ := called_eq_ok hcalled
  obtain ⟨state, hr⟩ := reachable_of_opened rfl ho
  exact ⟨heap, heap', hcalled, hquiet, call_keeps_arguments hr hrun hquiet⟩

/-- A weak record without a finalizer, whose key is dead, in a heap that is full. -/
def fullMemory : List Step :=
  [.command (.request (.cons (.handle .nil) (.handle .nil))) (some "v"),
    .command (.preserve (.register "v")) none,
    .command (.request (.cons (.handle .nil) (.handle .nil))) (some "k"),
    .command (.request (.weakRef (.register "k") (.register "v") (.handle .nil) false)) (some "w"),
    .times 3 [.command (.request (.cons (.handle .nil) (.handle .nil))) (some "x"),
      .command (.preserve (.register "x")) none]]

/-- The last resort of an allocation clears a weak record that has no finalizer, though it is
an argument of the call, and no finalizer runs. -/
theorem cons_clears_record : ∃ heap r heap' c d,
    called { segmentCells := 8, maxCells := some 8 } fullMemory (.cons ⟨4⟩ .nil) =
      .ok (heap, .ok r, heap') ∧ heap'.finalizers.run = heap.finalizers.run ∧
    heap.arena.get? ⟨4⟩ = some c ∧ c.payload.slots = [("key", ⟨3⟩), ("value", ⟨2⟩),
      ("finalizer", .nil), ("next", .nil)] ∧
    heap'.arena.get? ⟨4⟩ = some d ∧ d.payload.slots = [("key", .nil), ("value", .nil),
      ("finalizer", .nil), ("next", .nil)] := by
  obtain ⟨⟨heap, r, heap'⟩, hcalled, htest⟩ := except_of_test
    (x := called { segmentCells := 8, maxCells := some 8 } fullMemory (.cons ⟨4⟩ .nil))
    (p := fun p : Heap × Except HeapError Handle × Heap =>
      p.2.1.isOk && decide (p.2.2.finalizers.run = p.1.finalizers.run) &&
      (p.1.arena.get? ⟨4⟩).any (fun c : Cell => decide (c.payload.slots = [("key", ⟨3⟩),
        ("value", ⟨2⟩), ("finalizer", .nil), ("next", .nil)])) &&
      (p.2.2.arena.get? ⟨4⟩).any fun d : Cell => decide (d.payload.slots = [("key", .nil),
        ("value", .nil), ("finalizer", .nil), ("next", .nil)]))
    (by decide +kernel)
  simp only [Bool.and_eq_true, decide_eq_true_eq, Option.any_eq_true] at htest
  obtain ⟨⟨⟨hok, hquiet⟩, c, hc, hbefore⟩, d, hd, hafter⟩ := htest
  cases r with
  | ok r => exact ⟨heap, r, heap', c, d, hcalled, hquiet, hc, hbefore, hd, hafter⟩
  | error e => exact nomatch hok

end Session

end ManagedHeap
