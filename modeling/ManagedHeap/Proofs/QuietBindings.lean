import ManagedHeap.Proofs.QuietEnvironments

/-!
# Strings, symbols and bindings, without finalizers

An interned string or symbol that is made anew has the content that was asked for. Binding a
symbol changes one slot of what was there: the head of a binding cell, or the frame of the
environment.
-/

namespace ManagedHeap

open Arena

namespace Heap

variable {heap heap' : Heap} {h old value : Handle} {kind : Kind} {p q : Payload}

theorem ShowsString.carried {bytes : Bytes} {encoding : Encoding}
    (hshows : heap.ShowsString h bytes encoding) (hcarries : heap.Carries heap' (· = h)) :
    heap'.ShowsString h bytes encoding := by
  obtain ⟨c, hash, hc, hkind, hcached, hp⟩ := hshows
  obtain ⟨d, hd, he | ⟨key, value, next, hweak, -⟩⟩ := hcarries h c (.start rfl hc) hc
  · have hdp := Cell.payload_of_content he (by simp [hp])
    rw [hp] at hdp
    refine ⟨d, hash, hd, (Cell.kind_of_content he).trans hkind,
      (Cell.cached_of_content he).trans hcached, ?_⟩
    cases hdp' : d.payload <;> simp_all [Payload.forgetting]
  · rw [hp] at hweak
    cases hweak

theorem Shows.payload {c : Cell} (hshows : heap.Shows h kind p) (hc : heap.arena.get? h = some c) :
    c.payload.forgetting.unchained = p.forgetting.unchained := by
  obtain ⟨d, hd, hcontent⟩ := hshows
  rw [hc, Option.some.injEq] at hd
  subst hd
  exact congrArg Cell.payload hcontent

theorem Shows.swapped (hshows : heap.Shows h kind p)
    (hr : heap.Redrawn heap' ((heap.graph.edit h fun c => { c with payload := q }).recount old value)) :
    heap'.Shows h kind q := by
  obtain ⟨c, hc, hcontent⟩ := hshows.graph
  obtain ⟨d, hd, hdc⟩ := (Graph.Agrees.recount (E := fun _ => False) :
    Graph.Agrees _ _ ((heap.graph.edit h fun c => { c with payload := q }).recount old value)) h _
    nofun (Graph.edit_self (f := fun c => { c with payload := q }) hc)
  refine .of_graph (hr.graph ▸ hd) (hdc.trans ((Cell.content_seen _).trans ?_))
  exact congrArg (fun c : Cell => { c with payload := q.forgetting.unchained }) hcontent

end Heap

def Cell.asName (c : Cell) : Cell :=
  (c.mapFlags fun fs => { fs with symbolName := true }).mapRefCount .increment

theorem Cell.seen_asName (c : Cell) : c.asName.seen = c.seen.asName.seen := by
  let flag : Cell → Cell := Cell.mapFlags fun fs => { fs with symbolName := true }
  have hflag : (flag c).seen = (flag c.seen).seen :=
    seen_mapFlags (f := fun fs => { fs with symbolName := true }) (fun _ => rfl) (fun _ => rfl) c
  calc c.asName.seen = ((flag c).seen.mapRefCount .increment).seen := seen_mapRefCount _ _
    _ = ((flag c.seen).seen.mapRefCount .increment).seen := by rw [hflag]
    _ = c.seen.asName.seen := (seen_mapRefCount _ _).symm

theorem Cell.seen_named (name : Handle) (c : Cell) :
    (c.named name).seen = (c.seen.named name).seen := by
  simp only [named_eq]
  refine seen_payload (fun p => ?_) c
  cases p <;> rfl

/-- A setter of pairs changes one object alone, and makes `f` of its slots. -/
structure Heap.Refills (heap heap' : Heap) (h : Handle) (f : Handle → Handle → Handle → Payload) :
    Prop where
  control : heap'.control = heap.control
  agrees : Graph.Agrees (· = h) heap.graph heap'.graph
  shows : ∀ {kind car cdr tag}, heap.Shows h kind (.pair car cdr tag) →
    heap'.Shows h kind (f car cdr tag)

namespace HeapM

variable {heap heap' : Heap} {h value : Handle} {u : PUnit}

theorem refills_swap {c : Cell} {old car cdr tag : Handle}
    {f : Handle → Handle → Handle → Payload} (hc : heap.arena.get? h = some c)
    (hp : c.payload = .pair car cdr tag) (hr : heap.Redrawn heap' ((heap.graph.edit h fun c =>
      { c with payload := f car cdr tag }).recount old value)) : heap.Refills heap' h f := by
  refine ⟨hr.control, ?_, fun {kind car' cdr' tag'} hshows => ?_⟩
  · rw [hr.graph]
    exact Graph.Agrees.trans (.edit (E := (· = h)) rfl) .recount
  · have hsame := hshows.payload hc
    simp only [hp, Payload.forgetting, Payload.unchained, Payload.pair.injEq] at hsame
    obtain ⟨rfl, rfl, rfl⟩ := hsame
    exact hshows.swapped hr

theorem refills_setCar (hrun : (setCar h value).run heap = .ok (u, heap')) :
    heap.Refills heap' h fun _ cdr tag => .pair value cdr tag := by
  obtain ⟨c, car, cdr, tag, hc, hp, hr⟩ := redrawn_setCar hrun
  exact refills_swap hc hp hr

theorem refills_setCdr (hrun : (setCdr h value).run heap = .ok (u, heap')) :
    heap.Refills heap' h fun car _ tag => .pair car value tag := by
  obtain ⟨c, car, cdr, tag, hc, hp, hr⟩ := redrawn_setCdr hrun
  exact refills_swap hc hp hr

theorem refills_setTag (hrun : (setTag h value).run heap = .ok (u, heap')) :
    heap.Refills heap' h fun car cdr _ => .pair car cdr value := by
  obtain ⟨c, car, cdr, tag, hc, hp, hr⟩ := redrawn_setTag hrun
  exact refills_swap hc hp hr

theorem run_searchChain_payload {bytes : Bytes} {encoding : Encoding} {hash : UInt32}
    {cursor found : Handle} {fuel : Nat}
    (hrun : (searchChain bytes encoding hash cursor fuel).run heap = .ok (some found, heap')) :
    ∃ c, heap.arena.get? found = some c ∧ c.payload = .charString bytes encoding hash := by
  induction fuel generalizing cursor with
  | zero => exact (run_throw.mp hrun).elim
  | succ fuel ih =>
    unfold searchChain at hrun
    rcases run_ite.mp hrun with ⟨-, hrun⟩ | ⟨-, hrun⟩
    · cases (run_pure.mp hrun).1
    · simp only [run_bind, run_cell] at hrun
      obtain ⟨c, _, ⟨hc, rfl⟩, hrun⟩ := hrun
      cases hp : c.payload
      case charString b e k =>
        simp only [hp] at hrun
        rcases run_ite.mp hrun with ⟨hmatch, hrun⟩ | ⟨-, hrun⟩
        · obtain ⟨hfound, -⟩ := run_pure.mp hrun
          rw [Option.some.injEq] at hfound
          obtain ⟨rfl, rfl, rfl⟩ := hmatch
          exact ⟨c, hfound ▸ hc, hp⟩
        · exact ih hrun
      all_goals
        simp only [hp] at hrun
        exact ih hrun

theorem findCached_shows {bytes : Bytes} {encoding : Encoding} {hash : UInt32}
    (hs : heap.Sound) (hrun : (findCached bytes encoding hash).run heap = .ok (some h, heap')) :
    heap.ShowsString h bytes encoding := by
  obtain ⟨-, hfound⟩ := findCached_cached _ _ _ hs hrun
  obtain rfl := Reads.findCached _ _ _ hrun
  obtain ⟨c, hc, hcached⟩ := hfound h rfl
  simp only [findCached, run_bind, run_get, run_walkBound] at hrun
  obtain ⟨_, _, ⟨rfl, rfl⟩, _, _, ⟨-, rfl⟩, hrun⟩ := hrun
  obtain ⟨d, hd, hp⟩ := run_searchChain_payload hrun
  rw [hc, Option.some.injEq] at hd
  subst hd
  exact ⟨c, hash, hc, (hs.proper hc).cached hcached, hcached, hp⟩

end HeapM

namespace HostM

variable {ω : Type} {fuel : Nat}

theorem quietly_internString {bytes : Bytes} {encoding : Encoding} :
    Attempt.Quietly (internString (.mute fuel : Host ω) bytes encoding) fun heap h heap' =>
      heap.Spares heap' [] ∧ heap'.symbols = heap.symbols ∧
        heap'.ShowsString h bytes (encoding.normalize (bytes.all (· < 128))) := by
  refine (Attempt.Quietly.bind (.liftHost .getHeap) fun heap => .bind (.reads .findCached)
    fun found => (?_ : Attempt.Quietly _ fun heap h heap' => match found with
      | some k => h = k ∧ heap' = heap
      | none => heap.Spares heap' [] ∧ heap'.symbols = heap.symbols ∧
          heap'.ShowsString h bytes (encoding.normalize (bytes.all (· < 128))))).conseq ?_
  · cases found with
    | some k => exact .pure
    | none =>
      refine (quietly_allocate_bind ?_ fun h => .bind (.redrawn (g := fun start =>
          start.graph.edit h (Cell.interned bytes (encoding.normalize (bytes.all (· < 128)))
            (heap.strings.hash bytes (encoding.normalize (bytes.all (· < 128))))
            (bytes.all (· < 128))))
        fun heap u heap' hfresh hrun => ?_) fun _ => .pure).quietly.conseq ?_
      · refine Attempt.Safe.start ?_
        exact (Attempt.Triple.bind (allocate_fresh (Host.mute_safe fuel)) fun h =>
          .bind (.lift HeapM.cacheString_cached) fun _ => .pure fun _ hs => hs.1)
      · obtain ⟨hs, c, hc, hheader⟩ := hfresh
        exact HeapM.redrawn_cacheString hs hc
          (congrArg (fun header : Header => header.flags.cached) hheader)
          (congrArg (fun header : Header => header.flags.permanent) hheader) hrun
      · rintro start h heap' - ⟨_, mid, -, hprovides, _, _, hr, rfl, rfl⟩
        obtain ⟨payload, -, hblank⟩ := hprovides.blank
        refine ⟨hprovides.spares (congrArg Control.roots hr.control)
          (congrArg (fun c : Control => c.protect.slots) hr.control) (hr.graph ▸ .edit rfl),
          (congrArg Control.symbols hr.control).trans hprovides.symbols, ?_⟩
        obtain ⟨d, hd, hdc⟩ := Heap.graph_eq_some.mp (hr.graph ▸ Graph.edit_self hblank)
        refine ⟨d, heap.strings.hash bytes (encoding.normalize (bytes.all (· < 128))), hd,
          (congrArg (fun c : Cell => c.header.kind) hdc :),
          (congrArg (fun c : Cell => c.header.flags.cached) hdc :), ?_⟩
        have hp : d.payload.forgetting = _ := congrArg Cell.payload hdc
        cases hdp : d.payload <;> rw [hdp] at hp <;>
          simp_all [Cell.interned, Cell.seen, Payload.forgetting]
  · rintro heap h heap' hs ⟨_, _, -, ⟨rfl, rfl⟩, found, _, -, ⟨hfind, rfl⟩, hlast⟩
    cases found with
    | some k =>
      obtain ⟨rfl, rfl⟩ := hlast
      exact ⟨.refl _ _, rfl, HeapM.findCached_shows hs hfind⟩
    | none => exact hlast

theorem writes_nameSymbol {name : Bytes} {pname sym : Handle} {P : Heap → Prop} :
    Attempt.Writes (ω := ω) P (do
      HeapM.nameSymbol sym pname
      modifyThe Heap fun heap => { heap with symbols := heap.symbols.insert name sym }
      return sym) fun heap a heap' => a = sym ∧ heap'.symbols = heap.symbols.insert name sym ∧
        heap'.graph = (heap.graph.edit pname Cell.asName).edit sym (Cell.named pname) := by
  refine (Attempt.Writes.bind (.redrawn (g := fun heap => (heap.graph.edit pname Cell.asName).edit sym
      (Cell.named pname)) fun heap u heap' _ hrun => ?_) fun _ => .bind
    (.lift (Q := fun heap _ heap' =>
      heap' = { heap with symbols := heap.symbols.insert name sym }) fun heap u heap' _ hrun => by
        obtain rfl := run_modify.mp hrun
        exact ⟨rfl, rfl⟩) fun _ => .pure).conseq ?_
  · obtain ⟨_, mid, hfirst, hlast⟩ := run_bind.mp hrun
    obtain ⟨-, hmid⟩ := HeapM.redrawn_updateCell Cell.asName (fun _ => rfl) Cell.seen_asName hfirst
    obtain ⟨-, hend⟩ := HeapM.redrawn_updateCell (Cell.named pname)
      (fun c => by rw [Cell.named_eq]; rfl) (Cell.seen_named pname) hlast
    rw [hmid.graph] at hend
    exact hmid.trans hend
  · rintro heap a heap' ⟨_, mid, hr, _, _, rfl, rfl, rfl⟩
    exact ⟨rfl, congrArg (SymbolTable.insert · name a) (congrArg Control.symbols hr.control),
      hr.graph⟩

theorem quietly_symbolParts {name : Bytes} {encoding : Encoding} :
    Attempt.Quietly (do
      let pname ← internString (.mute fuel : Host ω) name encoding
      let sym ← allocate (.mute fuel : Host ω) .symbol 0 [pname]
      return (pname, sym)) fun heap made heap' => heap'.symbols = heap.symbols ∧
        made.1 ≠ made.2 ∧ heap'.Shows made.2 .symbol (.symbol .nil .unbound .nil .nil) ∧
        heap'.ShowsString made.1 name (encoding.normalize (name.all (· < 128))) := by
  refine (Attempt.Quietly.bind quietly_internString fun pname => .bind quietly_allocate
    fun sym => .pure).conseq ?_
  rintro heap made heap' - ⟨pname, mid, -, ⟨-, hsymbols, hstring⟩, sym, _, -, hprovides, rfl, rfl⟩
  obtain ⟨payload, hpayload, hblank⟩ := hprovides.blank
  obtain ⟨c, hash, hc, -⟩ := id hstring
  refine ⟨hprovides.symbols.trans hsymbols, ?_, ?_,
    hstring.carried (hprovides.carries _ fun p hp => .inr (by simp [hp]))⟩
  · intro hsame
    obtain rfl : pname = sym := hsame
    exact hprovides.unreached (· = pname) (fun p hp => .inr (by simp [hp])) (.start rfl hc)
  · refine .of_graph hblank ?_
    simp only [Payload.forKind?, Option.ite_none_left_eq_some, Option.some.injEq] at hpayload
    rw [← hpayload.2]

end HostM

/-- The object is a new symbol, which has just this name. -/
def Heap.ShowsSymbol (heap : Heap) (sym : Handle) (name : Bytes) : Prop :=
  ∃ string, heap.Shows sym .symbol (.symbol string .unbound .nil .nil) ∧
    heap.ShowsString string name ((HostM.nameEncoding name).normalize (name.all (· < 128)))

theorem Heap.ShowsSymbol.of_named {heap heap' : Heap} {pname sym : Handle} {name : Bytes}
    (hne : pname ≠ sym) (hsym : heap.Shows sym .symbol (.symbol .nil .unbound .nil .nil))
    (hstring : heap.ShowsString pname name
      ((HostM.nameEncoding name).normalize (name.all (· < 128))))
    (hgraph : heap'.graph = (heap.graph.edit pname Cell.asName).edit sym
      (Cell.named pname)) : heap'.ShowsSymbol sym name := by
  refine ⟨pname, ?_, ?_⟩
  · obtain ⟨c, hc, hcontent⟩ := hsym.graph
    rw [← Graph.edit_ne (g := heap.graph) (f := Cell.asName) hne.symm] at hc
    refine .of_graph (hgraph ▸ Graph.edit_self hc) ((Cell.content_seen _).trans ?_)
    have hp : c.payload.forgetting.unchained = .symbol .nil .unbound .nil .nil :=
      congrArg Cell.payload hcontent
    obtain ⟨lastEnv, hcp⟩ : ∃ lastEnv, c.payload = .symbol .nil .unbound .nil lastEnv := by
      cases hcp : c.payload <;> rw [hcp] at hp <;>
        simp only [Payload.forgetting, Payload.unchained, Payload.symbol.injEq, reduceCtorEq] at hp
      obtain ⟨rfl, rfl, rfl, -⟩ := hp
      exact ⟨_, rfl⟩
    rw [Cell.named_eq, hcp]
    exact congrArg (fun d : Cell => { d with
      payload := (.symbol pname .unbound .nil .nil : Payload) }) hcontent
  · obtain ⟨c, hash, hc, hkind, hcached, hp⟩ := hstring
    obtain ⟨d, hd, hdc⟩ := Heap.graph_eq_some.mp (hgraph ▸ (Graph.edit_ne hne).trans
      (Graph.edit_self (Heap.graph_of_get? hc)))
    refine ⟨d, hash, hd, ((congrArg (fun c : Cell => c.header.kind) hdc :) : d.kind = c.kind).trans hkind,
      ((congrArg (fun c : Cell => c.header.flags.cached) hdc :) :
        d.flags.cached = c.flags.cached).trans hcached, ?_⟩
    have hdp : d.payload.forgetting = c.payload.forgetting.forgetting := congrArg Cell.payload hdc
    rw [hp] at hdp
    cases hdp' : d.payload <;> simp_all [Payload.forgetting]

namespace HostM

variable {ω : Type} {fuel : Nat}

theorem quietly_internSymbol {name : Bytes} :
    Attempt.Quietly (internSymbol (.mute fuel : Host ω) name) fun heap sym heap' =>
      (heap.symbols.find? name = some sym ∧ heap' = heap) ∨
      (heap.symbols.find? name = none ∧ heap'.symbols = heap.symbols.insert name sym ∧
        heap'.ShowsSymbol sym name) := by
  have hmake : Attempt.Quietly ((do
      let pname ← internString (.mute fuel : Host ω) name (nameEncoding name)
      let sym ← allocate (.mute fuel : Host ω) .symbol 0 [pname]
      return (pname, sym)) >>= fun made => do
      HeapM.nameSymbol made.2 made.1
      modifyThe Heap fun heap => { heap with symbols := heap.symbols.insert name made.2 }
      return made.2) fun heap sym heap' => heap'.symbols = heap.symbols.insert name sym ∧
        heap'.ShowsSymbol sym name := by
    refine (quietly_symbolParts.finish (M := fun _ _ => True) ?_ ?_ fun made =>
      writes_nameSymbol).quietly.conseq ?_
    · refine Attempt.Triple.bind ((internString_cached (Host.mute_safe fuel)).conseq (fun _ => id)
        (fun _ _ hs => hs.1) fun _ _ => trivial) fun pname => .bind
        ((allocate_fresh (Host.mute_safe fuel)).conseq (fun _ => id)
          (fun _ _ _ => trivial) fun _ _ => trivial) fun sym => .pure fun _ _ => trivial
    · refine Attempt.Safe.start ?_
      simp only [bind_assoc, pure_bind]
      exact makeSymbol_safe (Host.mute_safe fuel)
    · rintro heap sym heap' - ⟨made, mid, -, ⟨hsymbols, hne, hsym, hstring⟩, rfl, hinsert, hgraph⟩
      exact ⟨hsymbols ▸ hinsert, .of_named hne hsym hstring hgraph⟩
  refine (Attempt.Quietly.bind (.liftHost .getHeap) fun heap => (?_ : Attempt.Quietly _
    fun start sym heap' => (heap.symbols.find? name = some sym ∧ heap' = start) ∨
      (heap.symbols.find? name = none ∧ heap'.symbols = start.symbols.insert name sym ∧
        heap'.ShowsSymbol sym name))).conseq ?_
  · cases hfind : heap.symbols.find? name with
    | some found =>
      exact Attempt.Quietly.pure.conseq fun _ _ _ _ ⟨hsym, hsame⟩ => .inl ⟨by rw [hsym], hsame⟩
    | none =>
      dsimp only
      split
      · exact .throw_bind
      · simp only [bind_assoc, pure_bind] at hmake
        exact hmake.conseq fun _ _ _ _ hlast => .inr ⟨rfl, hlast⟩
  · rintro heap sym heap' - ⟨_, _, -, ⟨rfl, rfl⟩, hlast⟩
    exact hlast

end HostM

/-- A pair with another head. -/
def Cell.withCar (value : Handle) (c : Cell) : Cell :=
  match c.payload with
  | .pair _ cdr tag => { c with payload := .pair value cdr tag }
  | _ => c

/-- An environment with another frame. -/
def Cell.withFrame (frame : Handle) (c : Cell) : Cell :=
  match c.payload with
  | .environment _ enclos => { c with payload := .environment frame enclos }
  | _ => c

/-- Change the object at one handle. -/
def Cell.editAt (h : Handle) (f : Cell → Cell) : Handle → Cell → Cell :=
  fun k => if k = h then f else id

namespace Heap

variable {heap mid heap' : Heap} {start : Handle → Prop}

/-- What can be reached from the starting points lives on and is what it was, but for an edit. -/
def CarriesBut (heap heap' : Heap) (edit : Handle → Cell → Cell) (start : Handle → Prop) : Prop :=
  ∀ h c, heap.ReachedFrom start h → heap.arena.get? h = some c →
    ∃ d, heap'.arena.get? h = some d ∧ (edit h c).Lasts d

theorem Carries.but (hcarries : heap.Carries heap' start) :
    heap.CarriesBut heap' (fun _ => id) start := hcarries

theorem Carries.edited {h : Handle} {e f : Cell → Cell} (hcarries : heap.Carries mid start)
    (hg : Graph.Agrees (fun _ => False) (mid.graph.edit h f) heap'.graph)
    (hf : ∀ c d, heap.arena.get? h = some c → mid.arena.get? h = some d → c.Lasts d →
      (f d.seen).content = (e c).content) : heap.CarriesBut heap' (Cell.editAt h e) start := by
  intro k c hk hc
  obtain ⟨d, hd, hlasts⟩ := hcarries k c hk hc
  by_cases hkh : k = h
  · subst hkh
    obtain ⟨x, hx, hcontent⟩ := hg k _ nofun (Graph.edit_self (Heap.graph_of_get? hd))
    obtain ⟨y, hy, rfl⟩ := Heap.graph_eq_some.mp hx
    refine ⟨y, hy, ?_⟩
    rw [Cell.editAt, if_pos rfl]
    refine .of_content ?_
    rw [← Cell.content_seen y, hcontent, Cell.content_seen, hf c d hc hd hlasts]
  · obtain ⟨x, hx, hcontent⟩ := hg k _ nofun ((Graph.edit_ne hkh).trans (Heap.graph_of_get? hd))
    obtain ⟨y, hy, rfl⟩ := Heap.graph_eq_some.mp hx
    refine ⟨y, hy, ?_⟩
    rw [Cell.editAt, if_neg hkh]
    refine hlasts.trans (.of_content ?_)
    rw [← Cell.content_seen y, hcontent, Cell.content_seen]

/-- What binding a symbol changes of what was there: the head of the cell that binds it
already, or the frame of the environment, which a new cell then leads. -/
inductive Rebinds (heap : Heap) (env sym value : Handle) (heap' : Heap) :
    (Handle → Cell → Cell) → Prop
  | there {cell : Handle} : (HeapM.frameBinding env sym).run heap = .ok (some cell, heap) →
      Rebinds heap env sym value heap' (Cell.editAt cell (Cell.withCar value))
  | new {cell frame : Handle} : (HeapM.frameBinding env sym).run heap = .ok (none, heap) →
      (HeapM.envFrame env).run heap = .ok (frame, heap) →
      heap'.Shows cell .pair (.pair value frame sym) →
      Rebinds heap env sym value heap' (Cell.editAt env (Cell.withFrame cell))

end Heap

/-- What binding a symbol does, setter by setter. -/
inductive Heap.Defines (heap : Heap) (env sym value : Handle) (heap' : Heap) : Prop
  | there {cell : Handle} {u : PUnit} :
      (HeapM.frameBinding env sym).run heap = .ok (some cell, heap) →
      (HeapM.setCar cell value).run heap = .ok (u, heap') → Defines heap env sym value heap'
  | new {cell frame : Handle} {mid m₁ m₂ m₃ : Heap} {u₁ u₂ u₃ u₄ : PUnit} :
      (HeapM.frameBinding env sym).run heap = .ok (none, heap) →
      (HeapM.envFrame env).run heap = .ok (frame, heap) → mid.Sound →
      heap.Provides mid .pair 0 [env, sym, value] cell →
      (HeapM.setCar cell value).run mid = .ok (u₁, m₁) →
      (HeapM.setCdr cell frame).run m₁ = .ok (u₂, m₂) →
      (HeapM.setTag cell sym).run m₂ = .ok (u₃, m₃) →
      (HeapM.setFrame env cell).run m₃ = .ok (u₄, heap') → Defines heap env sym value heap'

theorem Attempt.Quietly.runs {ω : Type} {act : HeapM PUnit} (hsafe : act.Safe)
    (hact : ∀ {heap heap' u}, act.run heap = .ok (u, heap') → heap'.control = heap.control) :
    Quietly (liftM act : Attempt ω PUnit) fun heap u heap' => act.run heap = .ok (u, heap') :=
  lift hsafe fun _ _ _ _ hrun => ⟨congrArg (fun c : Control => c.finalizers.run) (hact hrun), hrun⟩

theorem HostM.quietly_defines {ω : Type} {fuel : Nat} {env sym value : Handle} :
    Attempt.Quietly (defineVar (.mute fuel : Host ω) env sym value) fun heap _ heap' =>
      heap.Defines env sym value heap' := by
  have hcar : ∀ {cell v : Handle}, Attempt.Quietly (liftM (HeapM.setCar cell v) : Attempt ω PUnit)
      fun heap u heap' => (HeapM.setCar cell v).run heap = .ok (u, heap') :=
    .runs .setCar fun hrun => (HeapM.refills_setCar hrun).control
  refine (Attempt.Quietly.bind (.reads .frameBinding) fun found => (?_ : Attempt.Quietly _
    fun heap _ heap' => (HeapM.frameBinding env sym).run heap = .ok (found, heap) →
      heap.Defines env sym value heap')).conseq ?_
  · cases found with
    | some cell => exact hcar.conseq fun _ _ _ _ hrun hfound => .there hfound hrun
    | none =>
      refine (Attempt.Quietly.bind (.reads .envFrame) fun frame => .bind quietly_allocate
        fun cell => .bind hcar fun _ =>
        .bind (.runs .setCdr fun hrun => (HeapM.refills_setCdr hrun).control) fun _ =>
        .bind (.runs .setTag fun hrun => (HeapM.refills_setTag hrun).control) fun _ =>
        .runs .setFrame fun hrun => ?_).conseq ?_
      · obtain ⟨_, _, _, -, -, hr⟩ := HeapM.redrawn_setFrame hrun
        exact hr.control
      · rintro heap u heap' - ⟨frame, _, -, ⟨hframe, rfl⟩, cell, mid, hmid, hprovides, _, m₁, -,
          hcar, _, m₂, -, hcdr, _, m₃, -, htag, hlast⟩ hfound
        exact .new hfound hframe hmid hprovides hcar hcdr htag hlast
  · rintro heap u heap' - ⟨found, _, -, ⟨hfound, rfl⟩, hlast⟩
    exact hlast hfound

theorem Heap.Provides.rebinds {heap mid heap' : Heap} {env sym value cell frame : Handle}
    (hfound : (HeapM.frameBinding env sym).run heap = .ok (none, heap))
    (hframe : (HeapM.envFrame env).run heap = .ok (frame, heap))
    (hprovides : heap.Provides mid .pair 0 [env, sym, value] cell) {m₁ m₂ m₃ : Heap}
    (hcar : mid.Refills m₁ cell fun _ cdr tag => .pair value cdr tag)
    (hcdr : m₁.Refills m₂ cell fun car _ tag => .pair car frame tag)
    (htag : m₂.Refills m₃ cell fun car cdr _ => .pair car cdr sym)
    {c : Cell} {old enclos : Handle} (hc : m₃.arena.get? env = some c)
    (hp : c.payload = .environment old enclos)
    (hr : m₃.Redrawn heap' ((m₃.graph.edit env fun c =>
      { c with payload := .environment cell enclos }).recount old cell)) :
    ∃ edit, heap.Rebinds env sym value heap' edit ∧
      ∀ start, (∀ p, start p → heap.Pins p ∨ p ∈ [env, sym, value]) →
        heap.CarriesBut heap' edit start := by
  have hcontrol : m₃.control = mid.control :=
    htag.control.trans (hcdr.control.trans hcar.control)
  have hspares : heap.Spares m₃ [env, sym, value] :=
    hprovides.spares (congrArg Control.roots hcontrol)
      (congrArg (fun c : Control => c.protect.slots) hcontrol)
      (hcar.agrees.trans (hcdr.agrees.trans htag.agrees))
  have hshows : m₃.Shows cell .pair (.pair value frame sym) := by
    obtain ⟨payload, hpayload, hblank⟩ := hprovides.blank
    simp only [Payload.forKind?, Option.ite_none_left_eq_some, Option.some.injEq] at hpayload
    obtain ⟨-, rfl⟩ := hpayload
    exact htag.shows (hcdr.shows (hcar.shows (.of_graph hblank rfl)))
  have hne : cell ≠ env := by
    rintro rfl
    simp only [HeapM.envFrame, run_bind, HeapM.run_payload] at hframe
    obtain ⟨_, _, ⟨e, he, -⟩, -⟩ := hframe
    exact hprovides.unreached (· = cell) (fun p hp => .inr (by simp [hp])) (.start rfl he)
  refine ⟨_, .new hfound hframe (hshows.agrees (E := (· = env)) ?_ hne), fun start hstart =>
    (hspares.carries start hstart).edited (hr.graph ▸ Graph.Agrees.recount) ?_⟩
  · rw [hr.graph]
    exact Graph.Agrees.trans (.edit (E := (· = env)) rfl) .recount
  · intro e d he hd hlasts
    rw [hc, Option.some.injEq] at hd
    subst hd
    have hcontent : c.content = e.content := by
      refine hlasts.resolve_right ?_
      rintro ⟨key, _, _, -, hcontent⟩
      have hempty : c.payload.forgetting.unchained = _ := congrArg Cell.payload hcontent
      rw [hp] at hempty
      exact nomatch hempty
    have hep : e.payload = .environment old enclos := by
      have hsame : c.payload.forgetting.unchained = e.payload.forgetting.unchained :=
        congrArg Cell.payload hcontent
      rw [hp] at hsame
      cases hep : e.payload <;> rw [hep] at hsame <;>
        simp_all [Payload.forgetting, Payload.unchained]
    rw [Cell.withFrame, hep]
    exact congrArg (fun x : Cell => { x with payload := (.environment cell enclos : Payload) })
      ((Cell.content_seen c).trans hcontent)

namespace HostM

variable {ω : Type} {fuel : Nat}

theorem quietly_defineVar {env sym value : Handle} :
    Attempt.Quietly (defineVar (.mute fuel : Host ω) env sym value) fun heap _ heap' =>
      ∃ edit, heap.Rebinds env sym value heap' edit ∧
        ∀ start, (∀ p, start p → heap.Pins p ∨ p ∈ [env, sym, value]) →
          heap.CarriesBut heap' edit start := by
  refine quietly_defines.conseq ?_
  rintro heap u heap' - (⟨hfound, hset⟩ | ⟨hfound, hframe, -, hprovides, hcar, hcdr, htag, hlast⟩)
  · obtain ⟨c, car, cdr, tag, hc, hp, hr⟩ := HeapM.redrawn_setCar hset
    refine ⟨_, .there hfound, fun start _ =>
      (Heap.Carries.refl heap start).edited (hr.graph ▸ Graph.Agrees.recount) ?_⟩
    intro c' d hc' hd _
    rw [hc, Option.some.injEq] at hc' hd
    subst hc' hd
    rw [Cell.withCar, hp]
    exact congrArg (fun x : Cell => { x with payload := (.pair value cdr tag : Payload) })
      (Cell.content_seen c)
  · obtain ⟨c, old, enclos, hc, hp, hr⟩ := HeapM.redrawn_setFrame hlast
    exact hprovides.rebinds hfound hframe (HeapM.refills_setCar hcar) (HeapM.refills_setCdr hcdr)
      (HeapM.refills_setTag htag) hc hp hr

end HostM

end ManagedHeap
