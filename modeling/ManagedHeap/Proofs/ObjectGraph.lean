import ManagedHeap.Proofs.RecordInvariant

/-!
# The objects as a program sees them

A program sees neither the age of an object nor the links and flags by which the collector
and the caches keep their books. What is left of the objects is a graph. What an operation on
the objects does is said as a change of that graph; the rest of the heap that decides what
lives is its control state.
-/

namespace ManagedHeap

/-- The flags that no collection sets for itself. -/
def Flags.shown (fs : Flags) : Flags :=
  { fs with marked := false, beingComputed := false, inUseByTask := false, remembered := false }

/-- A cell as a program sees it. -/
def Cell.seen (c : Cell) : Cell :=
  { header := { c.header with generation := .young, flags := c.flags.shown }
    attrib := c.attached
    payload := c.payload.forgetting }

/-- The objects by their handles. -/
abbrev Graph := Handle → Option Cell

/-- The live objects as a program sees them. -/
def Heap.graph (heap : Heap) : Graph := fun h => (heap.arena.get? h).map Cell.seen

/-- What an operation on the objects alone leaves as it is. -/
structure Control where
  config : Config
  protect : ProtectStack
  roots : RootSet
  symbols : SymbolTable
  weak : WeakChain
  finalizers : FinalizerState
  tasks : Tasks
  evaluator : Option Evaluator

def Heap.control (heap : Heap) : Control :=
  { config := heap.config, protect := heap.protect, roots := heap.roots, symbols := heap.symbols
    weak := heap.weak, finalizers := heap.finalizers, tasks := heap.tasks
    evaluator := heap.evaluator }

namespace Cell

theorem payload_forgetting_forgetting (p : Payload) : p.forgetting.forgetting = p.forgetting := by
  cases p <;> rfl

theorem attached_seen (c : Cell) : c.seen.attached = c.attached := by
  unfold attached seen
  by_cases hc : c.header.flags.cached = true
  · simp [flags, Flags.shown, hc]
  · simp [attached, flags, Flags.shown, hc]

end Cell

namespace Graph

def edit (g : Graph) (h : Handle) (f : Cell → Cell) : Graph := fun k =>
  if k = h then (g k).map fun c => (f c).seen else g k

def count (g : Graph) (h : Handle) : Graph := g.edit h (Cell.mapRefCount .increment)

def release (g : Graph) (h : Handle) : Graph := g.edit h (Cell.mapRefCount .decrement)

def recount (g : Graph) (old new : Handle) : Graph :=
  if old = new then g else (g.count new).release old

variable {g : Graph} {h k : Handle} {f : Cell → Cell} {c : Cell}

theorem edit_self (hc : g h = some c) : g.edit h f h = some (f c).seen := by
  simp [edit, hc]

theorem edit_ne (hk : k ≠ h) : g.edit h f k = g k := if_neg hk

theorem isSome_edit : (g.edit h f k).isSome = (g k).isSome := by
  unfold edit
  split <;> simp

theorem edit_of_dead (hh : g h = none) : g.edit h f = g := by
  funext k
  unfold edit
  split
  · rename_i he
    simp [he, hh]
  · rfl

end Graph

/-- The heap is as before but for its objects, which look as `g` says. -/
structure Heap.Redrawn (heap heap' : Heap) (g : Graph) : Prop where
  control : heap'.control = heap.control
  graph : heap'.graph = g

namespace Heap

variable {heap mid heap' : Heap} {h : Handle} {g : Graph} {c : Cell} {f : Cell → Cell}

theorem graph_eq_some : heap.graph h = some c ↔ ∃ d, heap.arena.get? h = some d ∧ d.seen = c :=
  Option.map_eq_some_iff

theorem graph_of_get? (hc : heap.arena.get? h = some c) : heap.graph h = some c.seen := by
  simp [graph, hc]

theorem graph_eq_none : heap.graph h = none ↔ heap.arena.get? h = none := Option.map_eq_none_iff

theorem Redrawn.refl (heap : Heap) : heap.Redrawn heap heap.graph := ⟨rfl, rfl⟩

theorem Redrawn.trans {g' : Graph} (hg : heap.Redrawn mid g) (hg' : mid.Redrawn heap' g') :
    heap.Redrawn heap' g' := ⟨hg'.control.trans hg.control, hg'.graph⟩

theorem graph_setCell (f : Cell → Cell) (hfree : ∀ c, (f c).isFree = c.isFree)
    (hf : ∀ c, (f c).seen = (f c.seen).seen) :
    ({ heap with arena := heap.arena.setCell h f } : Heap).graph = heap.graph.edit h f := by
  funext k
  simp only [graph, Graph.edit, Arena.get?_setCell hfree]
  split
  · rename_i he
    subst he
    cases heap.arena.get? k with
    | none => rfl
    | some c => exact congrArg some (hf c)
  · rfl

theorem graph_setCell_of_seen (f : Cell → Cell) (hfree : ∀ c, (f c).isFree = c.isFree)
    (hf : ∀ c, (f c).seen = c.seen) :
    ({ heap with arena := heap.arena.setCell h f } : Heap).graph = heap.graph := by
  funext k
  simp only [graph, Arena.get?_setCell hfree]
  split
  · rename_i he
    subst he
    cases heap.arena.get? k with
    | none => rfl
    | some c => exact congrArg some (hf c)
  · rfl

end Heap

namespace Cell

variable {c d : Cell}

theorem seen_payload {f : Payload → Payload} (hf : ∀ p, (f p).forgetting = (f p.forgetting).forgetting)
    (c : Cell) : ({ c with payload := f c.payload } : Cell).seen =
      ({ c.seen with payload := f c.seen.payload } : Cell).seen := by
  have hattached := attached_seen c
  change Cell.mk _ _ _ = Cell.mk _ _ _
  exact congrArg₂ (Cell.mk c.seen.header) hattached.symm (hf c.payload)

theorem putElement_eq (i : Nat) (value : Handle) (c : Cell) : c.putElement i value =
    { c with payload := match c.payload with
        | .handles elements => .handles (elements.setIfInBounds i value)
        | p => p } := by
  obtain ⟨header, attrib, payload⟩ := c
  cases payload <;> rfl

theorem seen_putElement (i : Nat) (value : Handle) (c : Cell) :
    (c.putElement i value).seen = (c.seen.putElement i value).seen := by
  simp only [putElement_eq]
  refine seen_payload (f := fun p => match p with
    | .handles elements => .handles (elements.setIfInBounds i value)
    | p => p) (fun p => ?_) c
  cases p <;> rfl

theorem seen_attrib (x : Handle) (c : Cell) :
    ({ c with attrib := x } : Cell).seen = ({ c.seen with attrib := x } : Cell).seen := by
  change Cell.mk _ _ _ = Cell.mk _ _ _
  exact congrArg (Cell.mk c.seen.header _) (payload_forgetting_forgetting c.payload).symm

theorem seen_mapFlags {f : Flags → Flags} (hcached : ∀ fs, (f fs).cached = fs.cached)
    (hf : ∀ fs, (f fs).shown = (f fs.shown).shown) (c : Cell) :
    (c.mapFlags f).seen = (c.seen.mapFlags f).seen := by
  have hflags : (c.mapFlags f).flags.cached = c.flags.cached := hcached c.flags
  have hflags' : (c.seen.mapFlags f).flags.cached = c.seen.flags.cached := hcached c.seen.flags
  have hattached : (c.mapFlags f).attached = (c.seen.mapFlags f).attached := by
    calc (c.mapFlags f).attached = c.attached := by
          unfold attached
          rw [hflags]
          rfl
      _ = c.seen.attached := (attached_seen c).symm
      _ = (c.seen.mapFlags f).attached := by
          unfold attached
          rw [hflags']
          rfl
  have hheader : (c.mapFlags f).seen.header = (c.seen.mapFlags f).seen.header :=
    congrArg (fun fs => { c.header with generation := .young, flags := fs }) (hf c.flags)
  change Cell.mk _ _ _ = Cell.mk _ _ _
  rw [hattached]
  exact congrArg₂ (fun header => Cell.mk header _) hheader
    (payload_forgetting_forgetting c.payload).symm

theorem seen_mapRefCount (f : RefCount → RefCount) (c : Cell) :
    (c.mapRefCount f).seen = (c.seen.mapRefCount f).seen := by
  have hattached := attached_seen c
  change Cell.mk _ _ _ = Cell.mk _ _ _
  exact congrArg₂ (Cell.mk (c.seen.mapRefCount f).header) hattached.symm
    (payload_forgetting_forgetting c.payload).symm

theorem seen_unlinked (c : Cell) : c.unlinked.seen = c.seen := by
  unfold unlinked
  split
  · rename_i hcached
    have hflag : c.header.flags.cached = true := hcached
    simp only [seen, attached, flags, hflag, if_true]
  · rfl

theorem seen_of_unlinked (he : d.unlinked = c.unlinked) : d.seen = c.seen := by
  rw [← seen_unlinked d, he, seen_unlinked c]

end Cell

theorem Graph.edit_congr {g : Graph} {h : Handle} {f e : Cell → Cell}
    (hf : ∀ c, g h = some c → (f c).seen = (e c).seen) : g.edit h f = g.edit h e := by
  funext k
  unfold edit
  split
  · rename_i he
    subst he
    cases hc : g k with
    | none => rfl
    | some c => exact congrArg some (hf c hc)
  · rfl

namespace HeapM

open Arena

variable {heap heap' : Heap} {h value old : Handle} {f : Cell → Cell} {u : PUnit}

theorem redrawn_updateCell (f : Cell → Cell) (hfree : ∀ c, (f c).isFree = c.isFree)
    (hf : ∀ c, (f c).seen = (f c.seen).seen)
    (hrun : (updateCell h f).run heap = .ok (u, heap')) :
    (∃ c, heap.arena.get? h = some c) ∧ heap.Redrawn heap' (heap.graph.edit h f) := by
  obtain ⟨hc, rfl⟩ := run_updateCell.mp hrun
  exact ⟨hc, rfl, Heap.graph_setCell f hfree hf⟩

theorem redrawn_noteWrite (hrun : (noteWrite h).run heap = .ok (u, heap')) :
    heap.Redrawn heap' heap.graph := by
  obtain ⟨c, -, ⟨-, rfl⟩ | ⟨-, -, rfl⟩⟩ := run_noteWrite hrun
  · exact .refl heap'
  · exact ⟨rfl, Heap.graph_setCell_of_seen _ (fun _ => rfl) fun _ => rfl⟩

theorem redrawn_incrementRefCount (hrun : (incrementRefCount h).run heap = .ok (u, heap')) :
    (∃ c, heap.arena.get? h = some c) ∧ heap.Redrawn heap' (heap.graph.count h) :=
  redrawn_updateCell _ (fun _ => rfl) (Cell.seen_mapRefCount _) hrun

theorem redrawn_decrementRefCount (hrun : (decrementRefCount h).run heap = .ok (u, heap')) :
    (∃ c, heap.arena.get? h = some c) ∧ heap.Redrawn heap' (heap.graph.release h) :=
  redrawn_updateCell _ (fun _ => rfl) (Cell.seen_mapRefCount _) hrun

theorem redrawn_countReferences {hs : List Handle}
    (hrun : (HostM.countReferences hs).run heap = .ok (u, heap')) :
    heap.Redrawn heap' (hs.foldl Graph.count heap.graph) := by
  induction hs generalizing heap with
  | nil =>
    obtain ⟨-, rfl⟩ := run_pure.mp hrun
    exact .refl heap
  | cons h hs ih =>
    obtain ⟨_, mid, hfirst, hrest⟩ := run_bind.mp hrun
    obtain ⟨-, hmid⟩ := redrawn_incrementRefCount hfirst
    have hlast := ih hrest
    rw [hmid.graph] at hlast
    exact hmid.trans hlast

theorem redrawn_replaceReference
    (hrun : (replaceReference old value).run heap = .ok (u, heap')) :
    heap.Redrawn heap' (heap.graph.recount old value) := by
  unfold replaceReference at hrun
  unfold Graph.recount
  split at hrun
  · rename_i hsame
    obtain ⟨-, rfl⟩ := run_pure.mp hrun
    rw [if_pos hsame]
    exact .refl heap
  · rename_i hne
    rw [if_neg hne]
    simp only [isLive, run_bind, run_get, run_pure] at hrun
    obtain ⟨_, mid, hcount, live, _, ⟨_, _, ⟨rfl, rfl⟩, hlive, rfl⟩, hrun⟩ := hrun
    obtain ⟨-, hmid⟩ := redrawn_incrementRefCount hcount
    split at hrun
    · obtain ⟨-, hlast⟩ := redrawn_decrementRefCount hrun
      rw [hmid.graph] at hlast
      exact hmid.trans hlast
    · rename_i hdead
      obtain ⟨-, rfl⟩ := run_pure.mp hrun
      refine ⟨hmid.control, hmid.graph.trans (Graph.edit_of_dead ?_).symm⟩
      rw [← hmid.graph, Heap.graph_eq_none]
      subst hlive
      simpa [Arena.contains] using hdead

theorem redrawn_exchange {α : Type} {expected : Shape} {f : Payload → Option (α × Payload)} {a : α}
    (hrun : (exchange h expected f).run heap = .ok (a, heap')) :
    ∃ c p, heap.arena.get? h = some c ∧ f c.payload = some (a, p) ∧
      heap.Redrawn heap' (heap.graph.edit h fun c => { c with payload := p }) := by
  simp only [exchange, run_bind, run_payload] at hrun
  obtain ⟨_, mid, hnote, _, _, ⟨c, hc, rfl, rfl⟩, hrun⟩ := hrun
  have hmid := redrawn_noteWrite hnote
  obtain ⟨d, hd, hpayload⟩ : ∃ d, heap.arena.get? h = some d ∧ d.payload = c.payload := by
    obtain ⟨d, hd, ⟨-, rfl⟩ | ⟨-, -, rfl⟩⟩ := run_noteWrite hnote
    · exact ⟨c, hc, rfl⟩
    · refine ⟨d, hd, ?_⟩
      have hself := get?_setCell_self (f := Cell.mapFlags fun fs => { fs with remembered := true })
        hd (get?_eq_some.mp hd).2
      rw [show (heap.arena.setCell h _).get? h = some c from hc, Option.some.injEq] at hself
      rw [hself]
      rfl
  split at hrun
  · rename_i b p hf
    simp only [run_bind, run_pure] at hrun
    obtain ⟨_, _, hupdate, rfl, rfl⟩ := hrun
    obtain ⟨-, hlast⟩ := redrawn_updateCell (fun c => { c with payload := p })
      (fun _ => rfl) (Cell.seen_payload (f := fun _ => p) fun _ => rfl) hupdate
    rw [hmid.graph] at hlast
    exact ⟨d, p, hd, hpayload ▸ hf, hmid.trans hlast⟩
  · exact (run_wrongKind.mp hrun).elim

theorem redrawn_swap {expected : Shape} {f : Payload → Option (Handle × Payload)}
    (hrun : (do
      let old ← exchange h expected f
      replaceReference old value).run heap = .ok (u, heap')) :
    ∃ c old p, heap.arena.get? h = some c ∧ f c.payload = some (old, p) ∧
      heap.Redrawn heap' ((heap.graph.edit h fun c => { c with payload := p }).recount old value) := by
  obtain ⟨old, mid, hexchange, hreplace⟩ := run_bind.mp hrun
  obtain ⟨c, p, hc, hf, hmid⟩ := redrawn_exchange hexchange
  have hlast := redrawn_replaceReference hreplace
  rw [hmid.graph] at hlast
  exact ⟨c, old, p, hc, hf, hmid.trans hlast⟩

theorem redrawn_setCar (hrun : (setCar h value).run heap = .ok (u, heap')) :
    ∃ c car cdr tag, heap.arena.get? h = some c ∧ c.payload = .pair car cdr tag ∧
      heap.Redrawn heap' ((heap.graph.edit h fun c =>
        { c with payload := .pair value cdr tag }).recount car value) := by
  obtain ⟨c, old, p, hc, hf, hlast⟩ := redrawn_swap hrun
  cases hp : c.payload <;> simp only [hp, reduceCtorEq, Option.some.injEq, Prod.mk.injEq] at hf
  obtain ⟨rfl, rfl⟩ := hf
  exact ⟨c, _, _, _, hc, hp, hlast⟩

theorem redrawn_setCdr (hrun : (setCdr h value).run heap = .ok (u, heap')) :
    ∃ c car cdr tag, heap.arena.get? h = some c ∧ c.payload = .pair car cdr tag ∧
      heap.Redrawn heap' ((heap.graph.edit h fun c =>
        { c with payload := .pair car value tag }).recount cdr value) := by
  obtain ⟨c, old, p, hc, hf, hlast⟩ := redrawn_swap hrun
  cases hp : c.payload <;> simp only [hp, reduceCtorEq, Option.some.injEq, Prod.mk.injEq] at hf
  obtain ⟨rfl, rfl⟩ := hf
  exact ⟨c, _, _, _, hc, hp, hlast⟩

theorem redrawn_setTag (hrun : (setTag h value).run heap = .ok (u, heap')) :
    ∃ c car cdr tag, heap.arena.get? h = some c ∧ c.payload = .pair car cdr tag ∧
      heap.Redrawn heap' ((heap.graph.edit h fun c =>
        { c with payload := .pair car cdr value }).recount tag value) := by
  obtain ⟨c, old, p, hc, hf, hlast⟩ := redrawn_swap hrun
  cases hp : c.payload <;> simp only [hp, reduceCtorEq, Option.some.injEq, Prod.mk.injEq] at hf
  obtain ⟨rfl, rfl⟩ := hf
  exact ⟨c, _, _, _, hc, hp, hlast⟩

theorem redrawn_setFrame (hrun : (setFrame h value).run heap = .ok (u, heap')) :
    ∃ c frame enclos, heap.arena.get? h = some c ∧ c.payload = .environment frame enclos ∧
      heap.Redrawn heap' ((heap.graph.edit h fun c =>
        { c with payload := .environment value enclos }).recount frame value) := by
  obtain ⟨c, old, p, hc, hf, hlast⟩ := redrawn_swap hrun
  cases hp : c.payload <;> simp only [hp, reduceCtorEq, Option.some.injEq, Prod.mk.injEq] at hf
  obtain ⟨rfl, rfl⟩ := hf
  exact ⟨c, _, _, hc, hp, hlast⟩

theorem redrawn_setSymbolValue (hrun : (setSymbolValue h value).run heap = .ok (u, heap')) :
    ∃ c name old internal lastEnv, heap.arena.get? h = some c ∧
      c.payload = .symbol name old internal lastEnv ∧
      heap.Redrawn heap' ((heap.graph.edit h fun c =>
        { c with payload := .symbol name value internal lastEnv }).recount old value) := by
  obtain ⟨c, old, p, hc, hf, hlast⟩ := redrawn_swap hrun
  cases hp : c.payload <;> simp only [hp, reduceCtorEq, Option.some.injEq, Prod.mk.injEq] at hf
  obtain ⟨rfl, rfl⟩ := hf
  exact ⟨c, _, _, _, _, hc, hp, hlast⟩

theorem redrawn_setPromiseValue (hrun : (setPromiseValue h value).run heap = .ok (u, heap')) :
    ∃ c expr env old, heap.arena.get? h = some c ∧ c.payload = .promise expr env old ∧
      heap.Redrawn heap' (((heap.graph.edit h fun c =>
        { c with payload := .promise expr .nil value }).recount old value).recount env .nil) := by
  simp only [setPromiseValue, run_bind] at hrun
  obtain ⟨⟨oldValue, oldEnv⟩, mid, hexchange, _, next, hfirst, hsecond⟩ := hrun
  obtain ⟨c, p, hc, hf, hmid⟩ := redrawn_exchange hexchange
  cases hp : c.payload <;> simp only [hp, reduceCtorEq, Option.some.injEq, Prod.mk.injEq] at hf
  obtain ⟨⟨rfl, rfl⟩, rfl⟩ := hf
  have hnext := redrawn_replaceReference hfirst
  rw [hmid.graph] at hnext
  have hlast := redrawn_replaceReference hsecond
  rw [hnext.graph] at hlast
  exact ⟨c, _, _, _, hc, hp, (hmid.trans hnext).trans hlast⟩

theorem redrawn_setVectorElt {i : Nat} {r : Except HeapError Unit}
    (hrun : (setVectorElt h i value).run heap = .ok (r, heap')) :
    ((∃ e, r = .error e) ∧ heap.Redrawn heap' heap.graph) ∨
    ∃ c elements old, heap.arena.get? h = some c ∧ c.payload = .handles elements ∧
      elements[i]? = some old ∧ r = .ok () ∧
      heap.Redrawn heap' ((heap.graph.edit h fun c =>
        { c with payload := .handles (elements.setIfInBounds i value) }).recount old value) := by
  simp only [setVectorElt, run_bind] at hrun
  obtain ⟨_, mid, hnote, read, _, hread, hrun⟩ := hrun
  obtain rfl := Reads.vectorElt _ _ _ hread
  have hmid := redrawn_noteWrite hnote
  cases read with
  | error e =>
    obtain ⟨rfl, rfl⟩ := run_pure.mp hrun
    exact .inl ⟨⟨e, rfl⟩, hmid⟩
  | ok old =>
    right
    simp only [run_bind, run_pure] at hrun
    obtain ⟨_, next, hput, _, _, hreplace, rfl, rfl⟩ := hrun
    change (updateCell h (Cell.putElement i value)).run _ = _ at hput
    obtain ⟨⟨c, hc⟩, hnext⟩ := redrawn_updateCell _ (Cell.isFree_putElement i value)
      (Cell.seen_putElement i value) hput
    obtain ⟨elements, hp, hold⟩ := Safe.run_vectorElt hc hread
    obtain ⟨d, hd, hdc⟩ : ∃ d, heap.arena.get? h = some d ∧ d.seen = c.seen :=
      Heap.graph_eq_some.mp (hmid.graph ▸ Heap.graph_of_get? hc)
    have hdp : d.payload = .handles elements := by
      have hforget : d.payload.forgetting = c.payload.forgetting := congrArg Cell.payload hdc
      rw [hp] at hforget
      cases hdp : d.payload <;> simp_all [Payload.forgetting]
    have hlast := redrawn_replaceReference hreplace
    rw [hnext.graph, hmid.graph, Graph.edit_congr
      (e := fun c => { c with payload := .handles (elements.setIfInBounds i value) })] at hlast
    · exact ⟨d, elements, old, hd, hdp, hold, rfl, (hmid.trans hnext).trans hlast⟩
    · intro e he
      rw [Heap.graph_of_get? hd, Option.some.injEq] at he
      have hep : e.payload = .handles elements := by rw [← he, Cell.seen, hdp]; rfl
      rw [Cell.putElement, hep]

theorem redrawn_setAttrib (hrun : (setAttrib h value).run heap = .ok (u, heap')) :
    ∃ c, heap.arena.get? h = some c ∧ c.flags.cached = false ∧
      heap.Redrawn heap' ((heap.graph.edit h fun c =>
        { c with attrib := value }).recount c.attrib value) := by
  simp only [setAttrib, run_bind, run_flags] at hrun
  obtain ⟨_, _, ⟨c, hc, rfl, rfl⟩, hrun⟩ := hrun
  split at hrun
  · simp only [run_bind, run_throw, false_and, exists_false] at hrun
  · rename_i huncached
    replace huncached : c.flags.cached = false := by simpa using huncached
    simp only [run_bind, run_cell] at hrun
    obtain ⟨_, mid, hnote, d, _, ⟨hd, rfl⟩, _, next, hput, hreplace⟩ := hrun
    have hmid := redrawn_noteWrite hnote
    have hseen : d.seen = c.seen := by
      have hgraph : mid.graph h = some d.seen := Heap.graph_of_get? hd
      rw [hmid.graph, Heap.graph_of_get? hc, Option.some.injEq] at hgraph
      exact hgraph.symm
    have hattrib : d.attrib = c.attrib := by
      have hattached : d.attached = c.attached := congrArg Cell.attrib hseen
      have hcached : d.flags.cached = c.flags.cached :=
        (congrArg (fun c : Cell => c.header.flags.cached) hseen :)
      simpa [Cell.attached, hcached, huncached] using hattached
    obtain ⟨-, hnext⟩ := redrawn_updateCell (fun c => { c with attrib := value })
      (fun _ => rfl) (Cell.seen_attrib value) hput
    have hlast := redrawn_replaceReference hreplace
    rw [hnext.graph, hmid.graph, hattrib] at hlast
    exact ⟨c, hc, huncached, (hmid.trans hnext).trans hlast⟩

end HeapM

end ManagedHeap
