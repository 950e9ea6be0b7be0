import ManagedHeap.Proofs.ConstructorInvariant
import ManagedHeap.Proofs.WeakRecords

/-!
# Operations that leave the weak records alone

Only four kinds of operations matter to the records: collections, linking, unlinking, and
what cuts back the handles kept for operations under way. All others let every live object
live, change no record, and fill none.
-/

namespace ManagedHeap

/-- How many finalizers have run, whether some are running, and the history beside allocations. -/
@[ext]
structure Tally where
  run : Nat
  running : Bool
  entries : List Entry

def Heap.tally (heap : Heap) : Tally :=
  ⟨heap.finalizers.run, heap.finalizers.running, heap.journal.ofRecords⟩

theorem Heap.tally_congr {heap heap' : Heap} (hfinalizers : heap'.finalizers = heap.finalizers)
    (hentries : heap'.journal.ofRecords = heap.journal.ofRecords) : heap'.tally = heap.tally := by
  rw [tally, tally, hfinalizers, hentries]

/-- Nothing dies, no record changes, and a new one is empty. -/
structure Heap.Preserves (heap heap' : Heap) : Prop where
  weak : heap'.weak = heap.weak
  kept : ∀ {h c}, heap.arena.get? h = some c →
    ∃ d, heap'.arena.get? h = some d ∧ d.payload.fields? = c.payload.fields?
  born : ∀ {h d f}, heap'.arena.get? h = some d → heap.arena.get? h = none →
    d.payload.fields? = some f → f = .empty

/-- Beside that, no finalizer is counted, and what operations under way keep stays kept. -/
structure Heap.PreservesTally (heap heap' : Heap) : Prop extends heap.Preserves heap' where
  tally : heap'.tally = heap.tally
  transient : heap'.roots.transient = heap.roots.transient

def Flags.Lasts (fs gs : Flags) : Prop :=
  (fs.readyToFinalize = true → gs.readyToFinalize = true) ∧
    (fs.finalizeOnExit = true → gs.finalizeOnExit = true)

theorem Flags.Lasts.refl (fs : Flags) : fs.Lasts fs := ⟨id, id⟩

theorem Flags.Lasts.trans {fs gs ks : Flags} (hfirst : fs.Lasts gs) (hlast : gs.Lasts ks) :
    fs.Lasts ks := ⟨hlast.1 ∘ hfirst.1, hlast.2 ∘ hfirst.2⟩

/-- Beside that, no object loses such a flag. -/
structure Heap.PreservesFlags (heap heap' : Heap) : Prop extends heap.PreservesTally heap' where
  flags : ∀ {h c d}, heap.arena.get? h = some c → heap'.arena.get? h = some d →
    c.flags.Lasts d.flags

theorem Heap.Gains.graph_kept {heap heap' : Heap} {kind : Kind} {length : Nat} {h k : Handle}
    {c : Cell} (hgains : heap.Gains heap' kind length h) (hc : heap.graph k = some c) :
    heap'.graph k = some c := by
  obtain ⟨payload, -, hgraph⟩ := hgains.graph
  rw [hgraph, Graph.add_ne, hc]
  rintro rfl
  rw [hgains.dead] at hc
  exact nomatch hc

namespace Heap.Preserves

variable {heap mid heap' : Heap} {h : Handle} {records : List Handle}

theorem contains (hkeeps : heap.Preserves heap') (hlive : heap.arena.contains h = true) :
    heap'.arena.contains h = true := by
  obtain ⟨c, hc⟩ := Option.isSome_iff_exists.mp hlive
  obtain ⟨d, hd, -⟩ := hkeeps.kept hc
  exact Arena.contains_of_get? hd

theorem fieldsOf {c : Cell} (hkeeps : heap.Preserves heap') (hc : heap.arena.get? h = some c) :
    heap'.fieldsOf h = heap.fieldsOf h := by
  obtain ⟨d, hd, hdc⟩ := hkeeps.kept hc
  simp only [Heap.fieldsOf, hc, hd, Option.bind_some, hdc]

theorem fieldsOf_eq_some {f : WeakFields} (hkeeps : heap.Preserves heap')
    (hf : heap.fieldsOf h = some f) : heap'.fieldsOf h = some f := by
  obtain ⟨c, hc, -⟩ := Option.bind_eq_some_iff.mp hf
  exact (hkeeps.fieldsOf hc).trans hf

theorem chain (hkeeps : heap.Preserves heap') (hc : heap.Chain records) : heap'.Chain records := by
  refine hc.congr hkeeps.weak ?_ ?_
  · intro r hr
    obtain ⟨-, f, hf⟩ := hc.strung.fields_of_mem hr
    exact (hkeeps.fieldsOf_eq_some hf).trans hf.symm
  · intro r f hf hr
    obtain ⟨d, hd, hdf⟩ := Option.bind_eq_some_iff.mp hf
    cases hcell : heap.arena.get? r with
    | none => exact hkeeps.born hd hcell hdf
    | some c => exact hc.loose ((hkeeps.fieldsOf hcell).symm.trans hf) hr

theorem trans (hfirst : heap.Preserves mid) (hlast : mid.Preserves heap') :
    heap.Preserves heap' where
  weak := hlast.weak.trans hfirst.weak
  kept := by
    intro h c hc
    obtain ⟨d, hd, hdc⟩ := hfirst.kept hc
    obtain ⟨e, he, hed⟩ := hlast.kept hd
    exact ⟨e, he, hed.trans hdc⟩
  born := by
    intro h e f he hnone hf
    cases hd : mid.arena.get? h with
    | none => exact hlast.born he hd hf
    | some d =>
      obtain ⟨e', he', hed⟩ := hlast.kept hd
      rw [he, Option.some.injEq] at he'
      subst he'
      exact hfirst.born hd hnone (hed.symm.trans hf)

theorem aside (harena : heap'.arena = heap.arena) (hweak : heap'.weak = heap.weak) :
    heap.Preserves heap' where
  weak := hweak
  kept := fun hc => ⟨_, harena ▸ hc, rfl⟩
  born := by
    intro h d f hd hnone _
    rw [harena, hnone] at hd
    exact nomatch hd

theorem of_graph (hweak : heap'.weak = heap.weak)
    (hkept : ∀ {h c}, heap.graph h = some c → ∃ d, heap'.graph h = some d ∧
      d.payload.fields? = c.payload.fields?)
    (hborn : ∀ {h d f}, heap'.graph h = some d → heap.graph h = none →
      d.payload.fields? = some f → f = .empty) : heap.Preserves heap' where
  weak := hweak
  kept := by
    intro h c hc
    obtain ⟨e, he, hec⟩ := hkept (graph_of_get? hc)
    obtain ⟨d, hd, rfl⟩ := graph_eq_some.mp he
    refine ⟨d, hd, ?_⟩
    rw [← Payload.fields?_forgetting d.payload, ← Payload.fields?_forgetting c.payload]
    exact hec
  born := by
    intro h d f hd hnone hf
    refine hborn (graph_of_get? hd) (graph_eq_none.mpr hnone) ?_
    exact (Payload.fields?_forgetting d.payload).trans hf

theorem of_redrawn (hsame : heap.Redrawn heap' heap.graph) : heap.Preserves heap' :=
  of_graph (congrArg Control.weak hsame.control)
    (fun hc => ⟨_, by rw [hsame.graph]; exact hc, rfl⟩) fun hd hnone _ => by
      rw [hsame.graph, hnone] at hd
      exact nomatch hd

theorem of_gains {kind : Kind} {length : Nat} (hgains : heap.Gains heap' kind length h) :
    heap.Preserves heap' := by
  refine of_graph (congrArg Control.weak hgains.control)
    (fun hc => ⟨_, hgains.graph_kept hc, rfl⟩) ?_
  intro k d f hd hnone hf
  obtain ⟨-, -, payload, hpayload, hgraph⟩ := hgains
  by_cases hk : k = h
  · subst hk
    rw [hgraph, Graph.add_self, Option.some.injEq] at hd
    subst hd
    change payload.fields? = some f at hf
    unfold Payload.forKind? at hpayload
    split at hpayload
    · cases hpayload
    · rw [Option.some.injEq] at hpayload
      subst hpayload
      cases kind <;> simp_all [Payload.fields?, WeakFields.empty]
  · rw [hgraph, Graph.add_ne hk, hnone] at hd
    cases hd

end Heap.Preserves

namespace Heap.PreservesFlags

variable {heap mid heap' : Heap} {h : Handle} {c : Cell} {f : Cell → Cell}

theorem aside (harena : heap'.arena = heap.arena) (hweak : heap'.weak = heap.weak)
    (htally : heap'.tally = heap.tally)
    (htransient : heap'.roots.transient = heap.roots.transient) : heap.PreservesFlags heap' where
  toPreserves := .aside harena hweak
  tally := htally
  transient := htransient
  flags := by
    intro h c d hc hd
    rw [harena, hc, Option.some.injEq] at hd
    exact hd ▸ .refl c.flags

theorem refl (heap : Heap) : heap.PreservesFlags heap := .aside rfl rfl rfl rfl

theorem trans (hfirst : heap.PreservesFlags mid) (hlast : mid.PreservesFlags heap') : heap.PreservesFlags heap' where
  toPreserves := hfirst.toPreserves.trans hlast.toPreserves
  tally := hlast.tally.trans hfirst.tally
  transient := hlast.transient.trans hfirst.transient
  flags := by
    intro h c e hc he
    obtain ⟨d, hd, -⟩ := hfirst.kept hc
    exact (hfirst.flags hc hd).trans (hlast.flags hd he)

theorem setCell (hc : heap.arena.get? h = some c) (hfree : ∀ c, (f c).isFree = c.isFree)
    (hfields : (f c).payload.fields? = c.payload.fields?) (hflags : c.flags.Lasts (f c).flags) :
    heap.PreservesFlags { heap with arena := heap.arena.setCell h f } where
  weak := rfl
  tally := rfl
  transient := rfl
  kept := by
    intro k d hd
    by_cases hk : k = h
    · subst hk
      rw [hc, Option.some.injEq] at hd
      subst hd
      refine ⟨f c, ?_, hfields⟩
      change (heap.arena.setCell k f).get? k = _
      rw [Arena.get?_setCell hfree, if_pos rfl, hc, Option.map_some]
    · exact ⟨d, (Arena.get?_setCell_ne hk).trans hd, rfl⟩
  born := by
    intro k d g hd hnone _
    change (heap.arena.setCell h f).get? k = _ at hd
    rw [Arena.get?_setCell hfree, hnone] at hd
    split at hd <;> exact nomatch hd
  flags := by
    intro k d e hd he
    change (heap.arena.setCell h f).get? k = some e at he
    by_cases hk : k = h
    · subst hk
      rw [Arena.get?_setCell hfree, if_pos rfl, hc, Option.map_some, Option.some.injEq] at he
      rw [hc, Option.some.injEq] at hd
      exact hd ▸ he ▸ hflags
    · rw [Arena.get?_setCell_ne hk, hd, Option.some.injEq] at he
      exact he ▸ .refl d.flags

theorem of_graph (hcontrol : heap'.control = heap.control) (htally : heap'.tally = heap.tally)
    (hkept : ∀ {h c}, heap.graph h = some c → ∃ d, heap'.graph h = some d ∧
      d.payload.fields? = c.payload.fields? ∧ c.flags.Lasts d.flags)
    (hborn : ∀ {h d f}, heap'.graph h = some d → heap.graph h = none →
      d.payload.fields? = some f → f = .empty) : heap.PreservesFlags heap' where
  toPreserves := .of_graph (congrArg Control.weak hcontrol)
    (fun hc => (hkept hc).imp fun _ hd => ⟨hd.1, hd.2.1⟩) hborn
  tally := htally
  transient := congrArg (fun c : Control => c.roots.transient) hcontrol
  flags := by
    intro h c d hc hd
    obtain ⟨e, he, -, hflags⟩ := hkept (graph_of_get? hc)
    rw [graph_of_get? hd, Option.some.injEq] at he
    subst he
    exact hflags

theorem of_redrawn (hsame : heap.Redrawn heap' heap.graph) (htally : heap'.tally = heap.tally) :
    heap.PreservesFlags heap' where
  toPreserves := .of_redrawn hsame
  tally := htally
  transient := congrArg (fun c : Control => c.roots.transient) hsame.control
  flags := by
    intro h c d hc hd
    have hseen := graph_of_get? hd
    rw [hsame.graph, graph_of_get? hc, Option.some.injEq] at hseen
    have hflags : d.seen.flags = c.seen.flags := congrArg Cell.flags hseen.symm
    exact (hflags ▸ .refl _ : c.seen.flags.Lasts d.seen.flags)

theorem of_gains {kind : Kind} {length : Nat} (hgains : heap.Gains heap' kind length h)
    (htally : heap'.tally = heap.tally) : heap.PreservesFlags heap' where
  toPreserves := .of_gains hgains
  tally := htally
  transient := congrArg (fun c : Control => c.roots.transient) hgains.control
  flags := by
    intro k c d hc hd
    have hseen := hgains.graph_kept (graph_of_get? hc)
    rw [graph_of_get? hd, Option.some.injEq] at hseen
    have hflags : d.seen.flags = c.seen.flags := congrArg Cell.flags hseen
    exact (hflags ▸ .refl _ : c.seen.flags.Lasts d.seen.flags)

end Heap.PreservesFlags

namespace HeapM

variable {α β : Type} {heap heap' : Heap} {x act : HeapM α} {g : α → HeapM β}
  {h value old : Handle} {f : Cell → Cell}

def PreservesRecords (act : HeapM α) : Prop :=
  ∀ heap a heap', act.run heap = .ok (a, heap') → heap.PreservesFlags heap'

namespace PreservesRecords

theorem bind (hx : PreservesRecords x) (hg : ∀ a, PreservesRecords (g a)) : PreservesRecords (x >>= g) := by
  intro heap b heap' hrun
  obtain ⟨a, mid, hfirst, hrest⟩ := run_bind.mp hrun
  exact (hx heap a mid hfirst).trans (hg a mid b heap' hrest)

theorem of_reads (hx : Reads x) : PreservesRecords x := by
  intro heap a heap' hrun
  obtain rfl := hx heap a heap' hrun
  exact .refl heap'

theorem pure {a : α} : PreservesRecords (pure a) := of_reads .pure

theorem throw {e : Fault} : PreservesRecords (throw e : HeapM α) := of_reads .throw

theorem modify {f : Heap → Heap} (harena : ∀ heap, (f heap).arena = heap.arena)
    (hweak : ∀ heap, (f heap).weak = heap.weak)
    (htally : ∀ heap, (f heap).tally = heap.tally)
    (htransient : ∀ heap, (f heap).roots.transient = heap.roots.transient) :
    PreservesRecords (modify f) := by
  intro heap u heap' hrun
  obtain rfl := run_modify.mp hrun
  exact .aside (harena heap) (hweak heap) (htally heap) (htransient heap)

theorem note {e : Event} : PreservesRecords (note e) :=
  modify (fun _ => rfl) (fun _ => rfl) (fun _ => rfl) fun _ => rfl

theorem modifyStrings {f : StringCache → StringCache} : PreservesRecords (modifyStrings f) :=
  modify (fun _ => rfl) (fun _ => rfl) (fun _ => rfl) fun _ => rfl

theorem modifyRoots {f : RootSet → RootSet} (hf : ∀ r, (f r).transient = r.transient) :
    PreservesRecords (modifyRoots f) :=
  modify (fun _ => rfl) (fun _ => rfl) (fun _ => rfl) fun _ => hf _

theorem modifyFinalizers {f : FinalizerState → FinalizerState} (hrun : ∀ s, (f s).run = s.run)
    (hrunning : ∀ s, (f s).running = s.running) : PreservesRecords (modifyFinalizers f) :=
  modify (fun _ => rfl) (fun _ => rfl) (fun _ => Tally.ext (hrun _) (hrunning _) rfl) fun _ => rfl

theorem updateCell (hfree : ∀ c, (f c).isFree = c.isFree)
    (hfields : ∀ c, (f c).payload.fields? = c.payload.fields?)
    (hflags : ∀ c : Cell, c.flags.Lasts (f c).flags) : PreservesRecords (updateCell h f) := by
  intro heap u heap' hrun
  obtain ⟨⟨c, hc⟩, rfl⟩ := run_updateCell.mp hrun
  exact .setCell hc hfree (hfields c) (hflags c)

theorem rewrite {c : Cell} {p : Payload} (hc : heap.arena.get? h = some c)
    (hcp : c.payload.fields? = none) (hp : p.fields? = none) {u : PUnit}
    (hrun : (HeapM.updateCell h fun c => { c with payload := p }).run heap = .ok (u, heap')) :
    heap.PreservesFlags heap' := by
  obtain ⟨-, rfl⟩ := run_updateCell.mp hrun
  exact .setCell hc (fun _ => rfl) (hp.trans hcp.symm) (.refl c.flags)

theorem payload_bind {k : Payload → HeapM β} (hk : ∀ p heap c b heap',
      heap.arena.get? h = some c → c.payload = p → (k p).run heap = .ok (b, heap') →
      heap.PreservesFlags heap') : PreservesRecords (payload h >>= k) := by
  intro heap b heap' hrun
  obtain ⟨p, mid, hread, hrest⟩ := run_bind.mp hrun
  obtain ⟨c, hc, hp, rfl⟩ := run_payload.mp hread
  exact hk p heap c b heap' hc hp hrest

theorem onProtect {f : ProtectStack → Except Fault (α × ProtectStack)} : PreservesRecords (onProtect f) := by
  intro heap a heap' hrun
  simp only [HeapM.onProtect, StateT.run] at hrun
  split at hrun
  · rw [Except.ok.injEq, Prod.mk.injEq] at hrun
    obtain ⟨-, rfl⟩ := hrun
    exact .aside rfl rfl rfl rfl
  · cases hrun

theorem noteWrite : PreservesRecords (noteWrite h) := by
  refine bind (updateCell (fun _ => rfl) (fun _ => rfl) fun _ => ⟨id, id⟩) fun _ =>
    bind (of_reads .cell) fun c => ?_
  dsimp only
  split
  · refine bind (updateCell (fun _ => rfl) (fun _ => rfl) fun _ => ⟨id, id⟩) fun _ => ?_
    exact modify (fun _ => rfl) (fun _ => rfl) (fun _ => rfl) fun _ => rfl
  · exact pure

theorem incrementRefCount : PreservesRecords (incrementRefCount h) :=
  updateCell (fun _ => rfl) (fun _ => rfl) fun _ => ⟨id, id⟩

theorem decrementRefCount : PreservesRecords (decrementRefCount h) :=
  updateCell (fun _ => rfl) (fun _ => rfl) fun _ => ⟨id, id⟩

theorem countReferences (hs : List Handle) : PreservesRecords (HostM.countReferences hs) := by
  induction hs with
  | nil => exact pure
  | cons h hs ih => exact bind incrementRefCount fun _ => ih

theorem replaceReference : PreservesRecords (replaceReference old value) := by
  unfold HeapM.replaceReference
  split
  · exact pure
  · refine bind incrementRefCount fun _ => bind (of_reads .isLive) fun live => ?_
    split
    · exact decrementRefCount
    · exact pure

theorem exchange {expected : Shape} {k : Payload → Option (α × Payload)}
    (hk : ∀ p a q, k p = some (a, q) → p.fields? = none ∧ q.fields? = none) :
    PreservesRecords (exchange h expected k) := by
  refine bind noteWrite fun _ => payload_bind ?_
  rintro p heap c b heap' hc rfl hrun
  split at hrun
  · rename_i a q hpq
    obtain ⟨hp, hq⟩ := hk _ _ _ hpq
    simp only [run_bind, run_pure] at hrun
    obtain ⟨_, _, hupdate, -, rfl⟩ := hrun
    exact rewrite hc hp hq hupdate
  · exact (run_wrongKind.mp hrun).elim

theorem swap {expected : Shape} {k : Payload → Option (Handle × Payload)}
    (hk : ∀ p a q, k p = some (a, q) → p.fields? = none ∧ q.fields? = none) :
    PreservesRecords (do
      let old ← HeapM.exchange h expected k
      HeapM.replaceReference old value) :=
  bind (exchange hk) fun _ => replaceReference

theorem setCar : PreservesRecords (setCar h value) :=
  swap fun p a q hpq => by
    cases p <;> simp_all [Payload.fields?]
    rw [← hpq.2]

theorem setCdr : PreservesRecords (setCdr h value) :=
  swap fun p a q hpq => by
    cases p <;> simp_all [Payload.fields?]
    rw [← hpq.2]

theorem setTag : PreservesRecords (setTag h value) :=
  swap fun p a q hpq => by
    cases p <;> simp_all [Payload.fields?]
    rw [← hpq.2]

theorem setFrame : PreservesRecords (setFrame h value) :=
  swap fun p a q hpq => by
    cases p <;> simp_all [Payload.fields?]
    rw [← hpq.2]

theorem setSymbolValue : PreservesRecords (setSymbolValue h value) :=
  swap fun p a q hpq => by
    cases p <;> simp_all [Payload.fields?]
    rw [← hpq.2]

theorem setPromiseValue : PreservesRecords (setPromiseValue h value) := by
  refine bind (exchange fun p a q hpq => ?_) fun r =>
    bind replaceReference fun _ => replaceReference
  cases p <;> simp_all [Payload.fields?]
  rw [← hpq.2]

theorem setVectorElt {i : Nat} : PreservesRecords (setVectorElt h i value) := by
  refine bind noteWrite fun _ => bind (of_reads .vectorElt) fun read => ?_
  cases read with
  | error e => exact pure
  | ok old =>
    refine bind (x := HeapM.updateCell h (Cell.putElement i value)) ?_ fun _ =>
      bind replaceReference fun _ => pure
    refine updateCell (Cell.isFree_putElement i value) (fun c => ?_) fun c => ?_ <;>
      rw [Cell.putElement_eq]
    · cases c.payload <;> rfl
    · exact .refl c.flags

theorem setAttrib : PreservesRecords (setAttrib h value) := by
  refine bind (of_reads .flags) fun fs => ?_
  split
  · exact bind throw fun _ => bind noteWrite fun _ => bind (of_reads .cell) fun c =>
      bind (updateCell (fun _ => rfl) (fun _ => rfl) fun _ => ⟨id, id⟩) fun _ => replaceReference
  · exact bind noteWrite fun _ => bind (of_reads .cell) fun c =>
      bind (updateCell (fun _ => rfl) (fun _ => rfl) fun _ => ⟨id, id⟩) fun _ => replaceReference

theorem setObjectBit {b : Bool} : PreservesRecords (setObjectBit h b) :=
  updateCell (fun _ => rfl) (fun _ => rfl) fun _ => ⟨id, id⟩

theorem touch : PreservesRecords (touch h) := bind noteWrite fun _ => of_reads .length

theorem rewrite_bind {c : Cell} {p : Payload} {b b' : β} (hc : heap.arena.get? h = some c)
    (hcp : c.payload.fields? = none) (hp : p.fields? = none)
    (hrun : (do
      HeapM.updateCell h fun c => { c with payload := p }
      return b').run heap = .ok (b, heap')) : heap.PreservesFlags heap' := by
  obtain ⟨_, mid, hupdate, hrest⟩ := run_bind.mp hrun
  obtain ⟨-, rfl⟩ := run_pure.mp hrest
  exact rewrite hc hcp hp hupdate

theorem setRealData {values : Array Float} : PreservesRecords (setRealData h values) := by
  refine bind (updateCell (fun _ => rfl) (fun _ => rfl) fun _ => ⟨id, id⟩) fun _ =>
    payload_bind ?_
  rintro p heap c b heap' hc hp hrun
  cases p
  case real elements => exact rewrite_bind hc (by rw [hp]; rfl) rfl hrun
  all_goals exact (run_throw.mp hrun).elim

theorem setIntegerData {values : Array Int32} : PreservesRecords (setIntegerData h values) := by
  refine bind (updateCell (fun _ => rfl) (fun _ => rfl) fun _ => ⟨id, id⟩) fun _ =>
    payload_bind ?_
  rintro p heap c b heap' hc hp hrun
  cases p
  case integer elements | logical elements => exact rewrite_bind hc (by rw [hp]; rfl) rfl hrun
  all_goals exact (run_throw.mp hrun).elim

theorem setRawData {values : Bytes} : PreservesRecords (setRawData h values) := by
  refine bind noteWrite fun _ => payload_bind ?_
  rintro p heap c b heap' hc hp hrun
  cases p
  case raw elements => exact rewrite_bind hc (by rw [hp]; rfl) rfl hrun
  all_goals
    obtain ⟨-, rfl⟩ := run_pure.mp hrun
    exact .refl heap

theorem findVar {env sym : Handle} : PreservesRecords (findVar env sym) := by
  refine bind (of_reads .walkBound) fun fuel => ?_
  induction fuel generalizing env with
  | zero => exact throw
  | succ fuel ih =>
    unfold HeapM.searchEnvironments
    split
    · exact bind (of_reads .symbolValue) fun base => pure
    · refine bind (of_reads .findVarInFrame) fun found => ?_
      cases found with
      | none => exact bind (of_reads .envEnclos) fun outer => ih
      | some value =>
        refine bind (x := HeapM.updateCell sym (Cell.foundIn env)) ?_ fun _ => pure
        refine updateCell (fun c => by rw [Cell.foundIn_eq]; rfl) (fun c => ?_) fun c => ?_ <;>
          rw [Cell.foundIn_eq]
        · cases c.payload <;> rfl
        · exact .refl c.flags

theorem removeVar {env sym : Handle} : PreservesRecords (removeVar env sym) := by
  refine bind (of_reads .envFrame) fun frame => bind (of_reads .walkBound) fun fuel => ?_
  generalize Handle.nil = previous
  induction fuel generalizing previous frame with
  | zero => exact throw
  | succ fuel ih =>
    unfold HeapM.unbindFrom
    split
    · exact pure
    · refine bind (of_reads .cdr) fun next => bind (of_reads .tag) fun t => ?_
      have hend : PreservesRecords (do
          HeapM.decrementRefCount (← car frame)
          return true) :=
        bind (of_reads .car) fun old => bind decrementRefCount fun _ => pure
      split
      · split
        · exact bind setFrame fun _ => hend
        · exact bind setCdr fun _ => hend
      · exact ih next frame

theorem pushRoot : PreservesRecords (pushRoot h) := by
  refine bind onProtect fun result => ?_
  split
  · exact bind note fun _ => pure
  · exact pure

theorem popRoots {n : Nat} : PreservesRecords (popRoots n) := onProtect

theorem reprotect {i : Nat} : PreservesRecords (reprotect h i) := onProtect

theorem closeScope {base : Nat} : PreservesRecords (closeScope base) := by
  refine bind (of_reads .protectDepth) fun depth => ?_
  have hcut : PreservesRecords (MonadState.modifyGet fun heap : Heap =>
      (PUnit.unit, { heap with protect := heap.protect.truncate base })) :=
    modify (fun _ => rfl) (fun _ => rfl) (fun _ => rfl) fun _ => rfl
  split
  · exact bind throw fun _ => hcut
  · exact hcut

theorem flagOnExit (records : List Handle) : PreservesRecords (flagOnExit records) := by
  induction records with
  | nil => exact pure
  | cons r rs ih =>
    refine bind (updateCell (fun _ => rfl) (fun _ => rfl) fun c => ⟨fun hready => ?_, id⟩) fun _ => ih
    exact (Bool.or_eq_true _ _).mpr (.inl hready)

theorem awaitOutput : PreservesRecords (awaitOutput h) := by
  refine bind (of_reads .get) fun heap => ?_
  split
  · exact modify (fun _ => rfl) (fun _ => rfl) (fun _ => rfl) fun _ => rfl
  · exact pure

theorem task {a : Session.TaskAction} : PreservesRecords (Session.task a h) :=
  bind (modify (fun _ => rfl) (fun _ => rfl) (fun _ => rfl) fun _ => rfl) fun _ =>
    bind (of_reads .get) fun _ => pure

theorem linkString {hash : UInt32} : PreservesRecords (linkString h hash) :=
  bind (of_reads .get) fun _ => bind (updateCell (fun _ => rfl) (fun _ => rfl) fun _ => ⟨id, id⟩) fun _ =>
    modifyStrings

theorem relinkChain (fuel : Nat) (cursor : Handle) : PreservesRecords (relinkChain cursor fuel) := by
  induction fuel generalizing cursor with
  | zero => exact throw
  | succ fuel ih =>
    unfold HeapM.relinkChain
    split
    · exact pure
    · refine bind (of_reads .cell) fun c => bind (of_reads ?_) fun hash =>
        bind linkString fun _ => ih _
      exact fun _ _ _ hrun => (run_cachedHash hrun).symm

theorem growStrings : PreservesRecords growStrings := by
  refine bind (of_reads .get) fun start => bind modifyStrings fun _ =>
    bind (of_reads .walkBound) fun fuel => bind ?_ fun _ => note
  induction start.strings.buckets.toList with
  | nil => exact pure
  | cons head heads ih => exact bind (relinkChain fuel head) fun _ => ih

theorem cacheString {c : Cell} {bytes : Bytes} {encoding : Encoding} {hash : UInt32}
    {ascii : Bool} {u : PUnit} (hc : heap.arena.get? h = some c)
    (hcp : c.payload.fields? = none)
    (hrun : (cacheString h bytes encoding hash ascii).run heap = .ok (u, heap')) :
    heap.PreservesFlags heap' := by
  obtain ⟨_, mid, hintern, hrest⟩ := run_bind.mp hrun
  obtain ⟨-, rfl⟩ := run_updateCell.mp hintern
  have hfirst : heap.PreservesFlags { heap with
      arena := heap.arena.setCell h (Cell.interned bytes encoding hash ascii) } :=
    .setCell hc (fun _ => rfl) hcp.symm (.refl c.flags)
  have hend : PreservesRecords (do
      HeapM.linkString h hash
      HeapM.modifyStrings fun strings => { strings with entries := strings.entries + 1 }) :=
    bind linkString fun _ => modifyStrings
  have hlink : PreservesRecords (do
      if (← get).strings.needsGrowth then HeapM.growStrings
      HeapM.linkString h hash
      HeapM.modifyStrings fun strings => { strings with entries := strings.entries + 1 }) := by
    refine bind (of_reads .get) fun heap => ?_
    dsimp only
    split
    · exact bind growStrings fun _ => hend
    · exact hend
  exact hfirst.trans (hlink _ _ _ hrest)

theorem nameSymbol {sym name : Handle} : PreservesRecords (nameSymbol sym name) := by
  refine bind (updateCell (fun _ => rfl) (fun _ => rfl) fun _ => ⟨id, id⟩) fun _ => ?_
  refine updateCell (f := Cell.named name) (fun c => by rw [Cell.named_eq]; rfl) (fun c => ?_)
    fun c => ?_ <;> rw [Cell.named_eq]
  · cases c.payload <;> rfl
  · exact .refl c.flags

end PreservesRecords

theorem tally_claimCell? {n : NodeClass} {kind : Kind} {payload : Payload} {chunks : Nat}
    {r : Option Handle} (hrun : (claimCell? n kind payload chunks).run heap = .ok (r, heap')) :
    heap'.tally = heap.tally := by
  rcases run_claim hrun with ⟨-, rfl⟩ | ⟨h, arena, -, -, rfl⟩
  · rfl
  · exact Heap.tally_congr rfl (Journal.ofRecords_record_claim rfl)

theorem tally_allocateFast {kind : Kind} {length : Nat}
    (hrun : (allocateFast kind length).run heap = .ok (h, heap')) : heap'.tally = heap.tally := by
  rcases allocateFast_cases hrun with ⟨-, rfl⟩ | ⟨-, payload, claimed, -, hclaim, -⟩
  · rfl
  · exact tally_claimCell? hclaim

theorem tally_takeOrGrow {kind : Kind} {length : Nat} {reserved : Bool} {r : Except Bool Handle}
    (hrun : (takeOrGrow kind length reserved).run heap = .ok (r, heap')) :
    heap'.tally = heap.tally := by
  obtain ⟨mid, hgrow, hlast⟩ := takeOrGrow_cases hrun
  have hroom : mid.tally = heap.tally := by
    rcases hgrow with rfl | ⟨room, hgrow⟩
    · rfl
    · rcases grow_cases hgrow with rfl | ⟨i, arena, event, -, rfl⟩
      · rfl
      · rfl
  rcases hlast with ⟨-, rfl⟩ | ⟨payload, chunks, claimed, -, hclaim, -⟩
  · exact hroom
  · exact (tally_claimCell? hclaim).trans hroom

theorem preservesFlags_allocateFast {kind : Kind} {length : Nat} (hs : heap.Sound)
    (hrun : (allocateFast kind length).run heap = .ok (h, heap')) : heap.PreservesFlags heap' := by
  have htally := tally_allocateFast hrun
  rcases gains_allocateFast hs hrun with ⟨-, hsame⟩ | hgains
  · exact .of_redrawn hsame htally
  · exact .of_gains hgains htally

theorem preservesFlags_takeOrGrow {kind : Kind} {length : Nat} {reserved : Bool} {r : Except Bool Handle}
    (hs : heap.Sound) (hkind : kind ≠ .free)
    (hrun : (takeOrGrow kind length reserved).run heap = .ok (r, heap')) : heap.PreservesFlags heap' := by
  have htally := tally_takeOrGrow hrun
  rcases gains_takeOrGrow hs hkind hrun with ⟨-, hsame⟩ | ⟨h, -, hgains⟩
  · exact .of_redrawn hsame htally
  · exact .of_gains hgains htally

end HeapM

end ManagedHeap
