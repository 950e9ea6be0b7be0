import ManagedHeap.Proofs.HostInvariant
import ManagedHeap.Proofs.ObjectGraph

/-!
# New objects, weak records and strings in the graph

A free cell that is taken adds one object, which refers to the permanent ones at most. A
collection takes objects away. Linking and unlinking a weak record, and caching a string,
change that one object, and the record in front of it.
-/

namespace ManagedHeap

/-- A cell as it is claimed. -/
def Cell.blank (kind : Kind) (payload : Payload) : Cell := { header := { kind }, payload }

def Graph.add (g : Graph) (h : Handle) (c : Cell) : Graph := fun k =>
  if k = h then some c else g k

theorem Graph.add_self {g : Graph} {h : Handle} {c : Cell} : g.add h c h = some c := if_pos rfl

theorem Graph.add_ne {g : Graph} {h k : Handle} {c : Cell} (hk : k ≠ h) : g.add h c k = g k :=
  if_neg hk

/-- The request was met with a fresh object, and nothing else is new. -/
structure Heap.Gains (heap heap' : Heap) (kind : Kind) (length : Nat) (h : Handle) : Prop where
  control : heap'.control = heap.control
  dead : heap.graph h = none
  graph : ∃ payload, Payload.forKind? kind length = some payload ∧
    heap'.graph = heap.graph.add h (.blank kind payload)

/-- A weak record in front of a chain. -/
def Cell.enlisted (key value finalizer next : Handle) (onExit : Bool) (c : Cell) : Cell :=
  { c.mapFlags fun fs => { fs with finalizeOnExit := fs.finalizeOnExit || onExit } with
    payload := .weakRef key value finalizer next }

namespace Cell

theorem blank_seen {kind : Kind} {length : Nat} {payload : Payload}
    (hp : Payload.forKind? kind length = some payload) :
    (blank kind payload).seen = blank kind payload := by
  have hforget : payload.forgetting = payload := by
    unfold Payload.forKind? at hp
    split at hp
    · exact nomatch hp
    · rw [Option.some.injEq] at hp
      subst hp
      cases kind <;> rfl
  change Cell.mk _ _ payload.forgetting = Cell.mk _ _ payload
  rw [hforget]
  rfl

theorem seen_emptied (c : Cell) : c.emptied.seen = c.seen.emptied.seen := by
  have hattached := attached_seen c
  change Cell.mk _ _ _ = Cell.mk _ _ _
  exact congrArg (fun x => Cell.mk c.emptied.seen.header x (.weakRef .nil .nil .nil .nil))
    hattached.symm

theorem seen_relinked (next : Handle) (c : Cell) :
    (c.relinked next).seen = (c.seen.relinked next).seen := by
  simp only [relinked_eq]
  refine seen_payload (fun p => ?_) c
  cases p <;> rfl

theorem seen_interned (bytes : Bytes) (encoding : Encoding) (hash : UInt32) (ascii : Bool)
    (c : Cell) : (interned bytes encoding hash ascii c).seen =
      (interned bytes encoding hash ascii c.seen).seen := rfl

end Cell

theorem Graph.edit_edit_self {g : Graph} {h : Handle} {f f' : Cell → Cell}
    (hf : ∀ c, (f c).seen = (f c.seen).seen) :
    (g.edit h f').edit h f = g.edit h fun c => f (f' c) := by
  funext k
  unfold edit
  split
  · cases g k with
    | none => rfl
    | some c => exact congrArg some (hf (f' c)).symm
  · rfl

namespace HeapM

open Arena

variable {heap heap' : Heap} {h : Handle} {kind : Kind} {u : PUnit}

theorem gains_claimCell? {length : Nat} {n : NodeClass} {payload : Payload} {chunks : Nat}
    {r : Option Handle} (hs : heap.Sound) (hkind : kind ≠ .free)
    (hp : Payload.forKind? kind length = some payload)
    (hrun : (claimCell? n kind payload chunks).run heap = .ok (r, heap')) :
    (r = none ∧ heap.Redrawn heap' heap.graph) ∨
      ∃ h, r = some h ∧ heap.Gains heap' kind length h := by
  rcases claimCell?_cases hrun with ⟨rfl, rfl⟩ | ⟨h, arena, generations, strategy, rfl, hclaim, rfl⟩
  · exact .inl ⟨rfl, .refl _⟩
  · obtain ⟨hdead, hcells⟩ := get?_claim hs.tidy hkind hclaim
    refine .inr ⟨h, rfl, rfl, Heap.graph_eq_none.mpr hdead, payload, hp, ?_⟩
    funext k
    change (arena.get? k).map Cell.seen = _
    rw [hcells]
    by_cases hk : k = h
    · subst hk
      rw [if_pos rfl, Graph.add_self]
      exact congrArg some (Cell.blank_seen hp)
    · rw [if_neg hk, Graph.add_ne hk]
      rfl

theorem redrawn_grow {n : NodeClass} {r : Bool}
    (hrun : (grow n).run heap = .ok (r, heap')) : heap.Redrawn heap' heap.graph := by
  rcases grow_cases hrun with rfl | ⟨i, arena, event, hsegment, rfl⟩
  · exact .refl _
  · refine ⟨rfl, ?_⟩
    funext k
    exact congrArg (Option.map Cell.seen) (get?_addSegment hsegment)

theorem gains_takeOrGrow {length : Nat} {reserved : Bool} {r : Except Bool Handle}
    (hs : heap.Sound) (hkind : kind ≠ .free)
    (hrun : (takeOrGrow kind length reserved).run heap = .ok (r, heap')) :
    ((∃ b, r = .error b) ∧ heap.Redrawn heap' heap.graph) ∨
      ∃ h, r = .ok h ∧ heap.Gains heap' kind length h := by
  obtain ⟨mid, hgrow, hlast⟩ := takeOrGrow_cases hrun
  obtain ⟨hmid, hroom⟩ : mid.Sound ∧ heap.Redrawn mid heap.graph := by
    rcases hgrow with rfl | ⟨room, hgrow⟩
    · exact ⟨hs, .refl _⟩
    · exact ⟨(run_grow hs hgrow).1, redrawn_grow hgrow⟩
  rcases hlast with ⟨hr, rfl⟩ | ⟨payload, chunks, claimed, hp, hclaim, hr⟩
  · exact .inl ⟨hr, hroom⟩
  · rcases gains_claimCell? hmid hkind hp hclaim with ⟨rfl, hlast⟩ | ⟨h, rfl, hgains⟩
    · obtain ⟨-, rfl⟩ | ⟨h, hno, -⟩ := hr
      · exact .inl ⟨⟨_, rfl⟩, hlast.control.trans hroom.control, hlast.graph.trans hroom.graph⟩
      · exact nomatch hno
    · obtain ⟨hno, -⟩ | ⟨h', hsame, rfl⟩ := hr
      · exact nomatch hno
      · obtain rfl := Option.some.inj hsame
        obtain ⟨hcontrol, hdead, payload, hpayload, hgraph⟩ := hgains
        rw [hroom.graph] at hdead hgraph
        exact .inr ⟨h, rfl, hcontrol.trans hroom.control, hdead, payload, hpayload, hgraph⟩

theorem gains_allocateFast {length : Nat} (hs : heap.Sound)
    (hrun : (allocateFast kind length).run heap = .ok (h, heap')) :
    (h = .noObject ∧ heap.Redrawn heap' heap.graph) ∨ heap.Gains heap' kind length h := by
  rcases allocateFast_cases hrun with ⟨rfl, rfl⟩ | ⟨hkind, payload, claimed, hp, hclaim, rfl⟩
  · exact .inl ⟨rfl, .refl _⟩
  · rcases gains_claimCell? hs hkind hp hclaim with ⟨rfl, hlast⟩ | ⟨h, rfl, hgains⟩
    · exact .inl ⟨rfl, hlast⟩
    · exact .inr hgains

theorem run_linkWeakRef {key value finalizer : Handle} {onExit : Bool}
    (hrun : (linkWeakRef h key value finalizer onExit).run heap = .ok (u, heap')) :
    (∃ c, heap.arena.get? h = some c) ∧
      heap'.control = { heap.control with weak := ⟨h, heap.weak.length + 1⟩ } ∧
      heap'.graph = heap.graph.edit h (Cell.enlisted key value finalizer heap.weak.head onExit) := by
  simp only [linkWeakRef, run_bind, run_get] at hrun
  obtain ⟨_, _, ⟨rfl, rfl⟩, _, mid, hfill, hrun⟩ := hrun
  obtain ⟨hc, hmid⟩ := redrawn_updateCell
    (fun c => { c with payload := .weakRef key value finalizer heap.weak.head })
    (fun _ => rfl) (Cell.seen_payload (f := fun _ => .weakRef key value finalizer heap.weak.head)
      fun _ => rfl) hfill
  refine ⟨hc, ?_⟩
  cases onExit with
  | false =>
    simp only [Bool.false_eq_true, if_false, pushRecord, run_modify] at hrun
    subst hrun
    refine ⟨?_, hmid.graph.trans (Graph.edit_congr fun c _ => ?_)⟩
    · rw [← hmid.control]
      have hweak : mid.weak = heap.weak := congrArg Control.weak hmid.control
      simp only [Heap.control, hweak]
    · simp only [Cell.enlisted, Cell.mapFlags, Bool.or_false]
  | true =>
    have hflag : ∀ c : Cell, (c.mapFlags fun fs => { fs with finalizeOnExit := true }).seen =
        (c.seen.mapFlags fun fs => { fs with finalizeOnExit := true }).seen :=
      Cell.seen_mapFlags (fun _ => rfl) fun _ => rfl
    simp only [if_true, run_bind, pushRecord, run_modify] at hrun
    obtain ⟨_, next, hput, rfl⟩ := hrun
    obtain ⟨-, hnext⟩ := redrawn_updateCell
      (Cell.mapFlags fun fs => { fs with finalizeOnExit := true }) (fun _ => rfl) hflag hput
    refine ⟨?_, ?_⟩
    · rw [← hmid.control, ← hnext.control]
      have hweak : next.weak = heap.weak :=
        congrArg Control.weak (hnext.control.trans hmid.control)
      simp only [Heap.control, hweak]
    · refine hnext.graph.trans ?_
      rw [hmid.graph, Graph.edit_edit_self hflag]
      refine Graph.edit_congr fun c _ => ?_
      simp only [Cell.enlisted, Cell.mapFlags, Bool.or_true]

theorem run_unlinkWeakRef {record hint : Handle}
    (hrun : (unlinkWeakRef record hint).run heap = .ok (u, heap')) :
    ∃ fields previous, heap.arena.Record record fields ∧
      (predecessor record hint).run heap = .ok (previous, heap) ∧
      heap'.control = { heap.control with weak :=
        ⟨if previous.isNil then fields.next else heap.weak.head, heap.weak.length - 1⟩ } ∧
      heap'.graph = (if previous.isNil then heap.graph
        else heap.graph.edit previous (Cell.relinked fields.next)).edit record Cell.emptied := by
  simp only [unlinkWeakRef, chainFields, run_bind, run_get, run_lift, run_flags] at hrun
  obtain ⟨fields, _, ⟨_, _, ⟨rfl, rfl⟩, hfields, rfl⟩, previous, mid, hprevious, fs, _,
    ⟨c, hc, hfs, rfl⟩, hrun⟩ := hrun
  obtain rfl := Reads.predecessor _ _ _ hprevious
  refine ⟨fields, previous, weakFields_eq_ok.mp hfields, hprevious, ?_⟩
  have hend : ∀ start : Heap, (clearRecord record fs.readyToFinalize).run start = .ok (u, heap') →
      heap'.control = { start.control with weak := ⟨start.weak.head, start.weak.length - 1⟩ } ∧
        heap'.graph = start.graph.edit record Cell.emptied := by
    intro start hrun
    simp only [clearRecord, run_bind, run_modify] at hrun
    obtain ⟨_, next, hput, rfl⟩ := hrun
    obtain ⟨-, hnext⟩ := redrawn_updateCell Cell.emptied (fun _ => rfl) Cell.seen_emptied hput
    refine ⟨?_, hnext.graph⟩
    have hweak : next.weak = start.weak := congrArg Control.weak hnext.control
    rw [← hnext.control]
    simp only [Heap.control, hweak]
  split at hrun
  · rename_i hfirst
    rw [if_pos hfirst, if_pos hfirst]
    obtain ⟨_, next, hhead, hrun⟩ := run_bind.mp hrun
    obtain rfl := run_modify.mp hhead
    exact hend _ hrun
  · rename_i hlater
    rw [if_neg hlater, if_neg hlater]
    obtain ⟨_, next, hrelink, hrun⟩ := run_bind.mp hrun
    obtain ⟨-, hnext⟩ := redrawn_updateCell (Cell.relinked fields.next)
      (fun c => by rw [Cell.relinked_eq]; rfl) (Cell.seen_relinked fields.next) hrelink
    obtain ⟨hcontrol, hgraph⟩ := hend next hrun
    have hweak : next.weak = mid.weak := congrArg Control.weak hnext.control
    rw [hnext.graph] at hgraph
    refine ⟨?_, hgraph⟩
    rw [hcontrol, hnext.control, hweak]

theorem redrawn_cacheString {c : Cell} {bytes : Bytes} {encoding : Encoding} {hash : UInt32}
    {ascii : Bool} (hs : heap.Sound) (hc : heap.arena.get? h = some c)
    (huncached : c.flags.cached = false) (hperm : c.flags.permanent = false)
    (hrun : (cacheString h bytes encoding hash ascii).run heap = .ok (u, heap')) :
    heap.Redrawn heap' (heap.graph.edit h (Cell.interned bytes encoding hash ascii)) := by
  obtain ⟨on, hon⟩ := hs.chained
  obtain ⟨arena, strings, journal, on', rfl, hrelinks, -⟩ :=
    run_cacheString (hs.ne_nil hc hperm) hc huncached hon hrun
  refine ⟨rfl, ?_⟩
  rw [← Heap.graph_setCell (Cell.interned bytes encoding hash ascii)
    (fun _ => rfl) (Cell.seen_interned bytes encoding hash ascii)]
  funext k
  change (arena.get? k).map Cell.seen = ((heap.arena.setCell h _).get? k).map Cell.seen
  cases hk : (heap.arena.setCell h (Cell.interned bytes encoding hash ascii)).get? k with
  | some d =>
    obtain ⟨e, he, hed⟩ := hrelinks.unlinked hk
    rw [he]
    exact congrArg some (Cell.seen_of_unlinked hed)
  | none =>
    cases he : arena.get? k with
    | none => rfl
    | some e =>
      obtain ⟨d, hd, -⟩ := hrelinks.symm.unlinked he
      rw [hk] at hd
      exact nomatch hd

end HeapM

namespace Collected

variable {heap heap' : Heap} {level : Level} {records : List Handle} {o : Outcome} {h : Handle}
  {c d : Cell}

theorem control (hcol : Collected level records heap heap' o) :
    heap'.control = { heap.control with tasks := heap.quietTasks level } := by
  obtain ⟨arena, generations, strategy, strings, remembered, counters, journal, rfl⟩ := hcol.rest
  rfl

end Collected

end ManagedHeap
