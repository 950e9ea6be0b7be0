import ManagedHeap.Proofs.SlotCounts
import ManagedHeap.Proofs.InPlaceChanges

/-!
# Operations that settle their counts

Every operation counts a reference for each slot that it fills, before or after. Only three may end
with a debt: writing the value of a removed binding's cell, removing a binding, whose cell keeps
its value, and releasing a reference outright.
-/

namespace ManagedHeap

/-- No slots run ahead of their counts. -/
def Heap.Settles (heap heap' : Heap) : Prop := Graph.Owes 0 heap.graph heap'.graph

namespace Heap.Settles

variable {heap mid heap' : Heap}

theorem refl (heap : Heap) : heap.Settles heap := Graph.Owes.refl _

theorem trans (hfirst : heap.Settles mid) (hlast : mid.Settles heap') : heap.Settles heap' :=
  (Graph.Owes.trans hfirst hlast).mono fun _ _ _ => by simp

theorem of_graph (hg : heap'.graph = heap.graph) : heap.Settles heap' := .of_eq hg

theorem aside (harena : heap'.arena = heap.arena) : heap.Settles heap' :=
  of_graph (by unfold graph; rw [harena])

end Heap.Settles

def Cell.naming (c : Cell) : Cell :=
  (c.mapFlags fun fs => { fs with symbolName := true }).mapRefCount .increment

/-- A payload is covered by the references that are counted for it. -/
def Payload.Covered (p : Payload) (slots : List Handle) : Prop :=
  ∀ o, o ≠ .nil → o ≠ .unbound → (p.children true).count o ≤ slots.count o

namespace Payload.Covered

variable {p : Payload} {slots : List Handle}

theorem refl (p : Payload) : p.Covered (p.children true) := fun _ _ _ => Nat.le_refl _

theorem of_append (permanent : List Handle) (hp : p.children true = slots ++ permanent)
    (hpermanent : ∀ k ∈ permanent, k = .nil ∨ k = .unbound) : p.Covered slots := by
  intro o hnil hunbound
  have hnone : permanent.count o = 0 := List.count_eq_zero.mpr fun ho =>
    (hpermanent o ho).elim hnil hunbound
  rw [hp, List.count_append, hnone]
  exact Nat.le_refl _

end Payload.Covered

namespace HeapM

open Arena

variable {α β : Type} {heap heap' : Heap} {x act : HeapM α} {g : α → HeapM β}
  {h value old : Handle} {f : Cell → Cell} {u : PUnit}

def Settles (act : HeapM α) : Prop :=
  ∀ heap a heap', act.run heap = .ok (a, heap') → heap.Settles heap'

namespace Settles

theorem bind (hx : Settles x) (hg : ∀ a, Settles (g a)) : Settles (x >>= g) := by
  intro heap b heap' hrun
  obtain ⟨a, mid, hfirst, hrest⟩ := run_bind.mp hrun
  exact (hx heap a mid hfirst).trans (hg a mid b heap' hrest)

theorem of_reads (hx : Reads x) : Settles x := by
  intro heap a heap' hrun
  obtain rfl := hx heap a heap' hrun
  exact .refl _

theorem pure {a : α} : Settles (pure a) := of_reads .pure

theorem throw {e : Fault} : Settles (throw e : HeapM α) := of_reads .throw

theorem modify {f : Heap → Heap} (harena : ∀ heap, (f heap).arena = heap.arena) :
    Settles (modify f) := by
  intro heap u heap' hrun
  obtain rfl := run_modify.mp hrun
  exact .aside (harena heap)

theorem note {e : Event} : Settles (note e) := modify fun _ => rfl

theorem modifyRoots {f : RootSet → RootSet} : Settles (modifyRoots f) := modify fun _ => rfl

theorem modifyFinalizers {f : FinalizerState → FinalizerState} : Settles (modifyFinalizers f) :=
  modify fun _ => rfl

theorem noteCall {record function key : Handle} : Settles (noteCall record function key) :=
  modify fun _ => rfl

theorem countRun : Settles countRun := modify fun _ => rfl

theorem onProtect {f : ProtectStack → Except Fault (α × ProtectStack)} : Settles (onProtect f) := by
  intro heap a heap' hrun
  simp only [HeapM.onProtect, StateT.run] at hrun
  split at hrun
  · rw [Except.ok.injEq, Prod.mk.injEq] at hrun
    obtain ⟨-, rfl⟩ := hrun
    exact .aside rfl
  · cases hrun

theorem updateCell (hfree : ∀ c, (f c).isFree = c.isFree) (hf : ∀ c, (f c).seen = (f c.seen).seen)
    (hcount : ∀ c, (f c).header.refcount = c.header.refcount)
    (hslots : ∀ (c : Cell) removed, ((f c).counted removed).Sublist (c.counted removed)) :
    Settles (updateCell h f) := by
  intro heap u heap' hrun
  rw [Heap.Settles, (redrawn_updateCell f hfree hf hrun).2.graph]
  exact Graph.owes_none hcount hslots

theorem mapFlags {f : Flags → Flags} (hcached : ∀ fs, (f fs).cached = fs.cached)
    (hf : ∀ fs, (f fs).shown = (f fs.shown).shown) :
    Settles (HeapM.updateCell h (Cell.mapFlags f)) :=
  updateCell (fun _ => rfl) (Cell.seen_mapFlags hcached hf) (fun _ => rfl) fun c removed => by
    have hsame : (c.mapFlags f).flags.cached = c.flags.cached := hcached c.flags
    unfold Cell.counted Cell.attributes
    rw [hsame]
    exact .refl _

theorem mapPayload {f : Payload → Payload} (hf : ∀ p, (f p).forgetting = (f p.forgetting).forgetting)
    (hslots : ∀ p removed, ((f p).counted removed).Sublist (p.counted removed)) :
    Settles (HeapM.updateCell h fun c => { c with payload := f c.payload }) :=
  updateCell (fun _ => rfl) (Cell.seen_payload hf) (fun _ => rfl) fun c removed =>
    .append_left (hslots c.payload removed) c.attributes

theorem noteWrite : Settles (noteWrite h) := fun _ _ _ hrun => .of_graph (redrawn_noteWrite hrun).graph

theorem incrementRefCount : Settles (incrementRefCount h) := by
  intro heap u heap' hrun
  rw [Heap.Settles, (redrawn_incrementRefCount hrun).2.graph]
  refine (Graph.owes_count h).mono fun o _ _ => ?_
  simp only [Pi.neg_apply, Handle.debt, Pi.zero_apply]
  split <;> omega

theorem swap {c : Cell} {p : Payload} (hc : heap.arena.get? h = some c)
    (hslots : ∀ removed o, ((p.counted removed).count o : ℤ) + old.debt o ≤
      (c.payload.counted removed).count o + value.debt o)
    (hg : heap'.graph = (heap.graph.edit h fun c => { c with payload := p }).recount old value) :
    heap.Settles heap' := by
  rw [Heap.Settles, hg]
  exact Graph.owes_swap (Heap.graph_of_get? hc) fun removed o => by
    rw [Cell.seen, Payload.counted_forgetting]
    exact hslots removed o

theorem setCdr : Settles (setCdr h value) := by
  intro heap u heap' hrun
  obtain ⟨c, car, cdr, tag, hc, hp, hlast⟩ := redrawn_setCdr hrun
  refine swap hc (fun removed o => ?_) hlast.graph
  rw [hp]
  cases removed <;> simp only [Payload.counted, Handle.count_cons, if_true, if_false,
    Bool.false_eq_true] <;> omega

theorem setTag : Settles (setTag h value) := by
  intro heap u heap' hrun
  obtain ⟨c, car, cdr, tag, hc, hp, hlast⟩ := redrawn_setTag hrun
  refine swap hc (fun removed o => ?_) hlast.graph
  rw [hp]
  cases removed <;> simp only [Payload.counted, Handle.count_cons, if_true, if_false,
    Bool.false_eq_true] <;> omega

theorem setFrame : Settles (setFrame h value) := by
  intro heap u heap' hrun
  obtain ⟨c, frame, enclos, hc, hp, hlast⟩ := redrawn_setFrame hrun
  refine swap hc (fun removed o => ?_) hlast.graph
  rw [hp]
  simp only [Payload.counted, Payload.children, Handle.count_cons]
  omega

theorem setSymbolValue : Settles (setSymbolValue h value) := by
  intro heap u heap' hrun
  obtain ⟨c, name, old, internal, lastEnv, hc, hp, hlast⟩ := redrawn_setSymbolValue hrun
  refine swap hc (fun removed o => ?_) hlast.graph
  rw [hp]
  simp only [Payload.counted, Payload.children, if_true, Handle.count_cons]
  omega

theorem setPromiseValue : Settles (setPromiseValue h value) := by
  intro heap u heap' hrun
  obtain ⟨c, expr, env, old, hc, hp, hlast⟩ := redrawn_setPromiseValue hrun
  rw [Heap.Settles, hlast.graph]
  have hput : Graph.Owes (value.debt + Handle.nil.debt - old.debt - env.debt) heap.graph
      (heap.graph.edit h fun c => { c with payload := .promise expr .nil value }) := by
    refine Graph.owes_payload (Heap.graph_of_get? hc) fun removed o _ _ => ?_
    rw [Cell.seen, Payload.counted_forgetting, hp]
    simp only [Payload.counted, Payload.children, Handle.count_cons, Pi.sub_apply, Pi.add_apply]
    omega
  exact ((hput.trans (Graph.owes_replace old value)).trans (Graph.owes_replace env .nil)).mono
    fun o _ _ => by
      simp only [Pi.sub_apply, Pi.add_apply, Pi.zero_apply]
      omega

theorem setVectorElt {i : Nat} : Settles (setVectorElt h i value) := by
  intro heap r heap' hrun
  rcases redrawn_setVectorElt hrun with ⟨-, hlast⟩ | ⟨c, elements, old, hc, hp, hold, -, hlast⟩
  · exact .of_graph hlast.graph
  · refine swap hc (fun removed o => ?_) hlast.graph
    rw [hp]
    have hi : i < elements.toList.length := (Array.getElem?_eq_some_iff.mp hold).1
    have hat : elements.toList[i] = old := by
      rw [Array.getElem_toList]
      exact (Array.getElem?_eq_some_iff.mp hold).2
    have hsplit : ∀ x, ((elements.toList.set i x).count o : ℤ) =
        ((elements.toList.take i ++ elements.toList.drop (i + 1)).count o : ℤ) + x.debt o := by
      intro x
      rw [List.set_eq_take_append_cons_drop, if_pos hi, List.count_append, List.count_append]
      have := Handle.count_cons o x (elements.toList.drop (i + 1))
      push_cast
      omega
    have hsame : elements.toList.set i old = elements.toList := hat ▸ List.set_getElem_self hi
    simp only [Payload.counted, Payload.children, Array.toList_setIfInBounds]
    rw [← hsame, List.set_set, hsplit, hsplit]
    omega

theorem setAttrib : Settles (setAttrib h value) := by
  intro heap u heap' hrun
  obtain ⟨c, hc, huncached, hlast⟩ := redrawn_setAttrib hrun
  rw [Heap.Settles, hlast.graph]
  have hseen : c.seen.flags.cached = false := huncached
  have hattached : c.seen.attrib = c.attrib := by
    change c.attached = c.attrib
    rw [Cell.attached, huncached]
    rfl
  have hput : Graph.Owes (value.debt - c.attrib.debt) heap.graph
      (heap.graph.edit h fun c => { c with attrib := value }) := by
    refine Graph.owes_edit (Heap.graph_of_get? hc) rfl fun removed o _ _ => ?_
    have hnew : ({ c.seen with attrib := value } : Cell).counted removed =
        value :: c.seen.payload.counted removed := by
      rw [Cell.counted, Cell.attributes, if_neg (by rw [Bool.not_eq_true]; exact hseen)]
      rfl
    have hnow : c.seen.counted removed = c.attrib :: c.seen.payload.counted removed := by
      rw [Cell.counted, Cell.attributes, if_neg (by rw [hseen]; exact Bool.false_ne_true), hattached]
      rfl
    rw [hnew, hnow, Handle.count_cons, Handle.count_cons, Pi.sub_apply]
    omega
  exact (hput.trans (Graph.owes_replace c.attrib value)).mono fun o _ _ => by simp

theorem setObjectBit {b : Bool} : Settles (setObjectBit h b) := mapFlags (fun _ => rfl) fun _ => rfl

theorem touch : Settles (touch h) := bind noteWrite fun _ => of_reads .length

theorem rewrite_bind {p : Payload} {b : β} (hnone : ∀ removed, p.counted removed = []) : Settles (do
    HeapM.updateCell h fun c => { c with payload := p }
    return b) :=
  bind (mapPayload (f := fun _ => p) (fun _ => rfl) fun q removed => by
    rw [hnone]
    exact List.nil_sublist _) fun _ => pure

theorem opened : Settles (HeapM.updateCell h id) := by
  intro heap u heap' hrun
  obtain ⟨-, rfl⟩ := run_updateCell.mp hrun
  exact .of_graph (Heap.graph_setCell_of_seen id (fun _ => rfl) fun _ => rfl)

theorem setRealData {values : Array Float} : Settles (setRealData h values) := by
  refine bind opened fun _ => bind (of_reads .payload) fun p => ?_
  cases p
  case real elements => exact rewrite_bind fun _ => rfl
  all_goals exact throw

theorem setIntegerData {values : Array Int32} : Settles (setIntegerData h values) := by
  refine bind opened fun _ => bind (of_reads .payload) fun p => ?_
  cases p
  case integer elements | logical elements => exact rewrite_bind fun _ => rfl
  all_goals exact throw

theorem setRawData {values : Bytes} : Settles (setRawData h values) := by
  refine bind noteWrite fun _ => bind (of_reads .payload) fun p => ?_
  cases p
  case raw elements => exact rewrite_bind fun _ => rfl
  all_goals exact pure

theorem findVar {env sym : Handle} : Settles (findVar env sym) := by
  refine bind (of_reads .walkBound) fun fuel => ?_
  induction fuel generalizing env with
  | zero => exact throw
  | succ fuel ih =>
    unfold HeapM.searchEnvironments
    split
    · exact bind (of_reads .symbolValue) fun base => pure
    · refine bind (of_reads .findVarInFrame) fun found => ?_
      cases found with
      | none => exact bind (of_reads .envEnclos) fun outer => ih
      | some value =>
        refine bind (x := HeapM.updateCell sym (Cell.foundIn env)) ?_ fun _ => pure
        rw [funext (Cell.foundIn_eq env)]
        refine mapPayload (fun p => ?_) fun p removed => ?_
        · cases p <;> rfl
        · cases p <;> exact .refl _

theorem pushRoot : Settles (pushRoot h) := by
  refine bind onProtect fun result => ?_
  split
  · exact bind note fun _ => pure
  · exact pure

theorem closeScope {base : Nat} : Settles (closeScope base) := by
  refine bind (of_reads .protectDepth) fun depth => ?_
  split
  · exact throw
  · exact modify fun _ => rfl

theorem leaveRecovery {scope : RecoveryScope} : Settles (leaveRecovery scope) := by
  refine bind (of_reads .enterRecovery) fun now => ?_
  split
  · exact throw
  · exact bind (modify fun _ => rfl) fun _ => bind modifyRoots fun _ => pure

theorem flagOnExit (records : List Handle) : Settles (flagOnExit records) := by
  induction records with
  | nil => exact pure
  | cons record records ih =>
    exact bind (mapFlags (fun _ => rfl) fun _ => rfl) fun _ => ih

theorem awaitOutput : Settles (awaitOutput h) := by
  refine bind (of_reads .get) fun heap => ?_
  split
  · exact modify fun _ => rfl
  · exact pure

theorem task {a : Session.TaskAction} : Settles (Session.task a h) :=
  bind (modify fun _ => rfl) fun _ => bind (of_reads .get) fun _ => pure

theorem unlinkWeakRef {record hint : Handle} : Settles (unlinkWeakRef record hint) := by
  intro heap u heap' hrun
  obtain ⟨fields, previous, -, -, -, hgraph⟩ := run_unlinkWeakRef hrun
  rw [Heap.Settles, hgraph]
  have hempty : ∀ g : Graph, Graph.Owes 0 g (g.edit record Cell.emptied) := fun g =>
    Graph.owes_none (fun _ => rfl) fun c removed =>
      .append_left (List.nil_sublist (c.payload.counted removed)) c.attributes
  split
  · exact hempty _
  · have hrelink : Graph.Owes 0 heap.graph (heap.graph.edit previous (Cell.relinked fields.next)) := by
      rw [funext (Cell.relinked_eq fields.next)]
      refine Graph.owes_none (fun _ => rfl) fun c removed => .append_left ?_ c.attributes
      change ((c.payload.relinked fields.next).counted removed).Sublist _
      cases c.payload <;> exact .refl _
    exact (hrelink.trans (hempty _)).mono fun _ _ _ => by simp

theorem linkWeakRef {key value finalizer : Handle} {onExit : Bool} :
    Settles (linkWeakRef h key value finalizer onExit) := by
  intro heap u heap' hrun
  obtain ⟨-, -, hgraph⟩ := run_linkWeakRef hrun
  rw [Heap.Settles, hgraph]
  exact Graph.owes_none (fun _ => rfl) fun c removed =>
    .append_left (List.nil_sublist (c.payload.counted removed)) c.attributes

theorem cacheString {bytes : Bytes} {encoding : Encoding} {hash : UInt32} {ascii : Bool}
    (hs : heap.Sound) (hb : heap.Fresh .charString h)
    (hrun : (HeapM.cacheString h bytes encoding hash ascii).run heap = .ok (u, heap')) :
    heap.Settles heap' := by
  obtain ⟨c, hc, hheader⟩ := hb
  have huncached : c.flags.cached = false := by rw [Cell.flags, hheader]
  have hperm : c.flags.permanent = false := by rw [Cell.flags, hheader]
  rw [Heap.Settles, (redrawn_cacheString hs hc huncached hperm hrun).graph]
  exact Graph.owes_none (fun _ => rfl) fun c removed => List.nil_sublist _

theorem grow {n : NodeClass} : Settles (grow n) :=
  fun _ _ _ hrun => .of_graph (redrawn_grow hrun).graph

end Settles

theorem owes_setPayload {payload : Payload}
    (hrun : (HostM.setPayload h payload).run heap = .ok (u, heap')) :
    Graph.Owes (fun o => (payload.children true).count o) heap.graph heap'.graph := by
  obtain ⟨⟨c, hc⟩, hlast⟩ := redrawn_updateCell (fun c => { c with payload }) (fun _ => rfl)
    (Cell.seen_payload (f := fun _ => payload) fun _ => rfl) hrun
  rw [hlast.graph]
  refine Graph.owes_payload (Heap.graph_of_get? hc) fun removed o _ _ => ?_
  have hle := (payload.counted_sublist removed).count_le o
  omega

theorem owes_countReferences (hs : List Handle)
    (hrun : (HostM.countReferences hs).run heap = .ok (u, heap')) :
    Graph.Owes (fun o => -(hs.count o)) heap.graph heap'.graph := by
  rw [(redrawn_countReferences hrun).graph]
  generalize heap.graph = g
  clear hrun
  induction hs generalizing g with
  | nil => exact (Graph.Owes.refl g).mono fun o _ _ => by simp
  | cons h hs ih =>
    refine ((Graph.owes_count h).trans (ih _)).mono fun o _ _ => ?_
    simp only [Pi.add_apply, Pi.neg_apply, Handle.count_cons]
    omega

theorem owes_naming {name : Handle} (hrun : (updateCell name Cell.naming).run heap = .ok (u, heap')) :
    Graph.Owes (-name.debt) heap.graph heap'.graph := by
  have hflag : ∀ c : Cell, (c.mapFlags fun fs => { fs with symbolName := true }).seen =
      (c.seen.mapFlags fun fs => { fs with symbolName := true }).seen :=
    Cell.seen_mapFlags (fun _ => rfl) fun _ => rfl
  have hseen : ∀ c : Cell, c.naming.seen = c.seen.naming.seen := fun c => by
    rw [Cell.naming, Cell.seen_mapRefCount, hflag, ← Cell.seen_mapRefCount, Cell.naming]
  rw [(redrawn_updateCell Cell.naming (fun _ => rfl) hseen hrun).2.graph]
  have hsplit : (heap.graph.edit name (Cell.mapFlags fun fs => { fs with symbolName := true })).edit
      name (Cell.mapRefCount .increment) = heap.graph.edit name Cell.naming :=
    Graph.edit_edit_self (Cell.seen_mapRefCount .increment)
  rw [← hsplit]
  have hflagged : Graph.Owes 0 heap.graph
      (heap.graph.edit name (Cell.mapFlags fun fs => { fs with symbolName := true })) :=
    Graph.owes_none (fun _ => rfl) fun _ _ => .refl _
  exact (hflagged.trans (Graph.owes_count name)).mono fun o _ _ => by simp

theorem owes_named {sym name : Handle}
    (hrun : (updateCell sym (Cell.named name)).run heap = .ok (u, heap')) :
    Graph.Owes name.debt heap.graph heap'.graph := by
  rw [funext (Cell.named_eq name)] at hrun
  obtain ⟨⟨c, hc⟩, hlast⟩ := redrawn_updateCell (fun c => { c with payload := c.payload.named name })
    (fun _ => rfl) (Cell.seen_payload (f := Payload.named name) fun p => by cases p <;> rfl) hrun
  rw [hlast.graph]
  refine Graph.owes_edit (Heap.graph_of_get? hc) rfl fun removed o _ _ => ?_
  change (((c.seen.attributes ++ (c.seen.payload.named name).counted removed).count o : ℕ) : ℤ) ≤ _
  rw [Cell.counted, List.count_append, List.count_append]
  have hmore : (((c.seen.payload.named name).counted removed).count o : ℤ) ≤
      (c.seen.payload.counted removed).count o + name.debt o := by
    have hdebt : 0 ≤ name.debt o := by
      unfold Handle.debt
      split <;> omega
    cases c.seen.payload with
    | symbol old value internal lastEnv =>
      have hnew := Handle.count_cons o name [value, internal]
      have hold := (List.sublist_cons_self old [value, internal]).count_le o
      change ((([name, value, internal] : List Handle).count o : ℕ) : ℤ) ≤
        (([old, value, internal] : List Handle).count o : ℕ) + name.debt o
      omega
    | _ => exact Int.le_add_of_nonneg_right hdebt
  omega

theorem Settles.nameSymbol {sym name : Handle} : Settles (nameSymbol sym name) := by
  intro heap u heap' hrun
  obtain ⟨_, mid, hflag, hname⟩ := run_bind.mp hrun
  exact ((owes_naming hflag).trans (owes_named hname)).mono fun o _ _ => by simp

end HeapM

end ManagedHeap
