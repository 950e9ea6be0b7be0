import ManagedHeap.Proofs.CallArguments
import ManagedHeap.Proofs.PermanentObjects

/-!
# Copies are isolated

A copy is structurally what the original was when the copy was asked for, and it is made of
objects that were allocated for it. What could be reached before is as it was, but that it counts
the new references, and what is written to the copy later does not show in the original.
-/

namespace ManagedHeap

/-- The calls that write to an object. -/
inductive Overwrite
  | slot (s : Session.Setter) (value : Handle)
  | element (i : Nat) (value : Handle)
  | objectBit (object : Bool)
  | real (values : Array Float)
  | integer (values : Array Int32)
  | raw (values : Bytes)

/-- Write to an object. -/
def Overwrite.run (t : Handle) : Overwrite → HeapM Unit
  | slot s value => Session.set s t value
  | element i value => do let _ ← HeapM.setVectorElt t i value
  | objectBit object => HeapM.setObjectBit t object
  | real values => do let _ ← HeapM.setRealData t values
  | integer values => do let _ ← HeapM.setIntegerData t values
  | raw values => do let _ ← HeapM.setRawData t values

/-- Any number of writes to objects in `cells`. -/
inductive Heap.Overwritten (cells : Finset Handle) : Heap → Heap → Prop
  | refl {heap : Heap} : Overwritten cells heap heap
  | tail {heap mid heap' : Heap} {t : Handle} {w : Overwrite} : Overwritten cells heap mid →
      t ∈ cells → (w.run t).run mid = .ok ((), heap') → Overwritten cells heap heap'

def HeapM.Confined {α : Type} (t : Handle) (act : HeapM α) : Prop :=
  ∀ heap a heap', act.run heap = .ok (a, heap') → Graph.Agrees (· = t) heap.graph heap'.graph

namespace HeapM.Confined

variable {α β : Type} {t : Handle} {x : HeapM α} {f : α → HeapM β}

theorem bind (hx : Confined t x) (hf : ∀ a, Confined t (f a)) : Confined t (x >>= f) := by
  intro heap b heap' hrun
  obtain ⟨a, mid, hfirst, hrest⟩ := run_bind.mp hrun
  exact (hx heap a mid hfirst).trans (hf a mid b heap' hrest)

theorem of_reads (hx : Reads x) : Confined t x := fun heap a heap' hrun => by
  obtain rfl := hx heap a heap' hrun
  exact .refl

theorem pure {a : α} : Confined t (pure a : HeapM α) := of_reads .pure

theorem throw {e : Fault} : Confined t (throw e : HeapM α) := fun _ _ _ hrun => nomatch hrun

theorem updateCell {f : Cell → Cell} : Confined t (updateCell t f) := by
  intro heap u heap' hrun k c hk hc
  obtain ⟨-, rfl⟩ := run_updateCell.mp hrun
  obtain ⟨d, hd, rfl⟩ := Heap.graph_eq_some.mp hc
  exact ⟨d.seen, Heap.graph_of_get? ((Arena.get?_setCell_ne hk).trans hd), rfl⟩

theorem noteWrite : Confined t (noteWrite t) := fun _ _ _ hrun =>
  (redrawn_noteWrite hrun).graph ▸ .refl

theorem set (s : Session.Setter) (value : Handle) : Confined t (Session.set s t value) := by
  intro heap u heap' hrun
  cases s with
  | car =>
    obtain ⟨_, _, _, _, -, -, hr⟩ := redrawn_setCar hrun
    exact hr.graph ▸ .trans (.edit rfl) .recount
  | cdr =>
    obtain ⟨_, _, _, _, -, -, hr⟩ := redrawn_setCdr hrun
    exact hr.graph ▸ .trans (.edit rfl) .recount
  | tag =>
    obtain ⟨_, _, _, _, -, -, hr⟩ := redrawn_setTag hrun
    exact hr.graph ▸ .trans (.edit rfl) .recount
  | attrib =>
    obtain ⟨_, -, -, hr⟩ := redrawn_setAttrib hrun
    exact hr.graph ▸ .trans (.edit rfl) .recount
  | promiseValue =>
    obtain ⟨_, _, _, _, -, -, hr⟩ := redrawn_setPromiseValue hrun
    exact hr.graph ▸ .trans (.edit rfl) (.trans .recount .recount)
  | symbolValue =>
    obtain ⟨_, _, _, _, _, -, -, hr⟩ := redrawn_setSymbolValue hrun
    exact hr.graph ▸ .trans (.edit rfl) .recount

theorem setVectorElt {i : Nat} {value : Handle} : Confined t (setVectorElt t i value) := by
  intro heap r heap' hrun
  rcases redrawn_setVectorElt hrun with ⟨-, hr⟩ | ⟨_, _, _, -, -, -, -, hr⟩
  · exact hr.graph ▸ .refl
  · exact hr.graph ▸ .trans (.edit rfl) .recount

theorem setRealData {values : Array Float} : Confined t (setRealData t values) := by
  refine .bind updateCell fun _ => .bind (of_reads .payload) fun p => ?_
  split
  · exact .bind updateCell fun _ => pure
  · exact throw

theorem setIntegerData {values : Array Int32} : Confined t (setIntegerData t values) := by
  refine .bind updateCell fun _ => .bind (of_reads .payload) fun p => ?_
  split
  · exact .bind updateCell fun _ => pure
  · exact .bind updateCell fun _ => pure
  · exact throw

theorem setRawData {values : Bytes} : Confined t (setRawData t values) := by
  refine .bind noteWrite fun _ => .bind (of_reads .payload) fun p => ?_
  split
  · exact .bind updateCell fun _ => pure
  · exact pure

end HeapM.Confined

theorem Overwrite.confined (t : Handle) (w : Overwrite) : (w.run t).Confined t := by
  cases w with
  | slot s value => exact .set s value
  | element i value => exact .bind .setVectorElt fun _ => .pure
  | objectBit object => exact .updateCell
  | real values => exact .bind .setRealData fun _ => .pure
  | integer values => exact .bind .setIntegerData fun _ => .pure
  | raw values => exact .bind .setRawData fun _ => .pure

theorem Heap.Overwritten.agrees {cells : Finset Handle} {heap heap' : Heap}
    (hw : Overwritten cells heap heap') : Graph.Agrees (· ∈ cells) heap.graph heap'.graph := by
  induction hw with
  | refl => exact .refl
  | tail _ ht hrun ih => exact ih.trans ((Overwrite.confined _ _ _ _ _ hrun).mono fun _ hk => hk ▸ ht)

/-- The copy `r` of `h` is made of the objects in `cells`, and nothing that could be reached from
the roots, the protection stack, the symbol table or the original was touched, but that each new
reference is counted. A weak record that has no finalizer may have been cleared. -/
structure Heap.Isolates (heap : Heap) (h r : Handle) (heap' : Heap) (cells : Finset Handle) : Prop where
  unreferenced : ∃ d, heap'.arena.get? r = some d ∧ d.header.refcount = .zero
  copied : heap.Mirrors heap' (· ∈ cells) .object h r
  reached : ∀ t ∈ cells, heap'.ReachedFrom (· = r) t
  allocated : ∃ es, heap'.journal.ofCells = heap.journal.ofCells ++ es ∧ heap.Lives es heap' ∧
    ∀ t ∈ cells, ∃ kind, Entry.claimed t kind ∈ es
  distinct : ∀ t ∈ cells, ¬ heap.ReachedFrom (fun p => heap.Rooted p ∨ p = h) t
  refers : ∀ t ∈ cells, ∀ k ∈ heap'.slotsAt t,
    k = .nil ∨ k ∈ cells ∨ heap.ReachedFrom (· = h) k
  kept : ∀ k c, heap.ReachedFrom (fun p => heap.Rooted p ∨ p = h) k →
    heap.arena.get? k = some c → ∃ d, heap'.arena.get? k = some d ∧ c.Lasts d ∧
      d.header.refcount = RefCount.increment^[heap'.holds cells k] c.header.refcount
  independent : ∀ last, Heap.Overwritten cells heap' last → ∀ k d, heap.ReachedFrom (· = h) k →
    heap'.arena.get? k = some d → ∃ e, last.arena.get? k = some e ∧ e.content = d.content

theorem Host.mute_byCacheSteps {ω : Type} {r : CacheRules} {I : ω → Prop} (fuel : Nat) :
    (Host.mute fuel : Host ω).ByCacheSteps r I :=
  ⟨Host.mute_safe fuel, fun _ _ _ => .throw, fun _ _ _ _ => .throw⟩

namespace Session

open HostM

variable {ω : Type} {state : State} {heap heap' : Heap} {h r : Handle} {fuel : Nat} {s s' : ω}

/-- The permanent objects are in their places after a copy was made. -/
theorem Reachable.grounded_duplicate (hr : Reachable state heap) {result : Except HeapError Handle}
    (hrun : ((duplicate (Host.mute fuel) h).run.run s).run heap = .ok ((result, s'), heap')) :
    heap'.Grounded := by
  have hbyCacheSteps : Attempt.ByCacheSteps .free [] (fun _ => True) (duplicate (Host.mute fuel : Host ω) h) :=
    duplicate_byCacheSteps (Host.mute_byCacheSteps fuel) fun _ => rfl
  exact (hbyCacheSteps s heap result s' heap' trivial hr.cacheExact.guards hr.sound hrun).2.1.grounded hr.cacheExact
    hr.grounded

/-- What a copy is made of, when no finalizer runs. -/
theorem Reachable.copyOf (hr : Reachable state heap)
    (hrun : ((duplicate (Host.mute fuel) h).run.run s).run heap = .ok ((.ok r, s'), heap'))
    (hquiet : heap'.finalizers.run = heap.finalizers.run) : ∃ cells, heap.CopyOf heap' .object
      (fun p => (heap.Rooted p ∨ p = h) ∧ ∃ c, heap.arena.get? p = some c) h r cells := by
  have hanswersReplica := (answersReplica_duplicate _ _ _ _ _ hr.sound hrun).2.2 hquiet r rfl
  exact hanswersReplica.copyOf hr.copyable

/-- A copy is structurally what the original was: of the same kinds, with the same data, tags and
strings, with copies of elements, attributes and further pairs, and with the class bits. Pairs
other than the first one of a pairlist have neither attribute nor class bits. -/
theorem duplicate_mirrors (hr : Reachable state heap)
    (hrun : ((duplicate (Host.mute fuel) h).run.run s).run heap = .ok ((.ok r, s'), heap'))
    (hquiet : heap'.finalizers.run = heap.finalizers.run) :
    heap.Mirrors heap' (fun _ => True) .object h r := by
  obtain ⟨cells, hy⟩ := hr.copyOf hrun hquiet
  exact hy.mirrors.mono fun _ _ => trivial

/-- A pairlist of two pairs, the second of which has class bits, with a pair as attribute. -/
def classedPairs : List Step :=
  [.command (.request (.cons (.handle .nil) (.handle .nil))) (some "b"),
    .command (.request (.cons (.handle .nil) (.register "b"))) (some "a"),
    .command (.setObjectBit (.register "b") true) none,
    .command (.request (.cons (.handle .nil) (.handle .nil))) (some "t"),
    .command (.set .attrib (.register "a") (.register "t")) none]

theorem duplicate_mirrors_classedPairs : ∃ heap heap',
    called { segmentCells := 16 } classedPairs (.duplicate ⟨3⟩) = .ok (heap, .ok ⟨5⟩, heap') ∧
    heap'.finalizers.run = heap.finalizers.run ∧
    heap.Mirrors heap' (fun _ => True) .object ⟨3⟩ ⟨5⟩ := by
  obtain ⟨⟨heap, r, heap'⟩, hcalled, htest⟩ := except_of_test
    (x := called { segmentCells := 16 } classedPairs (.duplicate ⟨3⟩))
    (p := fun p : Heap × Except HeapError Handle × Heap =>
      decide (p.2.1.toOption = some ⟨5⟩) &&
        decide (p.2.2.finalizers.run = p.1.finalizers.run))
    (by decide +kernel)
  simp only [Bool.and_eq_true, decide_eq_true_eq] at htest
  obtain ⟨hanswer, hquiet⟩ := htest
  obtain rfl : r = .ok ⟨5⟩ := eq_ok_of_toOption hanswer
  obtain ⟨ho, hrun⟩ := called_eq_ok hcalled
  obtain ⟨state, hr⟩ := reachable_of_opened rfl ho
  exact ⟨heap, heap', hcalled, hquiet, duplicate_mirrors hr hrun hquiet⟩

/-- A copy other than the original itself is isolated. -/
theorem duplicate_isolated (hr : Reachable state heap)
    (hrun : ((duplicate (Host.mute fuel) h).run.run s).run heap = .ok ((.ok r, s'), heap'))
    (hquiet : heap'.finalizers.run = heap.finalizers.run) (hne : r ≠ h) :
    ∃ cells, heap.Isolates h r heap' cells := by
  obtain ⟨cells, hy⟩ := hr.copyOf hrun hquiet
  have hmem : r ∈ cells := hy.root.resolve_right fun hno => hne hno.2
  have hlive : ∀ {k}, heap.ReachedFrom (fun p => heap.Rooted p ∨ p = h) k → heap.ReachedFrom
      (fun p => (heap.Rooted p ∨ p = h) ∧ ∃ c, heap.arena.get? p = some c) k :=
    fun hk => hk.trans fun j c hj hc => .start ⟨hj, c, hc⟩ hc
  have hdistinct := fun t ht => fun hk => hy.createsBeside.fresh t ht (hlive hk)
  obtain ⟨es, hlives, hclaims⟩ := hy.createsBeside.claims
  refine ⟨cells, ?_, hy.mirrors, hy.reached, ⟨es, hlives.ofCells, hlives, hclaims⟩, hdistinct,
    hy.createsBeside.within, fun k c hk hc => ?_, fun last hwritten k d hk hd => ?_⟩
  · obtain ⟨d, hd, -, -, hcount⟩ := hy.createsBeside.made r hmem
    exact ⟨d, hd, by rw [hcount, Heap.holds_eq_zero fun t ht => hy.unheld t ht]; rfl⟩
  · obtain ⟨d, hd, hlasts, hcount⟩ := hy.createsBeside.keeps k c (hlive hk) hc
    refine ⟨d, hd, hlasts, ?_⟩
    by_cases hnil : k = .nil
    · -- the count of the empty object is at its limit throughout
      subst hnil
      obtain ⟨c', hc', hfixed⟩ := hr.grounded .nil (by simp)
      obtain ⟨d', hd', hfixed'⟩ := hr.grounded_duplicate hrun .nil (by simp)
      rw [hc, Option.some.injEq] at hc'
      rw [hd, Option.some.injEq] at hd'
      rw [hd', hfixed'.refcount, hc', hfixed.refcount, Function.iterate_fixed rfl]
    · exact hcount hnil
  · have hout : k ∉ cells := fun ht => hdistinct k ht (hk.mono fun _ => .inr)
    obtain ⟨e, he, hsame⟩ := hwritten.agrees k _ hout (Heap.graph_of_get? hd)
    obtain ⟨e', he', rfl⟩ := Heap.graph_eq_some.mp he
    exact ⟨e', he', by rw [← Cell.content_seen e', hsame, Cell.content_seen]⟩

/-- A pairlist of two pairs, of which both hold a third one. -/
def sharedPair : List Step :=
  [.command (.request (.cons (.handle .nil) (.handle .unbound))) (some "e"),
    .command (.request (.cons (.register "e") (.handle .nil))) (some "b"),
    .command (.request (.cons (.register "e") (.register "b"))) (some "a")]

/-- With a collection at each allocation, the pairlist and both copies of the third pair are new. -/
theorem duplicate_isolated_sharedPair : ∃ heap r heap',
    called { segmentCells := 16, torture := true } sharedPair (.duplicate ⟨4⟩) =
      .ok (heap, .ok r, heap') ∧ heap'.finalizers.run = heap.finalizers.run ∧ r ≠ ⟨4⟩ ∧
    ∃ cells, heap.Isolates ⟨4⟩ r heap' cells := by
  obtain ⟨⟨heap, r, heap'⟩, hcalled, htest⟩ := except_of_test
    (x := called { segmentCells := 16, torture := true } sharedPair (.duplicate ⟨4⟩))
    (p := fun p : Heap × Except HeapError Handle × Heap =>
      p.2.1.isOk && decide (p.2.1.toOption ≠ some ⟨4⟩) &&
        decide (p.2.2.finalizers.run = p.1.finalizers.run))
    (by decide +kernel)
  simp only [Bool.and_eq_true, decide_eq_true_eq] at htest
  obtain ⟨⟨hok, hother⟩, hquiet⟩ := htest
  obtain ⟨ho, hrun⟩ := called_eq_ok hcalled
  obtain ⟨state, hr⟩ := reachable_of_opened rfl ho
  cases r with
  | ok r =>
    have hne : r ≠ ⟨4⟩ := fun heq => hother (congrArg some heq)
    exact ⟨heap, r, heap', hcalled, hquiet, hne, duplicate_isolated hr hrun hquiet hne⟩
  | error e => exact nomatch hok

/-- A weak record without a finalizer that is preserved, and whose key is dead, in a heap that is
full. -/
def preservedRecord : List Step :=
  [.command (.request (.cons (.handle .nil) (.handle .nil))) (some "v"),
    .command (.preserve (.register "v")) none,
    .command (.request (.cons (.handle .nil) (.handle .nil))) (some "k"),
    .command (.request (.weakRef (.register "k") (.register "v") (.handle .nil) false)) (some "w"),
    .command (.preserve (.register "w")) none,
    .times 3 [.command (.request (.cons (.handle .nil) (.handle .nil))) (some "x"),
      .command (.preserve (.register "x")) none]]

/-- A copy for which there is room only after the last resort: the record, which is a root, is
cleared by the call, though no finalizer runs. -/
theorem duplicate_clears_record : ∃ heap r heap' c d,
    called { segmentCells := 8, maxCells := some 8 } preservedRecord (.duplicate ⟨2⟩) =
      .ok (heap, .ok r, heap') ∧ heap'.finalizers.run = heap.finalizers.run ∧ r ≠ ⟨2⟩ ∧
    heap.Rooted ⟨4⟩ ∧ heap.arena.get? ⟨4⟩ = some c ∧ c.payload.slots = [("key", ⟨3⟩),
      ("value", ⟨2⟩), ("finalizer", .nil), ("next", .nil)] ∧
    heap'.arena.get? ⟨4⟩ = some d ∧ d.payload.slots = [("key", .nil), ("value", .nil),
      ("finalizer", .nil), ("next", .nil)] := by
  obtain ⟨⟨heap, r, heap'⟩, hcalled, htest⟩ := except_of_test
    (x := called { segmentCells := 8, maxCells := some 8 } preservedRecord (.duplicate ⟨2⟩))
    (p := fun p : Heap × Except HeapError Handle × Heap =>
      p.2.1.isOk && decide (p.2.1.toOption ≠ some ⟨2⟩) &&
      decide (p.2.2.finalizers.run = p.1.finalizers.run) &&
      decide (⟨4⟩ ∈ p.1.roots.handles) &&
      (p.1.arena.get? ⟨4⟩).any (fun c : Cell => decide (c.payload.slots = [("key", ⟨3⟩),
        ("value", ⟨2⟩), ("finalizer", .nil), ("next", .nil)])) &&
      (p.2.2.arena.get? ⟨4⟩).any fun d : Cell => decide (d.payload.slots = [("key", .nil),
        ("value", .nil), ("finalizer", .nil), ("next", .nil)]))
    (by decide +kernel)
  simp only [Bool.and_eq_true, decide_eq_true_eq, Option.any_eq_true] at htest
  obtain ⟨⟨⟨⟨⟨hok, hother⟩, hquiet⟩, hroot⟩, c, hc, hbefore⟩, d, hd, hafter⟩ := htest
  cases r with
  | ok r =>
    exact ⟨heap, r, heap', c, d, hcalled, hquiet, fun heq => hother (congrArg some heq),
      .inl (.inl hroot), hc, hbefore, hd, hafter⟩
  | error e => exact nomatch hok

end Session

end ManagedHeap
