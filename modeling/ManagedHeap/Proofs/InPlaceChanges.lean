import ManagedHeap.Proofs.HistoryEntries
import ManagedHeap.Proofs.OperationCacheSteps
import ManagedHeap.Proofs.CollectionReports

/-!
# Changes in place

Most operations only retouch objects: each keeps its place, its kind, its generation and its
length, so the accounts stay as they are. What a permanent object gets to hold that way was
alive when it got it, for every setter counts a reference to it.
-/

namespace ManagedHeap

/-- A change of an object in place, at a time when `live` tells which objects are there. -/
structure Cell.Alters (live : Handle → Prop) (c d : Cell) : Prop where
  footprint : d.footprint = c.footprint
  permanent : d.flags.permanent = c.flags.permanent
  edges : c.flags.permanent = true → ∀ k ∈ d.edges true, k ∈ c.edges true ∨ live k

namespace Cell.Alters

variable {live : Handle → Prop} {c d : Cell}

theorem trans {e : Cell} (hfirst : c.Alters live d) (hlast : d.Alters live e) : c.Alters live e := by
  refine ⟨hlast.footprint.trans hfirst.footprint, hlast.permanent.trans hfirst.permanent, ?_⟩
  intro hp k hk
  rcases hlast.edges (hfirst.permanent.trans hp) k hk with hold | hlive
  · exact hfirst.edges hp k hold
  · exact .inr hlive

theorem header (hkind : d.kind = c.kind) (hgeneration : d.header.generation = c.header.generation)
    (hpermanent : d.flags.permanent = c.flags.permanent)
    (hcached : d.flags.cached = c.flags.cached) (hattrib : d.attrib = c.attrib)
    (hpayload : d.payload = c.payload) : c.Alters live d := by
  refine ⟨?_, hpermanent, fun _ k hk => .inl ?_⟩
  · rw [Cell.footprint, hkind, hgeneration, hpayload, Cell.footprint]
  · rwa [Cell.edges, hcached, hattrib, hpayload] at hk

theorem mapFlags {f : Flags → Flags} (hpermanent : (f c.flags).permanent = c.flags.permanent)
    (hcached : (f c.flags).cached = c.flags.cached) : c.Alters live (c.mapFlags f) :=
  header rfl rfl hpermanent hcached rfl rfl

theorem mapRefCount {f : RefCount → RefCount} : c.Alters live (c.mapRefCount f) :=
  header rfl rfl rfl rfl rfl rfl

theorem payload {p : Payload} (hlength : p.length = c.payload.length)
    (hchildren : ∀ k ∈ p.children true, k ∈ c.payload.children true ∨ live k) :
    c.Alters live { c with payload := p } := by
  refine ⟨congrArg (Footprint.mk c.kind c.header.generation) hlength, rfl, fun _ k hk => ?_⟩
  change k ∈ (if c.flags.cached = true then p.children true else c.attrib :: p.children true) at hk
  unfold Cell.edges
  split at hk
  · rename_i hcached
    rw [if_pos hcached]
    exact hchildren k hk
  · rename_i hcached
    rw [if_neg hcached]
    rcases List.mem_cons.mp hk with rfl | hk
    · exact .inl List.mem_cons_self
    · exact (hchildren k hk).imp_left (List.mem_cons_of_mem _)

theorem attrib {x : Handle} (hx : x = c.attrib ∨ live x) : c.Alters live { c with attrib := x } := by
  refine ⟨rfl, rfl, fun _ k hk => ?_⟩
  change k ∈ (if c.flags.cached = true then c.payload.children true
    else x :: c.payload.children true) at hk
  unfold Cell.edges
  split at hk
  · rename_i hcached
    rw [if_pos hcached]
    exact .inl hk
  · rename_i hcached
    rw [if_neg hcached]
    rcases List.mem_cons.mp hk with rfl | hk
    · exact hx.imp_left fun hsame => by rw [hsame]; exact List.mem_cons_self
    · exact .inl (List.mem_cons_of_mem _ hk)

theorem fill (hfootprint : d.footprint = c.footprint)
    (hpermanent : d.flags.permanent = c.flags.permanent) (hc : c.flags.permanent = false) :
    c.Alters live d :=
  ⟨hfootprint, hpermanent, fun hp => nomatch hc.symm.trans hp⟩

end Cell.Alters

/-- A change that the accounts do not see. A permanent object gets hold of live objects only. -/
structure Heap.Retouches (heap heap' : Heap) : Prop where
  books : heap'.arena.books = heap.arena.books
  footprints : ∀ h, heap'.arena.footprint? h = heap.arena.footprint? h
  generations : heap'.generations = heap.generations
  permanent : ∀ {h d}, heap'.arena.get? h = some d → d.flags.permanent = true →
    ∃ c, heap.arena.get? h = some c ∧ c.flags.permanent = true ∧
      ∀ k ∈ d.edges true, k ∈ c.edges true ∨ heap.arena.contains k = true

namespace Heap.Retouches

open Arena

variable {heap mid heap' : Heap} {h : Handle} {c : Cell} {f : Cell → Cell}

theorem contains (hr : heap.Retouches heap') (h : Handle) :
    heap'.arena.contains h = heap.arena.contains h := by
  have hsome := congrArg Option.isSome (hr.footprints h)
  rwa [footprint?, Option.isSome_map, footprint?, Option.isSome_map] at hsome

theorem refl (heap : Heap) : heap.Retouches heap :=
  ⟨rfl, fun _ => rfl, rfl, fun hd hp => ⟨_, hd, hp, fun _ => .inl⟩⟩

theorem trans (hfirst : heap.Retouches mid) (hlast : mid.Retouches heap') :
    heap.Retouches heap' where
  books := hlast.books.trans hfirst.books
  footprints h := (hlast.footprints h).trans (hfirst.footprints h)
  generations := hlast.generations.trans hfirst.generations
  permanent hd hp := by
    obtain ⟨e, he, hpe, hedges⟩ := hlast.permanent hd hp
    obtain ⟨c, hc, hpc, hedges'⟩ := hfirst.permanent he hpe
    refine ⟨c, hc, hpc, fun k hk => ?_⟩
    rcases hedges k hk with hold | hlive
    · exact hedges' k hold
    · exact .inr ((hfirst.contains k).symm.trans hlive)

theorem aside (harena : heap'.arena = heap.arena) (hgenerations : heap'.generations = heap.generations) :
    heap.Retouches heap' where
  books := by rw [harena]
  footprints h := by rw [harena]
  generations := hgenerations
  permanent hd hp := ⟨_, harena ▸ hd, hp, fun _ => .inl⟩

theorem setCell (hc : heap.arena.get? h = some c) (hf : c.Alters (heap.arena.contains · = true) (f c)) :
    heap.Retouches { heap with arena := heap.arena.setCell h f } := by
  have hlive : (f c).isFree = false := by
    rw [Cell.isFree, Header.isFree, show (f c).header.kind = c.header.kind from
      congrArg Footprint.kind hf.footprint]
    exact (get?_eq_some.mp hc).2
  have hself := get?_setCell_self (a := heap.arena) hc hlive
  refine ⟨books_setCell, fun k => ?_, rfl, fun {k d} hd hp => ?_⟩
  · by_cases hk : k = h
    · subst hk
      exact (footprint?_of_get? hself).trans (hf.footprint ▸ (footprint?_of_get? hc).symm)
    · rw [footprint?, get?_setCell_ne hk, footprint?]
  · by_cases hk : k = h
    · subst hk
      obtain rfl := Option.some.inj (hself.symm.trans hd)
      exact ⟨c, hc, hf.permanent.symm.trans hp, hf.edges (hf.permanent.symm.trans hp)⟩
    · exact ⟨d, (get?_setCell_ne hk).symm.trans hd, hp, fun _ => .inl⟩

theorem relinks {arena : Arena} {strings : StringCache} {journal : Journal}
    (hr : Relinks heap.arena arena) : heap.Retouches { heap with arena, strings, journal } := by
  refine ⟨hr.books, fun h => ?_, rfl, fun {h d} hd hp => ?_⟩
  · change arena.footprint? h = heap.arena.footprint? h
    cases hc : heap.arena.get? h with
    | some c =>
      obtain ⟨d, hd, hdc⟩ := hr.unlinked hc
      rw [footprint?_of_get? hc, footprint?_of_get? hd, Cell.footprint_of_unlinked hdc]
    | none =>
      refine (footprint?_of_none ?_).trans (footprint?_of_none hc).symm
      by_contra hsome
      obtain ⟨d, hd⟩ := Option.ne_none_iff_exists'.mp hsome
      obtain ⟨c, hc', -⟩ := SameBut.unlinked hr.symm hd
      exact nomatch hc.symm.trans hc'
  · obtain ⟨c, hc, hcd⟩ := SameBut.unlinked hr.symm hd
    have hheader : d.header = c.header := (Cell.header_of_unlinked hcd).symm
    refine ⟨c, hc, ?_, fun k hk => .inl ?_⟩
    · rw [Cell.flags, ← hheader]
      exact hp
    · cases hcached : c.flags.cached with
      | false => rwa [Cell.eq_of_unlinked hcd.symm hcached] at hk
      | true =>
        have hcached' : d.flags.cached = true := by
          rw [Cell.flags, hheader]
          exact hcached
        unfold Cell.edges at hk ⊢
        rw [if_pos hcached', ← Cell.payload_of_unlinked hcd] at hk
        rwa [if_pos hcached]

theorem countersMatch (hr : heap.Retouches heap') (hb : heap.CountersMatch) : heap'.CountersMatch :=
  hb.congr hr.books hr.footprints hr.generations

end Heap.Retouches

def Heap.pace (heap : Heap) : Config × Strategy × PerGeneration Nat × Bool × List Entry :=
  (heap.config, heap.strategy, heap.counters.collections, heap.collecting, heap.journal.ofCells)

theorem Heap.pace_eq_iff {heap : Heap} {c : Config} {s : Strategy} {n : PerGeneration Nat} {b : Bool}
    {es : List Entry} : heap.pace = (c, s, n, b, es) ↔ heap.config = c ∧ heap.strategy = s ∧
      heap.counters.collections = n ∧ heap.collecting = b ∧ heap.journal.ofCells = es := by
  simp [pace]

theorem Heap.pace_congr {heap heap' : Heap} (hconfig : heap'.config = heap.config)
    (hstrategy : heap'.strategy = heap.strategy)
    (hcollections : heap'.counters.collections = heap.counters.collections)
    (hcollecting : heap'.collecting = heap.collecting)
    (hcells : heap'.journal.ofCells = heap.journal.ofCells) : heap'.pace = heap.pace :=
  pace_eq_iff.mpr ⟨hconfig, hstrategy, hcollections, hcollecting, hcells⟩

/-- A change that the accounts do not see, under the same configuration, and no collection. -/
structure Heap.Amends (heap heap' : Heap) : Prop extends heap.Retouches heap' where
  pace : heap'.pace = heap.pace

namespace Heap.Amends

open Arena

variable {heap mid heap' : Heap} {h : Handle} {c : Cell} {f : Cell → Cell}

theorem refl (heap : Heap) : heap.Amends heap := ⟨.refl heap, rfl⟩

theorem trans (hfirst : heap.Amends mid) (hlast : mid.Amends heap') : heap.Amends heap' :=
  ⟨hfirst.toRetouches.trans hlast.toRetouches, hlast.pace.trans hfirst.pace⟩

theorem config (hr : heap.Amends heap') : heap'.config = heap.config :=
  congrArg Prod.fst hr.pace

theorem ofCells (hr : heap.Amends heap') : heap'.journal.ofCells = heap.journal.ofCells :=
  congrArg (fun pace => pace.2.2.2.2) hr.pace

theorem aside (harena : heap'.arena = heap.arena) (hgenerations : heap'.generations = heap.generations)
    (hpace : heap'.pace = heap.pace) : heap.Amends heap' :=
  ⟨.aside harena hgenerations, hpace⟩

theorem setCell (hc : heap.arena.get? h = some c) (hf : c.Alters (heap.arena.contains · = true) (f c)) :
    heap.Amends { heap with arena := heap.arena.setCell h f } :=
  ⟨.setCell hc hf, rfl⟩

theorem relinks {arena : Arena} {strings : StringCache} {events : Array Event}
    (hr : Relinks heap.arena arena) :
    heap.Amends { heap with arena, strings, journal := { heap.journal with events } } :=
  ⟨.relinks hr, rfl⟩

end Heap.Amends

namespace HeapM

open Arena

variable {α β : Type} {heap heap' : Heap} {x act : HeapM α} {g : α → HeapM β}
  {h value old : Handle} {f : Cell → Cell}

def Retouches (act : HeapM α) : Prop :=
  ∀ heap a heap', act.run heap = .ok (a, heap') → heap.Amends heap'

namespace Retouches

theorem bind (hx : Retouches x) (hg : ∀ a, Retouches (g a)) : Retouches (x >>= g) := by
  intro heap b heap' hrun
  obtain ⟨a, mid, hfirst, hrest⟩ := run_bind.mp hrun
  exact (hx heap a mid hfirst).trans (hg a mid b heap' hrest)

theorem of_reads (hx : Reads x) : Retouches x := by
  intro heap a heap' hrun
  obtain rfl := hx heap a heap' hrun
  exact .refl _

theorem pure {a : α} : Retouches (pure a) := of_reads .pure

theorem throw {e : Fault} : Retouches (throw e : HeapM α) := of_reads .throw

theorem modify {f : Heap → Heap} (harena : ∀ heap, (f heap).arena = heap.arena)
    (hgenerations : ∀ heap, (f heap).generations = heap.generations)
    (hpace : ∀ heap, (f heap).pace = heap.pace) : Retouches (modify f) := by
  intro heap u heap' hrun
  obtain rfl := run_modify.mp hrun
  exact .aside (harena heap) (hgenerations heap) (hpace heap)

theorem note {e : Event} : Retouches (note e) := modify (fun _ => rfl) (fun _ => rfl) fun _ => rfl

theorem modifyRoots {f : RootSet → RootSet} : Retouches (modifyRoots f) :=
  modify (fun _ => rfl) (fun _ => rfl) fun _ => rfl

theorem modifyFinalizers {f : FinalizerState → FinalizerState} : Retouches (modifyFinalizers f) :=
  modify (fun _ => rfl) (fun _ => rfl) fun _ => rfl

theorem noteCall {record function key : Handle} : Retouches (noteCall record function key) :=
  modify (fun _ => rfl) (fun _ => rfl) fun _ =>
    Heap.pace_congr rfl rfl rfl rfl (Journal.ofCells_record_aside rfl)

theorem countRun : Retouches countRun :=
  modify (fun _ => rfl) (fun _ => rfl) fun _ =>
    Heap.pace_congr rfl rfl rfl rfl (Journal.ofCells_record_aside rfl)

theorem onProtect {f : ProtectStack → Except Fault (α × ProtectStack)} : Retouches (onProtect f) := by
  intro heap a heap' hrun
  simp only [HeapM.onProtect, StateT.run] at hrun
  split at hrun
  · rw [Except.ok.injEq, Prod.mk.injEq] at hrun
    obtain ⟨-, rfl⟩ := hrun
    exact .aside rfl rfl rfl
  · cases hrun

theorem edit {u : PUnit} (hf : ∀ c, heap.arena.get? h = some c →
      c.Alters (heap.arena.contains · = true) (f c))
    (hrun : (HeapM.updateCell h f).run heap = .ok (u, heap')) : heap.Amends heap' := by
  obtain ⟨⟨c, hc⟩, rfl⟩ := run_updateCell.mp hrun
  exact .setCell hc (hf c hc)

theorem updateCell (hf : ∀ (c : Cell) live, c.Alters live (f c)) : Retouches (updateCell h f) :=
  fun _ _ _ hrun => edit (fun c _ => hf c _) hrun

theorem noteWrite : Retouches (noteWrite h) := by
  refine bind (updateCell fun _ _ => .header rfl rfl rfl rfl rfl rfl) fun _ =>
    bind (of_reads .cell) fun c => ?_
  dsimp only
  split
  · exact bind (updateCell fun _ _ => .mapFlags rfl rfl) fun _ => modify (fun _ => rfl) (fun _ => rfl) fun _ => rfl
  · exact pure

theorem incrementRefCount : Retouches (incrementRefCount h) := updateCell fun _ _ => .mapRefCount

theorem decrementRefCount : Retouches (decrementRefCount h) := updateCell fun _ _ => .mapRefCount

theorem countReferences (hs : List Handle) : Retouches (HostM.countReferences hs) := by
  induction hs with
  | nil => exact pure
  | cons h hs ih => exact bind incrementRefCount fun _ => ih

theorem replaceReference : Retouches (replaceReference old value) := by
  unfold HeapM.replaceReference
  split
  · exact pure
  · refine bind incrementRefCount fun _ => bind (of_reads .isLive) fun live => ?_
    split
    · exact decrementRefCount
    · exact pure

theorem exchange {expected : Shape} {k : Payload → Option (α × Payload)} {a : α}
    (hrun : (HeapM.exchange h expected k).run heap = .ok (a, heap'))
    (hk : ∀ p q, k p = some (a, q) → q.length = p.length ∧
      ∀ x ∈ q.children true, x ∈ p.children true ∨ heap'.arena.contains x = true) :
    heap.Amends heap' := by
  simp only [HeapM.exchange, run_bind, run_payload] at hrun
  obtain ⟨_, mid, hnote, _, _, ⟨c, hc, rfl, rfl⟩, hrun⟩ := hrun
  refine (noteWrite _ _ _ hnote).trans ?_
  split at hrun
  · rename_i b p hp
    simp only [run_bind, run_updateCell, run_pure] at hrun
    obtain ⟨_, _, ⟨-, rfl⟩, rfl, rfl⟩ := hrun
    obtain ⟨hlength, hchildren⟩ := hk c.payload p hp
    refine .setCell hc (.payload hlength fun x hx => (hchildren x hx).imp_right fun hlive => ?_)
    exact (contains_setCell (f := fun c => { c with payload := p }) fun _ => rfl).symm.trans hlive
  · exact (run_wrongKind.mp hrun).elim

theorem swap {expected : Shape} {k : Payload → Option (Handle × Payload)}
    (hk : ∀ p old q, k p = some (old, q) → q.length = p.length ∧ old ∈ p.children true ∧
      ∀ x ∈ q.children true, x ∈ p.children true ∨ x = value) : Retouches (do
      let old ← HeapM.exchange h expected k
      HeapM.replaceReference old value) := by
  intro heap u heap' hrun
  obtain ⟨old, mid, hexchange, hreplace⟩ := run_bind.mp hrun
  refine (exchange hexchange fun p q hpq => ?_).trans (replaceReference _ _ _ hreplace)
  obtain ⟨hlength, hold, hchildren⟩ := hk p old q hpq
  refine ⟨hlength, fun x hx => ?_⟩
  rcases hchildren x hx with hx | rfl
  · exact .inl hx
  · rcases run_replaceReference hreplace with rfl | hlive
    · exact .inl hold
    · exact .inr hlive

theorem setCar : Retouches (setCar h value) :=
  swap fun p old q hpq => by cases p <;> cases hpq; simp [Payload.length, Payload.children]

theorem setCdr : Retouches (setCdr h value) :=
  swap fun p old q hpq => by cases p <;> cases hpq; simp [Payload.length, Payload.children]

theorem setTag : Retouches (setTag h value) :=
  swap fun p old q hpq => by cases p <;> cases hpq; simp [Payload.length, Payload.children]

theorem setFrame : Retouches (setFrame h value) :=
  swap fun p old q hpq => by cases p <;> cases hpq; simp [Payload.length, Payload.children]

theorem setSymbolValue : Retouches (setSymbolValue h value) :=
  swap fun p old q hpq => by cases p <;> cases hpq; simp [Payload.length, Payload.children]

theorem setPromiseValue : Retouches (setPromiseValue h value) := by
  intro heap u heap' hrun
  simp only [HeapM.setPromiseValue, run_bind] at hrun
  obtain ⟨⟨oldValue, oldEnv⟩, mid, hexchange, _, next, hreplace, hrest⟩ := hrun
  have hcounted := replaceReference _ _ _ hreplace
  refine (exchange hexchange fun p q hpq => ?_).trans
    (hcounted.trans (replaceReference _ _ _ hrest))
  cases p <;> cases hpq
  refine ⟨rfl, fun x hx => ?_⟩
  simp only [Payload.children, List.mem_cons, List.not_mem_nil, or_false] at hx ⊢
  rcases hx with rfl | rfl | rfl
  · exact .inl (.inl rfl)
  · rcases run_replaceReference hrest with rfl | hlive
    · exact .inl (.inr (.inl rfl))
    · exact .inr ((hcounted.contains _).symm.trans hlive)
  · rcases run_replaceReference hreplace with rfl | hlive
    · exact .inl (.inr (.inr rfl))
    · exact .inr hlive

theorem setVectorElt {i : Nat} : Retouches (setVectorElt h i value) := by
  intro heap r heap' hrun
  simp only [HeapM.setVectorElt, run_bind] at hrun
  obtain ⟨_, mid, hnote, read, _, hread, hrun⟩ := hrun
  obtain rfl := Reads.vectorElt _ _ _ hread
  refine (noteWrite _ _ _ hnote).trans ?_
  cases read with
  | error e =>
    obtain ⟨-, rfl⟩ := run_pure.mp hrun
    exact .refl _
  | ok old =>
    simp only [run_bind, run_pure] at hrun
    obtain ⟨_, next, hput, _, _, hreplace, -, rfl⟩ := hrun
    refine .trans ?_ (replaceReference _ _ _ hreplace)
    refine edit (f := Cell.putElement i value) (fun c hc => ?_) hput
    obtain ⟨elements, hp, hold⟩ := Safe.run_vectorElt hc hread
    rw [Cell.putElement_eq, hp]
    refine .payload ?_ fun k hk => ?_
    · rw [hp]
      exact Array.size_setIfInBounds
    · rw [hp]
      rcases Array.mem_or_eq_of_mem_setIfInBounds (Array.mem_toList_iff.mp hk) with hk | rfl
      · exact .inl (Array.mem_toList_iff.mpr hk)
      · rcases run_replaceReference hreplace with rfl | hlive
        · exact .inl (Array.mem_toList_iff.mpr (Array.mem_of_getElem? hold))
        · obtain ⟨-, rfl⟩ := run_updateCell.mp hput
          exact .inr ((contains_setCell (f := Cell.putElement i k)
            (Cell.isFree_putElement i k)).symm.trans hlive)

theorem setAttrib : Retouches (setAttrib h value) := by
  intro heap u heap' hrun
  simp only [HeapM.setAttrib, run_bind, run_flags] at hrun
  obtain ⟨_, _, ⟨-, -, -, rfl⟩, hrun⟩ := hrun
  split at hrun
  · simp only [run_bind, run_throw, false_and, exists_false] at hrun
  · simp only [run_bind, run_cell] at hrun
    obtain ⟨_, mid, hnote, c, _, ⟨hc, rfl⟩, _, next, hput, hreplace⟩ := hrun
    refine (noteWrite _ _ _ hnote).trans (.trans ?_ (replaceReference _ _ _ hreplace))
    refine edit (fun d hd => .attrib ?_) hput
    obtain rfl := Option.some.inj (hc.symm.trans hd)
    obtain ⟨-, rfl⟩ := run_updateCell.mp hput
    exact (run_replaceReference hreplace).imp Eq.symm fun hlive =>
      (contains_setCell (f := fun c : Cell => { c with attrib := value }) fun _ => rfl).symm.trans hlive

theorem setObjectBit {b : Bool} : Retouches (setObjectBit h b) :=
  updateCell fun _ _ => .mapFlags rfl rfl

theorem touch : Retouches (touch h) := bind noteWrite fun _ => of_reads .length

theorem size_overwrite {γ : Type} (elements values : Array γ) :
    (overwrite elements values).size = elements.size := by
  simp only [overwrite, Array.size_append, Array.take_eq_extract, Array.drop_eq_extract,
    Array.size_extract]
  omega

theorem rewrite_bind {c : Cell} {p : Payload} {b b' : β} (hc : heap.arena.get? h = some c)
    (hlength : p.length = c.payload.length) (hchildren : p.children true = [])
    (hrun : (do
      HeapM.updateCell h fun c => { c with payload := p }
      return b').run heap = .ok (b, heap')) : heap.Amends heap' := by
  obtain ⟨_, mid, hupdate, hrest⟩ := run_bind.mp hrun
  obtain ⟨-, rfl⟩ := run_pure.mp hrest
  refine edit (fun d hd => ?_) hupdate
  obtain rfl := Option.some.inj (hc.symm.trans hd)
  refine .payload hlength fun k hk => ?_
  rw [hchildren] at hk
  exact absurd hk List.not_mem_nil

theorem payload_bind {k : Payload → HeapM β} (hk : ∀ p heap c b heap',
      heap.arena.get? h = some c → c.payload = p → (k p).run heap = .ok (b, heap') →
      heap.Amends heap') : Retouches (payload h >>= k) := by
  intro heap b heap' hrun
  obtain ⟨p, mid, hread, hrest⟩ := run_bind.mp hrun
  obtain ⟨c, hc, hp, rfl⟩ := run_payload.mp hread
  exact hk p heap c b heap' hc hp hrest

theorem setRealData {values : Array Float} : Retouches (setRealData h values) := by
  refine bind (updateCell fun _ _ => .header rfl rfl rfl rfl rfl rfl) fun _ => payload_bind ?_
  rintro p heap c b heap' hc hp hrun
  cases p
  case real elements => exact rewrite_bind hc (hp ▸ size_overwrite elements values) rfl hrun
  all_goals exact (run_throw.mp hrun).elim

theorem setIntegerData {values : Array Int32} : Retouches (setIntegerData h values) := by
  refine bind (updateCell fun _ _ => .header rfl rfl rfl rfl rfl rfl) fun _ => payload_bind ?_
  rintro p heap c b heap' hc hp hrun
  cases p
  case integer elements | logical elements =>
    exact rewrite_bind hc (hp ▸ size_overwrite elements values) rfl hrun
  all_goals exact (run_throw.mp hrun).elim

theorem setRawData {values : Bytes} : Retouches (setRawData h values) := by
  refine bind noteWrite fun _ => payload_bind ?_
  rintro p heap c b heap' hc hp hrun
  cases p
  case raw elements => exact rewrite_bind hc (hp ▸ size_overwrite elements values) rfl hrun
  all_goals
    obtain ⟨-, rfl⟩ := run_pure.mp hrun
    exact .refl _

theorem findVar {env sym : Handle} : Retouches (findVar env sym) := by
  refine bind (of_reads .walkBound) fun fuel => ?_
  induction fuel generalizing env with
  | zero => exact throw
  | succ fuel ih =>
    unfold HeapM.searchEnvironments
    split
    · exact bind (of_reads .symbolValue) fun base => pure
    · refine bind (of_reads .findVarInFrame) fun found => ?_
      cases found with
      | none => exact bind (of_reads .envEnclos) fun outer => ih
      | some value =>
        refine bind (x := HeapM.updateCell sym (Cell.foundIn env)) (updateCell fun c _ => ?_)
          fun _ => pure
        rw [Cell.foundIn_eq]
        refine .payload ?_ fun k hk => .inl ?_
        · cases c.payload <;> rfl
        · rwa [Payload.children_foundIn] at hk

theorem removeVar {env sym : Handle} : Retouches (removeVar env sym) := by
  refine bind (of_reads .envFrame) fun frame => bind (of_reads .walkBound) fun fuel => ?_
  generalize Handle.nil = previous
  induction fuel generalizing previous frame with
  | zero => exact throw
  | succ fuel ih =>
    unfold HeapM.unbindFrom
    split
    · exact pure
    · refine bind (of_reads .cdr) fun next => bind (of_reads .tag) fun t => ?_
      have hend : Retouches (do
          HeapM.decrementRefCount (← car frame)
          return true) :=
        bind (of_reads .car) fun old => bind decrementRefCount fun _ => pure
      split
      · split
        · exact bind setFrame fun _ => hend
        · exact bind setCdr fun _ => hend
      · exact ih next frame

theorem pushRoot : Retouches (pushRoot h) := by
  refine bind onProtect fun result => ?_
  split
  · exact bind note fun _ => pure
  · exact pure

theorem closeScope {base : Nat} : Retouches (closeScope base) := by
  refine bind (of_reads .protectDepth) fun depth => ?_
  split
  · exact throw
  · exact modify (fun _ => rfl) (fun _ => rfl) fun _ => rfl

theorem leaveRecovery {scope : RecoveryScope} : Retouches (leaveRecovery scope) := by
  refine bind (of_reads .enterRecovery) fun now => ?_
  split
  · exact throw
  · refine bind (modify (fun _ => rfl) (fun _ => rfl) fun _ => ?_) fun _ => bind modifyRoots fun _ => pure
    exact Heap.pace_congr rfl rfl rfl rfl (Journal.ofCells_record_aside rfl)

theorem flagOnExit (records : List Handle) : Retouches (flagOnExit records) := by
  induction records with
  | nil => exact pure
  | cons record records ih => exact bind (updateCell fun _ _ => .mapFlags rfl rfl) fun _ => ih

theorem awaitOutput : Retouches (awaitOutput h) := by
  refine bind (of_reads .get) fun heap => ?_
  split
  · exact modify (fun _ => rfl) (fun _ => rfl) fun _ => rfl
  · exact pure

theorem task {a : Session.TaskAction} : Retouches (Session.task a h) :=
  bind (modify (fun _ => rfl) (fun _ => rfl) fun _ => rfl) fun _ => bind (of_reads .get) fun _ => pure

theorem emptied {u : PUnit} (hrecord : heap.RecordAt h)
    (hrun : (HeapM.updateCell h Cell.emptied).run heap = .ok (u, heap')) : heap.Amends heap' := by
  obtain ⟨c, hc, hsuits⟩ := hrecord
  refine edit (fun d hd => ?_) hrun
  obtain rfl := Option.some.inj (hc.symm.trans hd)
  refine Cell.Alters.trans (.mapFlags rfl rfl) (.payload ?_ nofun)
  change 0 = c.payload.length
  cases hp : c.payload <;> rw [hp] at hsuits
  case weakRef => rfl
  all_goals exact nomatch hsuits

theorem unlinkWeakRef {record hint : Handle} {u : PUnit} (hs : heap.Sound)
    (hrun : (HeapM.unlinkWeakRef record hint).run heap = .ok (u, heap')) :
    heap.Amends heap' := by
  simp only [HeapM.unlinkWeakRef, run_bind] at hrun
  obtain ⟨fields, _, hfields, previous, _, hprevious, fs, _, hflags, hrun⟩ := hrun
  have hat := chainFields_record _ _ _ hs hfields
  obtain rfl := Reads.chainFields _ _ _ hfields
  obtain rfl := Reads.predecessor _ _ _ hprevious
  obtain rfl := Reads.flags _ _ _ hflags
  have hend : ∀ {mid : Heap}, mid.RecordAt record →
      (clearRecord record fs.readyToFinalize).run mid = .ok (u, heap') → mid.Amends heap' := by
    intro mid hrecord hlast
    obtain ⟨_, next, hempty, hcount⟩ := run_bind.mp hlast
    obtain rfl := run_modify.mp hcount
    exact (emptied hrecord hempty).trans
      (.aside rfl rfl (Heap.pace_congr rfl rfl rfl rfl (Journal.ofCells_record_aside rfl)))
  split at hrun
  · obtain ⟨_, mid, hhead, hrun⟩ := run_bind.mp hrun
    obtain rfl := run_modify.mp hhead
    refine .trans ?_ (hend (by exact hat.2) hrun)
    exact .aside rfl rfl rfl
  · obtain ⟨_, mid, hrelink, hrun⟩ := run_bind.mp hrun
    refine .trans (edit (f := Cell.relinked fields.next) (fun c _ => ?_) hrelink)
      (hend (relink_record _ _ _ hat hrelink).2 hrun)
    rw [Cell.relinked_eq]
    refine .payload ?_ fun k hk => .inl ?_
    · cases c.payload <;> rfl
    · rwa [Payload.children_relinked] at hk

end Retouches

end HeapM

theorem Payload.length_of_suits {p q : Payload} {kind : Kind} (hp : p.suits kind = true)
    (hq : forKind? kind p.length = some q) : p.length = q.length := by
  unfold forKind? at hq
  split at hq
  · exact nomatch hq
  · obtain rfl := Option.some.inj hq
    cases kind <;> cases p <;> simp_all [suits, length]

/-- The object is as it was claimed, with storage for that many elements. -/
def Heap.Sized (heap : Heap) (kind : Kind) (length : Nat) (h : Handle) : Prop :=
  ∃ payload, Payload.forKind? kind length = some payload ∧
    heap.arena.get? h = some (.blank kind payload)

def Heap.Roomy (heap : Heap) (length : Nat) (h : Handle) : Prop :=
  ∃ c, heap.arena.get? h = some c ∧ c.flags.permanent = false ∧ c.payload.length = length

namespace Heap.Sized

variable {heap : Heap} {kind : Kind} {length : Nat} {h : Handle}

theorem fresh (hb : heap.Sized kind length h) : heap.Fresh kind h := by
  obtain ⟨payload, -, hc⟩ := hb
  exact ⟨_, hc, rfl⟩

theorem roomy {p : Payload} (hb : heap.Sized kind p.length h) (hsuits : p.suits kind = true) :
    heap.Roomy p.length h := by
  obtain ⟨payload, hpayload, hc⟩ := hb
  exact ⟨_, hc, rfl, (Payload.length_of_suits hsuits hpayload).symm⟩

end Heap.Sized

namespace HeapM.Retouches

open Arena

variable {heap heap' : Heap} {h : Handle} {u : PUnit}

theorem setPayload {payload : Payload} (hroom : heap.Roomy payload.length h)
    (hrun : (HostM.setPayload h payload).run heap = .ok (u, heap')) : heap.Amends heap' := by
  obtain ⟨d, hd, hperm, hlength⟩ := hroom
  refine edit (f := fun c => { c with payload }) (fun c hc => ?_) hrun
  obtain rfl := Option.some.inj (hd.symm.trans hc)
  exact .fill (congrArg (Footprint.mk _ _) hlength.symm) rfl hperm

theorem roomy_countReferences {length : Nat} (hs : List Handle) : Triple
    (fun heap => heap.Roomy length h) (HostM.countReferences hs) fun _ heap => heap.Roomy length h := by
  induction hs with
  | nil => exact .pure fun _ => id
  | cons k ks ih =>
    refine .bind (Q := fun _ heap => heap.Roomy length h) ?_ fun _ => ih
    rintro heap u heap' ⟨c, hc, hroom⟩ hrun
    obtain ⟨-, rfl⟩ := run_updateCell.mp hrun
    by_cases hk : h = k
    · subst hk
      exact ⟨_, get?_setCell_self hc (get?_eq_some.mp hc).2, hroom⟩
    · exact ⟨c, (get?_setCell_ne hk).trans hc, hroom⟩

theorem linkWeakRef {key value finalizer : Handle} {onExit : Bool} (hb : heap.Sized .weakRef 0 h)
    (hrun : (HeapM.linkWeakRef h key value finalizer onExit).run heap = .ok (u, heap')) :
    heap.Amends heap' := by
  simp only [HeapM.linkWeakRef, run_bind, run_get] at hrun
  obtain ⟨_, _, ⟨rfl, rfl⟩, _, mid, hfill, hrun⟩ := hrun
  refine .trans (setPayload (hb.roomy (p := .weakRef key value finalizer _) rfl) hfill) ?_
  split at hrun
  · refine bind (updateCell fun _ _ => .mapFlags rfl rfl) (fun _ => ?_) _ _ _ hrun
    exact modify (fun _ => rfl) (fun _ => rfl) fun _ =>
      Heap.pace_congr rfl rfl rfl rfl (Journal.ofCells_record_aside rfl)
  · obtain rfl := run_modify.mp hrun
    exact .aside rfl rfl (Heap.pace_congr rfl rfl rfl rfl (Journal.ofCells_record_aside rfl))

theorem cacheString {bytes : Bytes} {encoding : Encoding} {hash : UInt32} {ascii : Bool}
    (hs : heap.Sound) (hb : heap.Sized .charString bytes.size h)
    (hrun : (HeapM.cacheString h bytes encoding hash ascii).run heap = .ok (u, heap')) :
    heap.Amends heap' := by
  obtain ⟨payload, hpayload, hc⟩ := hb
  obtain ⟨on, hon⟩ := hs.chained
  obtain ⟨arena, strings, events, -, rfl, hrelinks, -⟩ :=
    run_cacheString (hs.ne_nil hc rfl) hc rfl hon hrun
  refine .trans (.setCell (f := Cell.interned bytes encoding hash ascii) hc ?_) (.relinks hrelinks)
  refine .fill (congrArg (Footprint.mk _ _) ?_) rfl rfl
  exact Payload.length_of_suits (p := .charString bytes encoding hash) rfl hpayload

theorem nameSymbol {sym name : Handle} {length : Nat} (hb : heap.Sized .symbol length sym)
    (hrun : (HeapM.nameSymbol sym name).run heap = .ok (u, heap')) : heap.Amends heap' := by
  obtain ⟨payload, -, hblank⟩ := hb
  simp only [HeapM.nameSymbol, run_bind] at hrun
  obtain ⟨_, mid, hflag, hname⟩ := hrun
  have hflagged : heap.Amends mid :=
    edit (fun c _ => .trans (.mapFlags rfl rfl) .mapRefCount) hflag
  refine hflagged.trans (edit (f := Cell.named name) (fun c hc => ?_) hname)
  have hperm : c.flags.permanent = false := by
    obtain ⟨-, rfl⟩ := run_updateCell.mp hflag
    by_cases hsame : sym = name
    · subst hsame
      obtain rfl := Option.some.inj
        ((get?_setCell_self hblank (get?_eq_some.mp hblank).2).symm.trans hc)
      rfl
    · obtain rfl := Option.some.inj (((get?_setCell_ne hsame).trans hblank).symm.trans hc)
      rfl
  rw [Cell.named_eq]
  refine .fill ?_ rfl hperm
  exact congrArg (Footprint.mk _ _) (by cases c.payload <;> rfl)

end HeapM.Retouches

end ManagedHeap
