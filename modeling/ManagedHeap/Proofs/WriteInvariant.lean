import ManagedHeap.Proofs.CollectionInvariant
import ManagedHeap.Proofs.ReadOnly

/-!
# Writing keeps the invariant

Each setter opens the object for writing before it writes, and counts a reference to the
new value, which therefore is alive. So no setter makes an edge that dangles, or one to a
younger object that nobody remembers.
-/

namespace ManagedHeap

namespace Cell.Adjusts

variable {a : Arena} {h : Handle} {c d : Cell}

theorem header (hpayload : d.payload = c.payload) (hattrib : d.attrib = c.attrib)
    (hkind : d.kind = c.kind) (hgeneration : d.header.generation = c.header.generation)
    (hmarked : d.flags.marked = c.flags.marked) (hcached : d.flags.cached = c.flags.cached)
    (hremembered : d.flags.remembered = c.flags.remembered)
    (hpermanent : d.flags.permanent = c.flags.permanent)
    (hname : c.flags.symbolName = true → d.flags.symbolName = true) : c.Adjusts a h d := by
  have hedges : d.edges true = c.edges true := by
    simp only [Cell.edges, hcached, hattrib, hpayload]
  refine ⟨hkind, hgeneration, hmarked, hcached.trans, fun hd => .inl (hcached.symm.trans hd),
    hremembered.trans, hpermanent, hname, ?_, fun _ => hattrib, ?_, ?_⟩
  · rw [hpayload, hkind]
    exact id
  · intro name value internal lastEnv hd
    exact .inl ⟨_, _, _, hpayload.symm.trans hd⟩
  · intro k hk
    exact .inl (hedges ▸ hk)

theorem payload {p : Payload} (hsuits : c.payload.suits c.kind = true → p.suits c.kind = true)
    (hname : ∀ {name value internal lastEnv}, p = .symbol name value internal lastEnv →
      (∃ value' internal' lastEnv', c.payload = .symbol name value' internal' lastEnv') ∨
      name = h ∨ ∃ n, a.get? name = some n ∧ n.Anchored)
    (hchildren : ∀ k ∈ p.children true,
      k ∈ c.payload.children true ∨ (c.Open ∧ a.contains k = true)) :
    c.Adjusts a h { c with payload := p } := by
  refine ⟨rfl, rfl, rfl, id, .inl, id, rfl, id, hsuits, fun _ => rfl, hname, ?_⟩
  intro k hk
  unfold Cell.edges at hk ⊢
  split at hk
  · rename_i hcached
    have hflag : c.flags.cached = true := hcached
    rw [if_pos hflag]
    exact hchildren k hk
  · rename_i hcached
    have hflag : ¬ c.flags.cached = true := hcached
    rw [if_neg hflag]
    rcases List.mem_cons.mp hk with rfl | hk
    · exact .inl List.mem_cons_self
    · exact (hchildren k hk).imp_left (List.mem_cons_of_mem _)

theorem attrib {x : Handle} (huncached : c.flags.cached = false) (hopen : c.Open)
    (hx : x = c.attrib ∨ a.contains x = true) : c.Adjusts a h { c with attrib := x } := by
  refine ⟨rfl, rfl, rfl, id, .inl, id, rfl, id, id, ?_, fun hd => .inl ⟨_, _, _, hd⟩, ?_⟩
  · intro hcached
    rw [huncached] at hcached
    exact nomatch hcached
  · intro k hk
    have hflag : ¬ c.flags.cached = true := by simp [huncached]
    change k ∈ (if c.flags.cached = true then c.payload.children true
      else x :: c.payload.children true) at hk
    unfold Cell.edges
    rw [if_neg hflag] at hk ⊢
    rcases List.mem_cons.mp hk with rfl | hk
    · rcases hx with rfl | hlive
      · exact .inl List.mem_cons_self
      · exact .inr ⟨hopen, hlive⟩
    · exact .inl (List.mem_cons_of_mem _ hk)

end Cell.Adjusts

namespace HeapM

open Arena

variable {α : Type} {heap heap' : Heap} {h value : Handle}

def Safe (act : HeapM α) : Prop := Triple Heap.Sound act fun _ => Heap.Sound

theorem run_closeScope {base : Nat} {u : PUnit}
    (hrun : (closeScope base).run heap = .ok (u, heap')) :
    heap' = { heap with protect := heap.protect.truncate base } := by
  simp only [closeScope, protectDepth, run_bind, run_get, run_pure] at hrun
  obtain ⟨_, _, ⟨_, _, ⟨rfl, rfl⟩, rfl, rfl⟩, hrun⟩ := hrun
  split at hrun
  · simp only [run_bind, run_throw, false_and, exists_false] at hrun
  · exact (run_modify.mp hrun).symm

namespace Safe

variable {β : Type} {x : HeapM α} {f : α → HeapM β}

theorem bind (hx : Safe x) (hf : ∀ a, Safe (f a)) : Safe (x >>= f) := Triple.bind hx hf

theorem pure {a : α} : Safe (pure a) := Triple.pure fun _ => id

theorem throw {e : Fault} : Safe (throw e : HeapM α) := Triple.throw

theorem of_reads (hx : Reads x) : Safe x := Triple.of_reads hx fun _ _ => id

theorem get : Safe get := of_reads .get

theorem modify {g : Heap → Heap} (hconfig : ∀ heap, (g heap).config = heap.config)
    (harena : ∀ heap, (g heap).arena = heap.arena) (hstrings : ∀ heap, (g heap).strings = heap.strings)
    (hremembered : ∀ heap, (g heap).remembered = heap.remembered)
    (htasks : ∀ heap, (g heap).tasks = heap.tasks) : Safe (modify g) :=
  Triple.modify fun heap hs =>
    hs.aside (hconfig heap) (harena heap) (hstrings heap) (hremembered heap) (htasks heap)

theorem updateCell {g : Cell → Cell} (hg : ∀ heap c, Heap.Sound heap → heap.arena.get? h = some c →
    c.Adjusts heap.arena h (g c) ∧ (g c).flags.remembered = c.flags.remembered) :
    Safe (updateCell h g) := by
  intro heap u heap' hs hrun
  obtain ⟨⟨c, hc⟩, rfl⟩ := run_updateCell.mp hrun
  obtain ⟨hadjusts, hremembered⟩ := hg heap c hs hc
  exact hs.adjust hc hadjusts hremembered

theorem note {e : Event} : Safe (note e) :=
  modify (fun _ => rfl) (fun _ => rfl) (fun _ => rfl) (fun _ => rfl) fun _ => rfl

theorem modifyFinalizers {g : FinalizerState → FinalizerState} : Safe (modifyFinalizers g) :=
  modify (fun _ => rfl) (fun _ => rfl) (fun _ => rfl) (fun _ => rfl) fun _ => rfl

theorem noteCall {record function key : Handle} : Safe (noteCall record function key) :=
  modify (fun _ => rfl) (fun _ => rfl) (fun _ => rfl) (fun _ => rfl) fun _ => rfl

theorem countRun : Safe countRun :=
  modify (fun _ => rfl) (fun _ => rfl) (fun _ => rfl) (fun _ => rfl) fun _ => rfl

theorem modifyRoots {g : RootSet → RootSet} : Safe (modifyRoots g) :=
  modify (fun _ => rfl) (fun _ => rfl) (fun _ => rfl) (fun _ => rfl) fun _ => rfl

theorem openTransient {hs : List Handle} : Safe (openTransient hs) :=
  bind get fun _ => bind modifyRoots fun _ => pure

theorem closeTransient {depth : Nat} : Safe (closeTransient depth) := modifyRoots

theorem onProtect {g : ProtectStack → Except Fault (α × ProtectStack)} : Safe (onProtect g) := by
  intro heap a heap' hs hrun
  simp only [HeapM.onProtect, StateT.run] at hrun
  split at hrun
  · rw [Except.ok.injEq, Prod.mk.injEq] at hrun
    obtain ⟨-, rfl⟩ := hrun
    exact hs.aside rfl rfl rfl rfl rfl
  · exact nomatch hrun

theorem pushRoot : Safe (pushRoot h) := by
  refine bind onProtect fun result => ?_
  split
  · exact bind note fun _ => pure
  · exact pure

theorem popRoots {n : Nat} : Safe (popRoots n) := onProtect

theorem reprotect {i : Nat} : Safe (reprotect h i) := onProtect

theorem closeScope {base : Nat} : Safe (closeScope base) := by
  refine bind (of_reads .protectDepth) fun depth => ?_
  split
  · exact throw
  · exact modify (fun _ => rfl) (fun _ => rfl) (fun _ => rfl) (fun _ => rfl) fun _ => rfl

theorem leaveRecovery {scope : RecoveryScope} : Safe (leaveRecovery scope) := by
  refine bind (of_reads .enterRecovery) fun now => ?_
  split
  · exact throw
  · refine bind ?_ fun _ => bind modifyRoots fun _ => pure
    exact modify (fun _ => rfl) (fun _ => rfl) (fun _ => rfl) (fun _ => rfl) fun _ => rfl

theorem incrementRefCount : Safe (incrementRefCount h) :=
  updateCell fun _ _ _ _ => ⟨.header rfl rfl rfl rfl rfl rfl rfl rfl id, rfl⟩

theorem decrementRefCount : Safe (decrementRefCount h) :=
  updateCell fun _ _ _ _ => ⟨.header rfl rfl rfl rfl rfl rfl rfl rfl id, rfl⟩

theorem countReferences (hs : List Handle) : Safe (HostM.countReferences hs) := by
  induction hs with
  | nil => exact pure
  | cons h hs ih => exact bind incrementRefCount fun _ => ih

theorem replaceReference {old : Handle} : Safe (replaceReference old value) := by
  unfold HeapM.replaceReference
  split
  · exact pure
  · refine bind incrementRefCount fun _ => bind (of_reads .isLive) fun live => ?_
    split
    · exact decrementRefCount
    · exact pure

end Safe

theorem run_replaceReference {old : Handle} {u : PUnit}
    (hrun : (replaceReference old value).run heap = .ok (u, heap')) :
    old = value ∨ heap.arena.contains value = true := by
  unfold replaceReference at hrun
  split at hrun
  · rename_i hsame
    exact .inl hsame
  · simp only [incrementRefCount, run_bind, run_updateCell] at hrun
    obtain ⟨_, _, ⟨hlive, -⟩, -⟩ := hrun
    exact .inr (contains_iff.mpr hlive)

theorem run_countReferences {hs : List Handle} {u : PUnit}
    (hrun : (HostM.countReferences hs).run heap = .ok (u, heap')) :
    ∀ h ∈ hs, heap.arena.contains h = true := by
  induction hs generalizing heap with
  | nil => exact nofun
  | cons h hs ih =>
    simp only [HostM.countReferences, incrementRefCount, run_bind, run_updateCell] at hrun
    obtain ⟨_, _, ⟨hlive, rfl⟩, hrun⟩ := hrun
    intro k hk
    rcases List.mem_cons.mp hk with rfl | hk
    · exact contains_iff.mpr hlive
    · have hrest : (heap.arena.setCell h (Cell.mapRefCount .increment)).contains k = true :=
        ih hrun k hk
      rwa [contains_setCell (f := Cell.mapRefCount .increment) fun _ => rfl] at hrest

end HeapM

def Heap.OpenAt (heap : Heap) (h : Handle) : Prop := ∃ c, heap.arena.get? h = some c ∧ c.Open

def Cell.putElement (i : Nat) (value : Handle) (c : Cell) : Cell :=
  match c.payload with
  | .handles elements => { c with payload := .handles (elements.setIfInBounds i value) }
  | _ => c

theorem Cell.isFree_putElement (i : Nat) (value : Handle) (c : Cell) :
    (c.putElement i value).isFree = c.isFree := by
  unfold putElement
  split <;> rfl

/-- A payload that keeps its shape and the name of a symbol, and gets live edges only. -/
structure Payload.Rewrites (live : Handle → Prop) (p q : Payload) : Prop where
  suits : ∀ kind, p.suits kind = true → q.suits kind = true
  name : ∀ {name value internal lastEnv}, q = .symbol name value internal lastEnv →
    ∃ value' internal' lastEnv', p = .symbol name value' internal' lastEnv'
  children : ∀ k ∈ q.children true, k ∈ p.children true ∨ live k

/-- A payload whose slot for `old` has been filled with `new`. -/
structure Payload.Swaps (p q : Payload) (old new : Handle) : Prop where
  rewrites : p.Rewrites (· = new) q
  old : old ∈ p.children true

namespace HeapM

open Arena

variable {α : Type} {heap heap' : Heap} {h value : Handle}

theorem run_noteWrite {u : PUnit} (hrun : (noteWrite h).run heap = .ok (u, heap')) :
    ∃ c, heap.arena.get? h = some c ∧ ((c.Open ∧ heap' = heap) ∨
      (c.flags.remembered = false ∧ c.flags.permanent = false ∧ heap' = { heap with
        arena := heap.arena.setCell h (Cell.mapFlags fun fs => { fs with remembered := true })
        remembered := heap.remembered.push h })) := by
  simp only [noteWrite, run_bind, run_updateCell, setCell_id, run_cell] at hrun
  obtain ⟨_, _, ⟨-, rfl⟩, c, _, ⟨hc, rfl⟩, hrun⟩ := hrun
  refine ⟨c, hc, ?_⟩
  split at hrun
  · rename_i hold
    simp only [run_bind, run_updateCell, run_modify] at hrun
    obtain ⟨_, _, ⟨-, rfl⟩, rfl⟩ := hrun
    simp only [Bool.and_eq_true, bne_iff_ne, ne_eq, Bool.not_eq_true'] at hold
    exact .inr ⟨hold.1.2, hold.2, rfl⟩
  · rename_i hopen
    obtain ⟨-, rfl⟩ := run_pure.mp hrun
    simp only [Bool.and_eq_true, bne_iff_ne, ne_eq, Bool.not_eq_true', not_and,
      Bool.not_eq_false] at hopen
    refine .inl ⟨?_, rfl⟩
    by_cases hyoung : c.header.generation = .young
    · exact .inl hyoung
    · cases hremembered : c.flags.remembered with
      | true => exact .inr (.inl hremembered)
      | false => exact .inr (.inr (hopen ⟨hyoung, hremembered⟩))

theorem cached_noteWrite {u : PUnit} {c d : Cell} (hc : heap.arena.get? h = some c)
    (hd : heap'.arena.get? h = some d) (hrun : (noteWrite h).run heap = .ok (u, heap')) :
    d.flags.cached = c.flags.cached := by
  obtain ⟨e, he, ⟨-, rfl⟩ | ⟨-, -, rfl⟩⟩ := run_noteWrite hrun
  · rw [hc, Option.some.injEq] at hd
    rw [hd]
  · have hself : (heap.arena.setCell h
        (Cell.mapFlags fun fs => { fs with remembered := true })).get? h = some _ :=
      get?_setCell_self hc (get?_eq_some.mp hc).2
    have hsame := hself.symm.trans hd
    rw [Option.some.injEq] at hsame
    rw [← hsame]
    rfl

theorem noteWrite_open :
    Triple Heap.Sound (noteWrite h) fun _ heap => heap.Sound ∧ heap.OpenAt h := by
  intro heap u heap' hs hrun
  obtain ⟨c, hc, ⟨hopen, rfl⟩ | ⟨hremembered, hperm, rfl⟩⟩ := run_noteWrite hrun
  · exact ⟨hs, c, hc, hopen⟩
  · exact ⟨hs.remember hc hremembered hperm, _, get?_setCell_self hc (get?_eq_some.mp hc).2,
      .inr (.inl rfl)⟩

theorem run_exchange {expected : Shape} {f : Payload → Option (α × Payload)} {a : α}
    (hs : heap.Sound) (hrun : (exchange h expected f).run heap = .ok (a, heap')) :
    ∃ mid c p, Heap.Sound mid ∧ mid.arena.get? h = some c ∧ c.Open ∧ f c.payload = some (a, p) ∧
      heap' = { mid with arena := mid.arena.setCell h fun c => { c with payload := p } } := by
  simp only [exchange, run_bind, run_payload] at hrun
  obtain ⟨_, mid, hnote, _, _, ⟨c, hc, rfl, rfl⟩, hrun⟩ := hrun
  obtain ⟨hmid, d, hd, hopen⟩ := noteWrite_open _ _ _ hs hnote
  rw [hc, Option.some.injEq] at hd
  subst hd
  split at hrun
  · rename_i b p hf
    simp only [run_bind, run_updateCell, run_pure] at hrun
    obtain ⟨_, _, ⟨-, rfl⟩, rfl, rfl⟩ := hrun
    exact ⟨mid, c, p, hmid, hc, hopen, hf, rfl⟩
  · exact (run_wrongKind.mp hrun).elim

theorem exchange_sound {expected : Shape} {f : Payload → Option (α × Payload)} {a : α}
    (hs : heap.Sound) (hrun : (exchange h expected f).run heap = .ok (a, heap'))
    (hf : ∀ p q, f p = some (a, q) → p.Rewrites (heap'.arena.contains · = true) q) :
    heap'.Sound := by
  obtain ⟨mid, c, p, hmid, hc, hopen, hfc, rfl⟩ := run_exchange hs hrun
  obtain ⟨hsuits, hname, hchildren⟩ := hf c.payload p hfc
  refine hmid.adjust hc (.payload (hsuits c.kind) (fun hp => .inl (hname hp)) ?_) rfl
  intro k hk
  refine (hchildren k hk).imp_right fun hlive => ⟨hopen, ?_⟩
  exact (contains_setCell (f := fun c => { c with payload := p }) fun _ => rfl).symm.trans hlive

namespace Safe

theorem swap {expected : Shape} {f : Payload → Option (Handle × Payload)}
    (hf : ∀ p old q, f p = some (old, q) → p.Swaps q old value) :
    Safe (do
      let old ← exchange h expected f
      HeapM.replaceReference old value) := by
  intro heap u heap' hs hrun
  obtain ⟨old, mid, hexchange, hreplace⟩ := run_bind.mp hrun
  have hlive := run_replaceReference hreplace
  have hmid : mid.Sound := by
    refine exchange_sound hs hexchange ?_
    intro p q hpq
    obtain ⟨⟨hsuits, hname, hchildren⟩, hold⟩ := hf p old q hpq
    refine ⟨hsuits, hname, ?_⟩
    intro k hk
    rcases hchildren k hk with hk | rfl
    · exact .inl hk
    · rcases hlive with rfl | hlive
      · exact .inl hold
      · exact .inr hlive
  exact replaceReference _ _ _ hmid hreplace

theorem setCar : Safe (setCar h value) := by
  refine swap fun p old q hpq => ?_
  cases p
  case pair car cdr tag =>
    simp only [Option.some.injEq, Prod.mk.injEq] at hpq
    obtain ⟨rfl, rfl⟩ := hpq
    exact ⟨⟨fun k => by cases k <;> exact id, by simp, by simp [Payload.children]⟩,
      by simp [Payload.children]⟩
  all_goals cases hpq

theorem setCdr : Safe (setCdr h value) := by
  refine swap fun p old q hpq => ?_
  cases p
  case pair car cdr tag =>
    simp only [Option.some.injEq, Prod.mk.injEq] at hpq
    obtain ⟨rfl, rfl⟩ := hpq
    exact ⟨⟨fun k => by cases k <;> exact id, by simp, by simp [Payload.children]⟩,
      by simp [Payload.children]⟩
  all_goals cases hpq

theorem setTag : Safe (setTag h value) := by
  refine swap fun p old q hpq => ?_
  cases p
  case pair car cdr tag =>
    simp only [Option.some.injEq, Prod.mk.injEq] at hpq
    obtain ⟨rfl, rfl⟩ := hpq
    exact ⟨⟨fun k => by cases k <;> exact id, by simp, by simp [Payload.children]⟩,
      by simp [Payload.children]⟩
  all_goals cases hpq

theorem setSymbolValue : Safe (setSymbolValue h value) := by
  refine swap fun p old q hpq => ?_
  cases p
  case symbol name base internal lastEnv =>
    simp only [Option.some.injEq, Prod.mk.injEq] at hpq
    obtain ⟨rfl, rfl⟩ := hpq
    refine ⟨⟨fun k => by cases k <;> exact id, ?_, by simp [Payload.children]⟩,
      by simp [Payload.children]⟩
    intro name' value' internal' lastEnv' hq
    injection hq with hname
    exact ⟨_, _, _, by rw [hname]⟩
  all_goals cases hpq

theorem setFrame : Safe (setFrame h value) := by
  refine swap fun p old q hpq => ?_
  cases p
  case environment frame enclos =>
    simp only [Option.some.injEq, Prod.mk.injEq] at hpq
    obtain ⟨rfl, rfl⟩ := hpq
    exact ⟨⟨fun k => by cases k <;> exact id, by simp, by simp [Payload.children]⟩,
      by simp [Payload.children]⟩
  all_goals cases hpq

theorem setPromiseValue : Safe (setPromiseValue h value) := by
  intro heap u heap' hs hrun
  simp only [HeapM.setPromiseValue, run_bind] at hrun
  obtain ⟨⟨oldValue, oldEnv⟩, mid, hexchange, _, next, hreplace, hrest⟩ := hrun
  have hlive := run_replaceReference hreplace
  have hmid : mid.Sound := by
    have hnil : mid.arena.contains .nil = true := by
      obtain ⟨mid', c, p, hs', -, -, -, rfl⟩ := run_exchange hs hexchange
      obtain ⟨n, hn, -⟩ := hs'.nilLive
      exact (contains_setCell (f := fun c => { c with payload := p }) fun _ => rfl).trans
        (contains_of_get? hn)
    refine exchange_sound hs hexchange fun p q hpq => ?_
    cases p
    case promise expr env old =>
      simp only [Option.some.injEq, Prod.mk.injEq] at hpq
      obtain ⟨⟨rfl, rfl⟩, rfl⟩ := hpq
      refine ⟨fun k => by cases k <;> exact id, by simp, ?_⟩
      intro k hk
      simp only [Payload.children, List.mem_cons, List.not_mem_nil, or_false] at hk ⊢
      rcases hk with rfl | rfl | rfl
      · exact .inl (.inl rfl)
      · exact .inr hnil
      · rcases hlive with rfl | hlive
        · exact .inl (.inr (.inr rfl))
        · exact .inr hlive
    all_goals cases hpq
  exact replaceReference _ _ _ (replaceReference _ _ _ hmid hreplace) hrest

theorem run_vectorElt {i : Nat} {old : Handle} {c : Cell} (hc : heap.arena.get? h = some c)
    (hrun : (HeapM.vectorElt h i).run heap = .ok (.ok old, heap')) :
    ∃ elements : Array Handle, c.payload = .handles elements ∧ elements[i]? = some old := by
  simp only [HeapM.vectorElt, run_bind, run_payload] at hrun
  obtain ⟨_, _, ⟨d, hd, rfl, -⟩, hrun⟩ := hrun
  rw [hc, Option.some.injEq] at hd
  subst hd
  cases hp : c.payload with
  | handles elements =>
    simp only [hp] at hrun
    cases hi : elements[i]? with
    | none => simp only [hi, run_pure, reduceCtorEq, false_and] at hrun
    | some e =>
      simp only [hi, run_pure, Except.ok.injEq] at hrun
      exact ⟨elements, rfl, by rw [hi, hrun.1]⟩
  | _ =>
    simp only [hp] at hrun
    exact (run_wrongKind.mp hrun).elim

theorem setVectorElt {i : Nat} : Safe (setVectorElt h i value) := by
  intro heap r heap' hs hrun
  simp only [HeapM.setVectorElt, run_bind] at hrun
  obtain ⟨_, _, hnote, read, mid, hread, hrun⟩ := hrun
  obtain rfl := Reads.vectorElt _ _ _ hread
  obtain ⟨hmid, c, hc, hopen⟩ := noteWrite_open _ _ _ hs hnote
  cases read with
  | error e =>
    obtain ⟨-, rfl⟩ := run_pure.mp hrun
    exact hmid
  | ok old =>
    simp only [run_bind, run_updateCell, run_pure] at hrun
    obtain ⟨_, next, ⟨-, hnext⟩, _, _, hreplace, -, rfl⟩ := hrun
    change next = { mid with arena := mid.arena.setCell h (Cell.putElement i value) } at hnext
    subst hnext
    obtain ⟨elements, hp, hold⟩ := run_vectorElt hc hread
    have hput : c.putElement i value =
        { c with payload := .handles (elements.setIfInBounds i value) } := by
      simp only [Cell.putElement, hp]
    have hlive : old = value ∨ mid.arena.contains value = true := by
      refine (run_replaceReference hreplace).imp_right fun hl => ?_
      exact (contains_setCell (a := mid.arena) (h := h) (Cell.isFree_putElement i value)).symm.trans hl
    refine replaceReference _ _ _ (hmid.adjust hc ?_ ?_) hreplace
    · rw [hput]
      refine .payload ?_ nofun ?_
      · rw [hp]
        cases c.kind <;> exact id
      · intro k hk
        rw [hp]
        simp only [Payload.children, Array.mem_toList_iff] at hk ⊢
        rcases Array.mem_or_eq_of_mem_setIfInBounds hk with hk | rfl
        · exact .inl hk
        · rcases hlive with rfl | hlive
          · exact .inl (Array.mem_of_getElem? hold)
          · exact .inr ⟨hopen, hlive⟩
    · rw [hput]
      rfl

theorem setAttrib : Safe (setAttrib h value) := by
  intro heap u heap' hs hrun
  simp only [HeapM.setAttrib, run_bind, run_flags] at hrun
  obtain ⟨_, _, ⟨c₀, hc₀, rfl, rfl⟩, hrun⟩ := hrun
  split at hrun
  · simp only [run_bind, run_throw, false_and, exists_false] at hrun
  · rename_i huncached₀
    simp only [run_bind, run_cell, run_updateCell] at hrun
    obtain ⟨_, mid, hnote, c, _, ⟨hc, rfl⟩, _, next, ⟨-, hnext⟩, hreplace⟩ := hrun
    let put : Cell → Cell := fun c => { c with attrib := value }
    change next = { mid with arena := mid.arena.setCell h put } at hnext
    subst hnext
    obtain ⟨hmid, d, hd, hopen⟩ := noteWrite_open _ _ _ hs hnote
    rw [hc, Option.some.injEq] at hd
    subst hd
    have hcached := cached_noteWrite hc₀ hc hnote
    have hlive : c.attrib = value ∨ mid.arena.contains value = true := by
      refine (run_replaceReference hreplace).imp_right fun hl => ?_
      exact (contains_setCell (a := mid.arena) (h := h) (f := put) fun _ => rfl).symm.trans hl
    refine replaceReference _ _ _ (hmid.adjust hc (.attrib ?_ hopen ?_) rfl) hreplace
    · rw [hcached]
      simpa using huncached₀
    · exact hlive.imp_left Eq.symm

end Safe

end HeapM

end ManagedHeap
