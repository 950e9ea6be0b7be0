import ManagedHeap.Proofs.SessionHistories
import ManagedHeap.Proofs.FrameUpdates

/-!
# Searching a frame

Nothing keeps a program from linking the pairs of a frame in a circle, or from binding a symbol
twice in it. A search comes to an end exactly if it takes some number of steps to the binding or
to the end of the frame; then it has passed no pair twice, so that its bound is no restriction.
-/

namespace ManagedHeap

def Payload.links? : Payload → Option (Handle × Handle × Handle)
  | .pair car cdr tag => some (car, cdr, tag)
  | .nil => some (.nil, .nil, .nil)
  | _ => none

def Payload.frame? : Payload → Option Handle
  | .environment frame _ => some frame
  | _ => none

theorem Payload.links?_forgetting (p : Payload) : p.forgetting.links? = p.links? := by
  cases p <;> rfl

theorem Payload.frame?_forgetting (p : Payload) : p.forgetting.frame? = p.frame? := by
  cases p <;> rfl

def Graph.reads {α : Type} (g : Graph) (f : Payload → Option α) (h : Handle) : Option α :=
  (g h).bind fun c => f c.payload

abbrev Graph.links (g : Graph) : Handle → Option (Handle × Handle × Handle) := g.reads Payload.links?

section Reads

variable {α : Type} {g : Graph} {f : Payload → Option α} {h old new : Handle} {c : Cell} {p : Payload}
  {a : α} {heap : Heap}

theorem Graph.reads_rewritten (hf : ∀ p, f p.forgetting = f p) (hc : g h = some c) :
    (g.edit h fun c => { c with payload := p }).reads f = Function.update (g.reads f) h (f p) := by
  funext k
  by_cases hk : k = h
  · subst hk
    rw [reads, edit_self hc, Function.update_self]
    exact hf p
  · rw [Function.update_of_ne hk, reads, edit_ne hk, reads]

theorem Graph.reads_mapRefCount (hf : ∀ p, f p.forgetting = f p) (count : RefCount → RefCount) :
    (g.edit h (Cell.mapRefCount count)).reads f = g.reads f := by
  funext k
  by_cases hk : k = h
  · subst hk
    cases hc : g k with
    | none => rw [edit_of_dead hc]
    | some c =>
      rw [reads, edit_self hc, reads, hc]
      exact hf c.payload
  · rw [reads, edit_ne hk, reads]

theorem Graph.reads_recount (hf : ∀ p, f p.forgetting = f p) :
    (g.recount old new).reads f = g.reads f := by
  unfold recount
  split
  · rfl
  · exact (reads_mapRefCount hf _).trans (reads_mapRefCount hf _)

theorem Heap.reads_eq_some (hf : ∀ p, f p.forgetting = f p) :
    heap.graph.reads f h = some a ↔ ∃ c, heap.arena.get? h = some c ∧ f c.payload = some a := by
  rw [Graph.reads, Heap.graph]
  constructor
  · intro ha
    obtain ⟨s, hs, ha⟩ := Option.bind_eq_some_iff.mp ha
    obtain ⟨c, hc, rfl⟩ := Option.map_eq_some_iff.mp hs
    exact ⟨c, hc, (hf c.payload).symm.trans ha⟩
  · rintro ⟨c, hc, ha⟩
    rw [hc]
    exact (hf c.payload).trans ha

end Reads

/-- A search from a cursor on passes a number of pairs and comes to the binding cell of a symbol,
which has a value, or to the end. -/
inductive Seeks (links : Handle → Option (Handle × Handle × Handle)) (sym : Handle) :
    Nat → Handle → Option (Handle × Handle) → Prop
  | none : Seeks links sym 0 .nil none
  | found {cell value next : Handle} : cell ≠ .nil → links cell = some (value, next, sym) →
      Seeks links sym 0 cell (some (cell, value))
  | next {n : Nat} {cell value next tag : Handle} {answer : Option (Handle × Handle)} :
      cell ≠ .nil → links cell = some (value, next, tag) → tag ≠ sym →
      Seeks links sym n next answer → Seeks links sym (n + 1) cell answer

def Heap.Plain (heap : Heap) : Prop := ∀ h c, heap.arena.get? h = some c →
  c.flags.permanent = true → c.kind = .nil ∨ c.kind = .symbol

def Heap.Locates (heap : Heap) (env sym : Handle) (answer : Option (Handle × Handle)) : Prop :=
  ∃ frame n, heap.graph.reads Payload.frame? env = some frame ∧
    Seeks heap.graph.links sym n frame answer

namespace Seeks

variable {links links' : Handle → Option (Handle × Handle × Handle)}
  {sym cursor cell value next tag : Handle} {n m : Nat} {answer answer' : Option (Handle × Handle)}

theorem nil_iff : Seeks links sym n .nil answer ↔ n = 0 ∧ answer = .none := by
  constructor
  · intro hs
    cases hs with
    | none => exact ⟨rfl, rfl⟩
    | found hne => exact absurd rfl hne
    | next hne => exact absurd rfl hne
  · intro hend
    obtain ⟨rfl, rfl⟩ := hend
    exact .none

theorem pair_iff (hne : cell ≠ .nil) (hlinks : links cell = some (value, next, tag)) :
    Seeks links sym n cell answer ↔ (tag = sym ∧ n = 0 ∧ answer = some (cell, value)) ∨
      (tag ≠ sym ∧ ∃ m, n = m + 1 ∧ Seeks links sym m next answer) := by
  constructor
  · intro hs
    cases hs with
    | none => exact absurd rfl hne
    | found _ hl =>
      rw [hlinks, Option.some.injEq, Prod.mk.injEq, Prod.mk.injEq] at hl
      obtain ⟨rfl, -, rfl⟩ := hl
      exact .inl ⟨rfl, rfl, rfl⟩
    | next _ hl htag hrest =>
      rw [hlinks, Option.some.injEq, Prod.mk.injEq, Prod.mk.injEq] at hl
      obtain ⟨-, rfl, rfl⟩ := hl
      exact .inr ⟨htag, _, rfl, hrest⟩
  · intro hs
    rcases hs with ⟨rfl, rfl, rfl⟩ | ⟨htag, m, rfl, hrest⟩
    · exact .found hne hlinks
    · exact .next hne hlinks htag hrest

theorem unique (hs : Seeks links sym n cursor answer) (hs' : Seeks links sym m cursor answer') :
    n = m ∧ answer = answer' := by
  induction hs generalizing m with
  | none =>
    obtain ⟨rfl, rfl⟩ := nil_iff.mp hs'
    exact ⟨rfl, rfl⟩
  | found hne hl =>
    rcases (pair_iff hne hl).mp hs' with ⟨-, rfl, rfl⟩ | ⟨hother, -⟩
    · exact ⟨rfl, rfl⟩
    · exact absurd rfl hother
  | next hne hl htag _ ih =>
    rcases (pair_iff hne hl).mp hs' with ⟨hsame, -⟩ | ⟨-, m, rfl, hrest⟩
    · exact absurd hsame htag
    · obtain ⟨rfl, rfl⟩ := ih hrest
      exact ⟨rfl, rfl⟩

theorem binding (hs : Seeks links sym n cursor (some (cell, value))) :
    cell ≠ .nil ∧ ∃ next, links cell = some (value, next, sym) := by
  generalize hanswer : some (cell, value) = answer at hs
  induction hs with
  | none => cases hanswer
  | found hne hl =>
    obtain ⟨rfl, rfl⟩ := Prod.mk.inj (Option.some.inj hanswer)
    exact ⟨hne, _, hl⟩
  | next _ _ _ _ ih => exact ih hanswer

theorem passed (hs : Seeks links sym n cursor answer) : ∃ cells : List Handle, cells.length = n ∧
    cells.Nodup ∧ ∀ k ∈ cells, (links k).isSome = true ∧
      ∃ m, m ≤ n ∧ 0 < m ∧ Seeks links sym m k answer := by
  induction hs with
  | none => exact ⟨[], rfl, .nil, by simp⟩
  | found => exact ⟨[], rfl, .nil, by simp⟩
  | @next n cell value next tag answer hne hl htag hrest ih =>
    have hself : Seeks links sym (n + 1) cell answer := .next hne hl htag hrest
    obtain ⟨cells, hlength, honce, hall⟩ := ih
    refine ⟨cell :: cells, by simp [hlength], List.nodup_cons.mpr ⟨fun hmem => ?_, honce⟩, ?_⟩
    · -- a pair has one number of steps to go
      obtain ⟨-, m, hle, -, hs⟩ := hall cell hmem
      have := (hs.unique hself).1
      omega
    · intro k hk
      rcases List.mem_cons.mp hk with rfl | hk
      · exact ⟨by simp [hl], n + 1, Nat.le_refl _, Nat.succ_pos n, hself⟩
      · obtain ⟨hp, m, hle, hpos, hs⟩ := hall k hk
        exact ⟨hp, m, Nat.le_succ_of_le hle, hpos, hs⟩

theorem steps_le {heap : Heap} (hs : Seeks heap.graph.links sym n cursor answer)
    (ht : heap.arena.Tidy) : n ≤ heap.arena.capacity := by
  obtain ⟨cells, rfl, honce, hall⟩ := hs.passed
  refine Arena.length_le_capacity ht honce fun k hk => ?_
  obtain ⟨hlinks, -⟩ := hall k hk
  obtain ⟨_, ha⟩ := Option.isSome_iff_exists.mp hlinks
  obtain ⟨c, hc, -⟩ := (Heap.reads_eq_some Payload.links?_forgetting).mp ha
  exact ⟨c, hc⟩

theorem transfer {P : Handle → Prop} (hs : Seeks links sym n cursor answer) (hcursor : P cursor)
    (hsame : ∀ {k value next tag}, P k → links k = some (value, next, tag) → P next ∧
      ∃ value', links' k = some (value', next, tag) ∧ (tag = sym → value' = value)) :
    Seeks links' sym n cursor answer := by
  induction hs with
  | none => exact .none
  | found hne hl =>
    obtain ⟨-, value', hl', hvalue⟩ := hsame hcursor hl
    exact .found hne (hvalue rfl ▸ hl')
  | next hne hl htag _ ih =>
    obtain ⟨hnext, value', hl', -⟩ := hsame hcursor hl
    exact .next hne hl' htag (ih hnext)

theorem congr {P : Handle → Prop} (hcursor : P cursor)
    (hclosed : ∀ {k value next tag}, P k → links k = some (value, next, tag) → P next)
    (hsame : ∀ k, P k → links' k = links k ∨ ∃ value value' next tag, tag ≠ sym ∧
      links k = some (value, next, tag) ∧ links' k = some (value', next, tag)) :
    Seeks links sym n cursor answer ↔ Seeks links' sym n cursor answer := by
  constructor
  · intro hs
    refine hs.transfer hcursor fun {k v x t} hk hl => ⟨hclosed hk hl, ?_⟩
    rcases hsame k hk with heq | ⟨value, value', next, tag, hother, hold, hnew⟩
    · exact ⟨v, heq.trans hl, fun _ => rfl⟩
    · rw [hold, Option.some.injEq, Prod.mk.injEq, Prod.mk.injEq] at hl
      obtain ⟨rfl, rfl, rfl⟩ := hl
      exact ⟨value', hnew, fun he => absurd he hother⟩
  · intro hs
    refine hs.transfer hcursor fun {k v x t} hk hl => ?_
    rcases hsame k hk with heq | ⟨value, value', next, tag, hother, hold, hnew⟩
    · exact ⟨hclosed hk (heq.symm.trans hl), v, heq.symm.trans hl, fun _ => rfl⟩
    · rw [hnew, Option.some.injEq, Prod.mk.injEq, Prod.mk.injEq] at hl
      obtain ⟨rfl, rfl, rfl⟩ := hl
      exact ⟨hclosed hk hold, value, hold, fun he => absurd he hother⟩

theorem revalued {links : Handle → Option (Handle × Handle × Handle)} {new : Handle}
    (hs : Seeks links sym n cursor (some (cell, value))) (hcell : links cell = some (value, next, sym)) :
    Seeks (Function.update links cell (some (new, next, sym))) sym n cursor (some (cell, new)) := by
  generalize hanswer : some (cell, value) = answer at hs
  induction hs with
  | none => cases hanswer
  | found hne hl =>
    obtain ⟨rfl, rfl⟩ := Prod.mk.inj (Option.some.inj hanswer)
    exact .found hne (Function.update_self ..)
  | @next n k value _ tag _ hne hl htag _ ih =>
    have hk : k ≠ cell := by
      rintro rfl
      rw [hl, Option.some.injEq, Prod.mk.injEq, Prod.mk.injEq] at hcell
      exact htag hcell.2.2
    exact .next hne ((Function.update_of_ne hk ..).trans hl) htag (ih hanswer)

end Seeks

namespace Heap.Plain

variable {heap heap' : Heap} {h car cdr tag frame enclos : Handle} {c : Cell}

theorem not_permanent (hp : heap.Plain) (hs : heap.Sound) (hc : heap.arena.get? h = some c)
    (hnil : c.payload.suits .nil = false) (hsymbol : c.payload.suits .symbol = false) :
    c.flags.permanent = false := by
  by_contra hperm
  have hsuits := (hs.proper hc).suits
  rcases hp h c hc (by simpa using hperm) with hkind | hkind
  · rw [hkind, hnil] at hsuits
    cases hsuits
  · rw [hkind, hsymbol] at hsuits
    cases hsuits

theorem act {es : List Entry} (hp : heap.Plain) (ha : Act es heap heap') : heap'.Plain := by
  intro h d hd hperm
  cases ha with
  | retouch hr =>
    obtain ⟨c, hc, hpc, -⟩ := hr.permanent hd hperm
    have hkind : d.kind = c.kind := by
      have hfootprint := hr.footprints h
      rw [Arena.footprint?_of_get? hd, Arena.footprint?_of_get? hc, Option.some.injEq] at hfootprint
      exact congrArg Footprint.kind hfootprint
    exact hkind ▸ hp h c hc hpc
  | grow hrun =>
    rcases HeapM.grow_cases hrun with rfl | ⟨i, arena, event, hsegment, rfl⟩
    · exact hp h d hd hperm
    · exact hp h d ((Arena.get?_addSegment hsegment).symm.trans hd) hperm
  | @claim _ _ kind _ payload k hs hkind _ hrun =>
    obtain ⟨-, hcells⟩ := Act.claimed hs hkind hrun
    rw [hcells] at hd
    split at hd
    · obtain rfl := Option.some.inj hd
      cases hperm
    · exact hp h d hd hperm
  | collect hs hrun =>
    obtain ⟨records, hcol⟩ := HeapM.collect_collected hs hrun
    obtain ⟨c, hc, -⟩ := hcol.came hd
    have hsame := (hcol.same hc hd).lasting
    rw [Cell.kind_of_lasting hsame]
    exact hp h c hc ((Cell.permanent_of_lasting hsame).symm.trans hperm)

theorem of_lived {es : List Entry} (hl : heap.Lived es) : heap.Plain := by
  obtain ⟨start, ⟨config, hash, fresh, hvalid, hbuild, hstart, -⟩, hlives⟩ := hl
  induction hlives with
  | refl =>
    intro h c hc _
    rw [hstart] at hc
    obtain ⟨kind, payload, rfl, hkind⟩ := Heap.build_cells hbuild hc
    exact hkind.imp And.left And.left
  | tail _ ha ih => exact (ih hstart).act ha

theorem of_soundWithHistory (hv : heap.SoundWithHistory) : heap.Plain := by
  obtain ⟨-, ⟨es, hl⟩, -⟩ := hv
  exact .of_lived hl

end Heap.Plain

namespace HeapM

variable {heap heap' : Heap} {env sym cell frame : Handle} {found : Option Handle}

theorem run_pairFields_iff {slots : Handle × Handle × Handle} :
    (pairFields cell).run heap = .ok (slots, heap') ↔ heap' = heap ∧
      heap.graph.links cell = some slots := by
  rw [Heap.reads_eq_some Payload.links?_forgetting]
  simp only [pairFields, run_bind, run_payload]
  constructor
  · intro hrun
    obtain ⟨payload, _, ⟨c, hc, rfl, rfl⟩, hrun⟩ := hrun
    split at hrun
    · rename_i hpayload
      obtain ⟨rfl, rfl⟩ := run_pure.mp hrun
      exact ⟨rfl, c, hc, by rw [hpayload]; rfl⟩
    · rename_i hpayload
      obtain ⟨rfl, rfl⟩ := run_pure.mp hrun
      exact ⟨rfl, c, hc, by rw [hpayload]; rfl⟩
    · exact (run_wrongKind.mp hrun).elim
  · intro hread
    obtain ⟨rfl, c, hc, hlinks⟩ := hread
    refine ⟨c.payload, heap', ⟨c, hc, rfl, rfl⟩, ?_⟩
    cases hp : c.payload <;> simp only [hp, Payload.links?, reduceCtorEq, Option.some.injEq] at hlinks
    all_goals
      subst hlinks
      rfl

section Slots

variable {value next t : Handle} (hl : heap.graph.links cell = some (value, next, t))

include hl

theorem car_of_links : (car cell).run heap = .ok (value, heap) :=
  run_bind.mpr ⟨_, _, run_pairFields_iff.mpr ⟨rfl, hl⟩, rfl⟩

theorem cdr_of_links : (cdr cell).run heap = .ok (next, heap) :=
  run_bind.mpr ⟨_, _, run_pairFields_iff.mpr ⟨rfl, hl⟩, rfl⟩

theorem tag_of_links : (tag cell).run heap = .ok (t, heap) :=
  run_bind.mpr ⟨_, _, run_pairFields_iff.mpr ⟨rfl, hl⟩, rfl⟩

end Slots

theorem run_envFrame : (envFrame env).run heap = .ok (frame, heap') ↔ heap' = heap ∧
    heap.graph.reads Payload.frame? env = some frame := by
  rw [Heap.reads_eq_some Payload.frame?_forgetting]
  simp only [envFrame, run_bind, run_payload]
  constructor
  · intro hrun
    obtain ⟨payload, _, ⟨c, hc, rfl, rfl⟩, hrun⟩ := hrun
    split at hrun
    · rename_i hpayload
      obtain ⟨rfl, rfl⟩ := run_pure.mp hrun
      exact ⟨rfl, c, hc, by rw [hpayload]; rfl⟩
    · exact (run_wrongKind.mp hrun).elim
  · intro hread
    obtain ⟨rfl, c, hc, hframe⟩ := hread
    refine ⟨c.payload, heap', ⟨c, hc, rfl, rfl⟩, ?_⟩
    cases hp : c.payload <;> simp only [hp, Payload.frame?, reduceCtorEq, Option.some.injEq] at hframe
    subst hframe
    rfl

theorem seeks_of_searchFrame {fuel : Nat}
    (hrun : (searchFrame sym cell fuel).run heap = .ok (found, heap')) :
    heap' = heap ∧ ∃ n answer, Seeks heap.graph.links sym n cell answer ∧
      found = answer.map Prod.fst := by
  induction fuel generalizing cell with
  | zero => cases hrun
  | succ fuel ih =>
    rw [searchFrame] at hrun
    rcases run_ite.mp hrun with ⟨hnil, hend⟩ | ⟨hnil, hstep⟩
    · obtain ⟨rfl, rfl⟩ := run_pure.mp hend
      obtain rfl : cell = .nil := by simpa [Handle.isNil] using hnil
      exact ⟨rfl, 0, none, .none, rfl⟩
    · have hne : cell ≠ .nil := by simpa [Handle.isNil] using hnil
      obtain ⟨tag, _, htag, hrest⟩ := run_bind.mp hstep
      obtain ⟨⟨value, next, t⟩, _, hfields, hend⟩ := run_bind.mp htag
      obtain ⟨rfl, hl⟩ := run_pairFields_iff.mp hfields
      obtain ⟨rfl, rfl⟩ := run_pure.mp hend
      rcases run_ite.mp hrest with ⟨hfound, hend⟩ | ⟨hother, hmore⟩
      · obtain ⟨rfl, rfl⟩ := run_pure.mp hend
        change t = sym at hfound
        subst hfound
        exact ⟨rfl, 0, some (cell, value), .found hne hl, rfl⟩
      · obtain ⟨rest, _, hcdr, hlater⟩ := run_bind.mp hmore
        obtain ⟨slots, _, hagain, hnext⟩ := run_bind.mp hcdr
        obtain ⟨rfl, hslots⟩ := run_pairFields_iff.mp hagain
        obtain ⟨rfl, rfl⟩ := run_pure.mp hnext
        obtain rfl := Option.some.inj (hl.symm.trans hslots)
        obtain ⟨rfl, n, answer, hn, hanswer⟩ := ih hlater
        exact ⟨rfl, n + 1, answer, .next hne hl hother hn, hanswer⟩

theorem ends_of_seeks {n fuel : Nat} {answer : Option (Handle × Handle)}
    (hs : Seeks heap.graph.links sym n cell answer) (hfuel : n < fuel) :
    (searchFrame sym cell fuel).run heap = .ok (answer.map Prod.fst, heap) := by
  induction hs generalizing fuel with
  | none =>
    obtain ⟨fuel, rfl⟩ := Nat.exists_eq_add_one_of_ne_zero (Nat.ne_of_gt hfuel)
    rfl
  | found hne hl =>
    obtain ⟨fuel, rfl⟩ := Nat.exists_eq_add_one_of_ne_zero (Nat.ne_of_gt hfuel)
    rw [searchFrame, if_neg (by simpa [Handle.isNil] using hne)]
    refine run_bind.mpr ⟨_, _, tag_of_links hl, ?_⟩
    rw [if_pos rfl]
    rfl
  | next hne hl hother _ ih =>
    obtain ⟨fuel, rfl⟩ : ∃ m, fuel = m + 1 := Nat.exists_eq_add_one_of_ne_zero (by omega)
    rw [searchFrame, if_neg (by simpa [Handle.isNil] using hne)]
    refine run_bind.mpr ⟨_, _, tag_of_links hl, ?_⟩
    rw [if_neg hother]
    exact run_bind.mpr ⟨_, _, cdr_of_links hl, ih (Nat.lt_of_succ_lt_succ hfuel)⟩

theorem run_frameBinding (ht : heap.arena.Tidy) :
    (frameBinding env sym).run heap = .ok (found, heap') ↔ heap' = heap ∧
      ∃ answer, heap.Locates env sym answer ∧ found = answer.map Prod.fst := by
  constructor
  · intro hrun
    obtain ⟨frame, _, hframe, hrest⟩ := run_bind.mp hrun
    obtain ⟨rfl, hframe⟩ := run_envFrame.mp hframe
    obtain ⟨_, _, hbound, hsearch⟩ := run_bind.mp hrest
    obtain ⟨rfl, rfl⟩ := run_walkBound.mp hbound
    obtain ⟨rfl, n, answer, hn, hanswer⟩ := seeks_of_searchFrame hsearch
    exact ⟨rfl, answer, ⟨frame, n, hframe, hn⟩, hanswer⟩
  · intro hlocates
    obtain ⟨rfl, answer, ⟨frame, n, hframe, hn⟩, rfl⟩ := hlocates
    refine run_bind.mpr ⟨frame, heap', run_envFrame.mpr ⟨rfl, hframe⟩, ?_⟩
    refine run_bind.mpr ⟨_, heap', run_walkBound.mpr ⟨rfl, rfl⟩, ?_⟩
    exact ends_of_seeks hn (Nat.lt_succ_of_le (hn.steps_le ht))

theorem run_findVarInFrame (ht : heap.arena.Tidy) :
    (findVarInFrame env sym).run heap = .ok (found, heap') ↔ heap' = heap ∧
      ∃ answer, heap.Locates env sym answer ∧ found = answer.map Prod.snd := by
  have hcar : ∀ {cell value frame n},
      Seeks heap.graph.links sym n frame (some (cell, value)) →
      (car cell).run heap = .ok (value, heap) := fun hn => by
    obtain ⟨-, next, hl⟩ := hn.binding
    exact car_of_links hl
  constructor
  · intro hrun
    obtain ⟨cell?, _, hsearch, hrest⟩ := run_bind.mp hrun
    obtain ⟨rfl, answer, hlocates, rfl⟩ := (run_frameBinding ht).mp hsearch
    refine ⟨?_, answer, hlocates, ?_⟩
    all_goals
      obtain ⟨frame, n, -, hn⟩ := hlocates
      rcases answer with _ | ⟨cell, value⟩
      · obtain ⟨rfl, rfl⟩ := run_pure.mp hrest
        rfl
      · obtain ⟨_, _, hvalue, hend⟩ := run_bind.mp hrest
        rw [hcar hn, Except.ok.injEq, Prod.mk.injEq] at hvalue
        obtain ⟨rfl, rfl⟩ := hvalue
        obtain ⟨rfl, rfl⟩ := run_pure.mp hend
        rfl
  · intro hlocates
    obtain ⟨rfl, answer, hlocates, rfl⟩ := hlocates
    refine run_bind.mpr ⟨_, heap', (run_frameBinding ht).mpr ⟨rfl, answer, hlocates, rfl⟩, ?_⟩
    obtain ⟨frame, n, -, hn⟩ := hlocates
    rcases answer with _ | ⟨cell, value⟩
    · rfl
    · exact run_bind.mpr ⟨value, heap', hcar hn, rfl⟩

end HeapM

end ManagedHeap
