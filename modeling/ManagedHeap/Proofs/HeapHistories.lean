import Mathlib.Algebra.Ring.Parity
import ManagedHeap.Proofs.NewHeap
import ManagedHeap.Proofs.InPlaceChanges

/-!
# Histories of a heap

What operations do to the objects of a heap comes down to four acts: objects are retouched, a
segment is added, a cell is claimed, a collection runs. An act tells which cells were claimed
and which ones the free observer was called with, and the history of a heap is what its acts
told, one after the other, since it was new.
-/

namespace ManagedHeap

/-- One act, and what the history says of it. -/
inductive Heap.Act : List Entry → Heap → Heap → Prop
  | retouch {heap heap' : Heap} : heap.Retouches heap' →
      heap'.journal.ofCells = heap.journal.ofCells → Act [] heap heap'
  | grow {heap heap' : Heap} {n : NodeClass} {room : Bool} :
      (HeapM.grow n).run heap = .ok (room, heap') → Act [] heap heap'
  | claim {heap heap' : Heap} {kind : Kind} {length : Nat} {payload : Payload} {h : Handle} :
      heap.Sound → kind ≠ .free → Payload.forKind? kind length = some payload →
      (HeapM.claimCell? (.forRequest kind length) kind payload (HeapM.chunksFor kind length)).run
        heap = .ok (some h, heap') → Act [.claimed h kind] heap heap'
  | collect {heap heap' : Heap} {level : Level} {reason : Reason} {o : Outcome} : heap.Sound →
      (HeapM.collect level reason).run heap = .ok (o, heap') →
      Act ((heap.losses heap').map .loss ++ [.collected level]) heap heap'

/-- Acts one after the other, and what the history says of them. -/
inductive Heap.Lives : List Entry → Heap → Heap → Prop
  | refl {heap : Heap} : Lives [] heap heap
  | tail {es fs : List Entry} {heap mid heap' : Heap} : Lives es heap mid → Act fs mid heap' →
      Lives (es ++ fs) heap heap'

/-- A new heap, with whatever it is observed by. -/
def Heap.Born (heap : Heap) : Prop := ∃ config hash fresh, Config.Valid config ∧
  Heap.build config hash = .ok fresh ∧
    heap = { fresh with journal := heap.journal, tasks := heap.tasks } ∧
    ∃ past, heap.journal.ofCells = past ++ [.opened config]

/-- The history of a heap since it was new. -/
def Heap.Lived (es : List Entry) (heap : Heap) : Prop := ∃ start : Heap, start.Born ∧ start.Lives es heap

/-- The course of what happens to one cell: claims and calls of the observer take turns, and each
call tells the kind of the object that was claimed. In the end there is an object of some kind,
or there is none. -/
inductive Lifeline (h : Handle) : List Entry → Option Kind → Prop
  | unborn : Lifeline h [] none
  | claimed {es : List Entry} {kind : Kind} : Lifeline h es none →
      Lifeline h (es ++ [.claimed h kind]) (some kind)
  | freed {es : List Entry} {kind : Kind} : Lifeline h es (some kind) →
      Lifeline h (es ++ [.freed h kind]) none

theorem Lifeline.odd {h : Handle} {es : List Entry} {kind : Option Kind} (hl : Lifeline h es kind) :
    kind.isSome = true ↔ Odd es.length := by
  induction hl with
  | unborn => simp
  | claimed _ ih | freed _ ih =>
    rw [List.length_append, List.length_singleton, Nat.odd_add_one, ← ih]
    simp

namespace Entry

variable {h : Handle}

theorem about_reported {hs : List Handle} (lost : Handle → Option Kind) (honce : hs.Nodup) :
    about h ((hs.filterMap fun k => (lost k).map fun kind => (k, kind)).map loss) =
      if h ∈ hs then ((lost h).map (Entry.freed h)).toList else [] := by
  induction hs with
  | nil => rfl
  | cons k ks ih =>
    obtain ⟨hnew, honce⟩ := List.nodup_cons.mp honce
    by_cases hk : k = h
    · subst hk
      have hrest := ih honce
      rw [if_neg hnew] at hrest
      rw [if_pos List.mem_cons_self]
      cases hlost : lost k with
      | none => simpa only [List.filterMap_cons, hlost, Option.map_none, Option.toList_none] using hrest
      | some kind =>
        simpa only [List.filterMap_cons, hlost, Option.map_some, List.map_cons, about_cons, loss, cell?,
          if_true, Option.toList_some] using congrArg (Entry.freed k kind :: ·) hrest
    · have hmem : h ∈ k :: ks ↔ h ∈ ks := by simp [Ne.symm hk]
      simp only [hmem, ← ih honce]
      cases hlost : lost k with
      | none => simp only [List.filterMap_cons, hlost, Option.map_none]
      | some kind =>
        simp only [List.filterMap_cons, hlost, Option.map_some, List.map_cons, about_cons, loss, cell?,
          Option.some.injEq, hk, if_false]

end Entry

namespace Heap

/-- A collection freed `k` while the permanent object `h` held it. -/
def FreedWhileHeld (start heap : Heap) (h k : Handle) : Prop :=
  ∃ es fs before after level reason o c, start.Lives es before ∧ Sound before ∧
    (HeapM.collect level reason).run before = .ok (o, after) ∧ after.Lives fs heap ∧
    before.arena.get? h = some c ∧ c.flags.permanent = true ∧ k ∈ c.edges true ∧
    before.arena.contains k = true ∧ after.arena.contains k = false

def HoldsOrFreed (start heap : Heap) : Prop := ∀ {h c}, heap.arena.get? h = some c →
  c.flags.permanent = true → ∀ k ∈ c.edges true,
    heap.arena.contains k = true ∨ start.FreedWhileHeld heap h k

theorem FreedWhileHeld.tail {start heap heap' : Heap} {h k : Handle} {es : List Entry}
    (hs : start.FreedWhileHeld heap h k) (ha : Act es heap heap') : start.FreedWhileHeld heap' h k := by
  obtain ⟨es₁, fs, before, after, level, reason, o, c, hfirst, hsound, hrun, hlast, hrest⟩ := hs
  exact ⟨es₁, fs ++ es, before, after, level, reason, o, c, hfirst, hsound, hrun, hlast.tail ha,
    hrest⟩

end Heap

theorem Heap.Amends.act {heap heap' : Heap} (hr : heap.Amends heap') : Act [] heap heap' :=
  .retouch hr.toRetouches hr.ofCells

namespace Heap.Act

open Arena

variable {heap heap' : Heap} {es : List Entry} {h : Handle}

theorem ofCells (ha : Act es heap heap') :
    heap'.journal.ofCells = heap.journal.ofCells ++ es := by
  cases ha with
  | retouch _ hsame => rw [hsame, List.append_nil]
  | grow hrun =>
    rw [List.append_nil]
    rcases HeapM.grow_cases hrun with rfl | ⟨i, arena, event, -, rfl⟩
    · rfl
    · rfl
  | claim _ _ _ hrun =>
    rcases HeapM.run_claim hrun with ⟨hnone, -⟩ | ⟨g, arena, hg, -, rfl⟩
    · exact nomatch hnone
    · obtain rfl := Option.some.inj hg
      exact Journal.ofCells_record
  | collect hs hrun =>
    rw [(HeapM.collect_reports hs hrun).ofCells, Entry.filter_collected (fun _ => rfl) rfl]

theorem not_opened (ha : Act es heap heap') : ∀ e ∈ es, ∀ config, e ≠ .opened config := by
  rintro e he config rfl
  cases ha with
  | retouch | grow => cases he
  | claim => cases List.mem_singleton.mp he
  | collect =>
    rcases List.mem_append.mp he with he | he
    · obtain ⟨x, -, hx⟩ := List.mem_map.mp he
      cases hx
    · cases List.mem_singleton.mp he

theorem countersMatch (ha : Act es heap heap') (hb : heap.CountersMatch) : heap'.CountersMatch := by
  cases ha with
  | retouch hr _ => exact hr.countersMatch hb
  | grow hrun => exact hb.grow hrun
  | claim hs hkind hp hrun => exact hb.claim hs.tidy hkind hp rfl hrun
  | collect hs hrun => exact HeapM.collect_countersMatch hs hb hrun

theorem claimed {kind : Kind} {chunks : Nat} {payload : Payload} {n : NodeClass}
    (hs : heap.Sound) (hkind : kind ≠ .free)
    (hrun : (HeapM.claimCell? n kind payload chunks).run heap = .ok (some h, heap')) :
    heap.arena.get? h = none ∧ ∀ k, heap'.arena.get? k =
      if k = h then some (.blank kind payload) else heap.arena.get? k := by
  rcases HeapM.run_claim hrun with ⟨hnone, -⟩ | ⟨g, arena, hg, hclaim, rfl⟩
  · exact nomatch hnone
  · obtain rfl := Option.some.inj hg
    exact HeapM.get?_claim hs.tidy hkind hclaim

theorem about_losses (ht : heap.arena.Tidy) (h : Handle) :
    Entry.about h ((heap.losses heap').map .loss) =
      (((heap.arena.get? h).filter fun _ => !heap'.arena.contains h).map fun c =>
        Entry.freed h c.kind).toList := by
  have hreport := Entry.about_reported (h := h) (fun h =>
    ((heap.arena.get? h).filter fun _ => !heap'.arena.contains h).map Cell.kind) (positions_nodup ht)
  simp only [Option.map_map] at hreport
  refine hreport.trans ?_
  split
  · rfl
  · rename_i hout
    have hnone : heap.arena.get? h = none := by
      by_contra hsome
      obtain ⟨c, hc⟩ := Option.ne_none_iff_exists'.mp hsome
      exact hout ((mem_positions ht).mpr ⟨c, (get?_eq_some.mp hc).1⟩)
    rw [hnone]
    rfl

theorem lifeline (ha : Act es heap heap') {past : List Entry}
    (hl : Lifeline h past ((heap.arena.get? h).map Cell.kind)) :
    Lifeline h (past ++ Entry.about h es) ((heap'.arena.get? h).map Cell.kind) := by
  cases ha with
  | retouch hr _ =>
    have hkind := congrArg (Option.map Footprint.kind) (hr.footprints h)
    rw [footprint?, Option.map_map, footprint?, Option.map_map] at hkind
    rw [Entry.about_nil, List.append_nil]
    exact hkind ▸ hl
  | grow hrun =>
    rw [Entry.about_nil, List.append_nil, (HeapM.beside_grow hrun).1.cells]
    exact hl
  | @claim _ _ kind length payload k hs hkind hp hrun =>
    obtain ⟨hdead, hcells⟩ := claimed hs hkind hrun
    rw [hcells]
    by_cases hk : h = k
    · subst hk
      rw [hdead] at hl
      rw [if_pos rfl]
      simp only [Entry.about_cons, Entry.cell?, if_true, Entry.about_nil]
      exact .claimed hl
    · rw [if_neg hk]
      simpa only [Entry.about_cons, Entry.cell?, Option.some.injEq, Ne.symm hk, if_false,
        Entry.about_nil, List.append_nil] using hl
  | collect hs hrun =>
    rw [Entry.about_append, about_losses hs.tidy]
    simp only [Entry.about_cons, Entry.cell?, reduceCtorEq, if_false, Entry.about_nil, List.append_nil]
    obtain ⟨records, hcol⟩ := HeapM.collect_collected hs hrun
    cases hc : heap.arena.get? h with
    | none =>
      have hdead : heap'.arena.get? h = none := by
        by_contra hsome
        obtain ⟨d, hd⟩ := Option.ne_none_iff_exists'.mp hsome
        obtain ⟨c, hc', -⟩ := hcol.came hd
        cases hc.symm.trans hc'
      rw [hdead]
      rw [hc] at hl
      exact (List.append_nil past).symm ▸ hl
    | some c =>
      rw [hc, Option.map_some] at hl
      rw [Option.filter_some, contains]
      cases hd : heap'.arena.get? h with
      | none => exact .freed hl
      | some d =>
        have hkind := Cell.kind_of_lasting (hcol.same hc hd).lasting
        rw [Option.map_some, hkind]
        exact (List.append_nil past).symm ▸ hl

theorem holdsOrFreed {start : Heap} {past : List Entry} (ha : Act es heap heap')
    (hpast : start.Lives past heap) (hc : start.HoldsOrFreed heap) : start.HoldsOrFreed heap' := by
  intro h d hd hperm k hk
  have hnow := ha
  cases ha with
  | retouch hr _ =>
    obtain ⟨c, hget, hpermc, hedges⟩ := hr.permanent hd hperm
    rw [hr.contains]
    rcases hedges k hk with hold | hlive
    · exact (hc hget hpermc k hold).imp_right (·.tail hnow)
    · exact .inl hlive
  | grow hrun =>
    have hcells := (HeapM.beside_grow hrun).1.cells
    rw [hcells] at hd
    rw [contains, hcells, ← contains]
    exact (hc hd hperm k hk).imp_right (·.tail hnow)
  | @claim _ _ kind length payload g hs hkind hp hrun =>
    obtain ⟨hdead, hcells⟩ := claimed hs hkind hrun
    rw [hcells] at hd
    split at hd
    · obtain rfl := Option.some.inj hd
      cases hperm
    · refine (hc hd hperm k hk).imp (fun hlive => ?_) (·.tail hnow)
      obtain ⟨c, hget⟩ := contains_iff.mp hlive
      have hkg : k ≠ g := by
        rintro rfl
        cases hdead.symm.trans hget
      exact contains_iff.mpr ⟨c, by rw [hcells, if_neg hkg, hget]⟩
  | collect hs hrun =>
    obtain ⟨records, hcol⟩ := HeapM.collect_collected hs hrun
    obtain ⟨c, hget, -⟩ := hcol.came hd
    have hsame := (hcol.same hget hd).lasting
    have hpermc := (Cell.permanent_of_lasting hsame).symm.trans hperm
    rw [Cell.edges_of_lasting hsame] at hk
    cases hlive' : heap'.arena.contains k with
    | true => exact .inl rfl
    | false =>
      rcases hc hget hpermc k hk with hlive | hfreedWhileHeld
      · exact .inr ⟨past, [], heap, heap', _, _, _, c, hpast, hs, hrun, .refl, hget, hpermc, hk, hlive,
          hlive'⟩
      · exact .inr (hfreedWhileHeld.tail hnow)

end Heap.Act

namespace Heap

open Arena

variable {start heap : Heap} {es : List Entry}

theorem Act.lives {heap' : Heap} (ha : Act es heap heap') : heap.Lives es heap' := .tail .refl ha

theorem Lives.trans {mid : Heap} {fs : List Entry} (hfirst : start.Lives es mid)
    (hlast : mid.Lives fs heap) : start.Lives (es ++ fs) heap := by
  induction hlast with
  | refl => rwa [List.append_nil]
  | tail _ hact ih => exact List.append_assoc es _ _ ▸ (ih hfirst).tail hact

theorem Lives.aside {heap' : Heap} (harena : heap'.arena = heap.arena)
    (hgenerations : heap'.generations = heap.generations)
    (hcells : heap'.journal.ofCells = heap.journal.ofCells) : heap.Lives [] heap' :=
  (Act.retouch (.aside harena hgenerations) hcells).lives

theorem Lives.ofCells (hl : start.Lives es heap) :
    heap.journal.ofCells = start.journal.ofCells ++ es := by
  induction hl with
  | refl => exact (List.append_nil _).symm
  | tail _ hlast ih => rw [hlast.ofCells, ih, List.append_assoc]

theorem Lives.not_opened (hl : start.Lives es heap) : ∀ e ∈ es, ∀ config, e ≠ .opened config := by
  induction hl with
  | refl => exact fun _ he => absurd he List.not_mem_nil
  | tail _ hlast ih =>
    exact fun e he => (List.mem_append.mp he).elim (ih e) (hlast.not_opened e)

theorem Lived.eq_sinceOpened (hl : heap.Lived es) : es = Entry.sinceOpened heap.journal.ofCells := by
  obtain ⟨start, ⟨config, hash, fresh, -, -, -, past, hpast⟩, hlives⟩ := hl
  rw [hlives.ofCells, hpast, Entry.sinceOpened_append hlives.not_opened, Entry.sinceOpened_opened,
    List.nil_append]

theorem Lives.countersMatch (hl : start.Lives es heap) (hb : start.CountersMatch) : heap.CountersMatch := by
  induction hl with
  | refl => exact hb
  | tail _ hlast ih => exact hlast.countersMatch (ih hb)

theorem Lives.lifeline {h : Handle} (hl : start.Lives es heap)
    (hstart : Lifeline h [] ((start.arena.get? h).map Cell.kind)) :
    Lifeline h (Entry.about h es) ((heap.arena.get? h).map Cell.kind) := by
  induction hl with
  | refl => exact hstart
  | tail _ hlast ih =>
    rw [Entry.about_append]
    exact hlast.lifeline (ih hstart)

theorem Lives.holdsOrFreed (hl : start.Lives es heap) (hstart : start.HoldsOrFreed start) :
    start.HoldsOrFreed heap := by
  induction hl with
  | refl => exact hstart
  | tail hfirst hlast ih => exact hlast.holdsOrFreed hfirst (ih hstart)

theorem CountersMatch.install {kind : Kind} {payload : Payload} {h : Handle} {arena : Arena}
    (hb : heap.CountersMatch) (ht : heap.arena.Tidy) (hkind : kind ≠ .free)
    (hclass : NodeClass.forRequest kind payload.length = .fixed)
    (hi : installPermanent heap.arena kind payload h = .ok arena) :
    CountersMatch { heap with
      arena
      generations := heap.generations.modify .old fun u => { u with objects := u.objects + 1 } } := by
  refine hb.given (f := ⟨kind, .old, payload.length⟩) ht hkind rfl hclass
    (installPermanent_eq_ok hi) rfl ?_
  have hnone : Footprint.chunks ⟨kind, .old, payload.length⟩ = 0 := by
    simp only [Footprint.chunks, Footprint.nodeClass, hclass]
    rfl
  rw [hnone]
  rfl

theorem countersMatch_bare (config : Config) (hash : Bytes → Encoding → UInt32) :
    (bare config hash).CountersMatch := by
  have hnone : ∀ w, (Arena.empty config.segmentCells).total w = 0 := fun w => rfl
  have husage : ∀ n, (Arena.empty config.segmentCells).usage n = {} := fun n => by
    simp [usage, Arena.empty]
  refine ⟨⟨fun {h f} hf => ?_, fun {i m} hm => ?_, fun n => ?_, fun n => ?_, fun n => ?_⟩,
    fun g => ?_, fun g => ?_⟩
  · simp [footprint?, get?, cellAt?, bare, Arena.empty] at hf
  · simp [liveAt, bare, Arena.empty] at hm
  · exact congrArg ClassUsage.segments (husage n)
  · exact congrArg ClassUsage.cells (husage n)
  · exact congrArg ClassUsage.live (husage n)
  · cases g <;> rfl
  · cases g <;> rfl

theorem build_countersMatch {config : Config} {hash : Bytes → Encoding → UInt32} (hv : config.Valid)
    (hb : build config hash = .ok heap) : heap.CountersMatch := by
  obtain ⟨i, a₁, hsegment, -⟩ := first_segment config
  replace hb := furnish_of_build hb
  rw [furnish_after hsegment] at hb
  simp only [except_bind, pure, Except.pure, Except.ok.injEq] at hb
  obtain ⟨a₂, hnil, a₃, hunbound, rfl⟩ := hb
  have hbare := countersMatch_bare config hash
  have ht₁ := (empty_tidy hv.few).addSegment hsegment
  have hb₁ : CountersMatch { bare config hash with arena := a₁ } :=
    ⟨hbare.arena.addSegment hsegment, fun g => (hbare.objects g).trans (total_addSegment hsegment).symm,
      fun g => (hbare.bigChunks g).trans (total_addSegment hsegment).symm⟩
  have hb₂ := hb₁.install ht₁ (by decide) (by decide) hnil
  have hb₃ := hb₂.install (ht₁.claim (installPermanent_eq_ok hnil)) (by decide) (by decide) hunbound
  exact hb₃.aside rfl rfl

theorem build_only {config : Config} {hash : Bytes → Encoding → UInt32} {h : Handle} {c : Cell}
    (hb : build config hash = .ok heap) (hc : heap.arena.get? h = some c) :
    h ∈ [Handle.nil, .unbound] := by
  obtain ⟨i, a₁, hsegment, -⟩ := first_segment config
  replace hb := furnish_of_build hb
  rw [furnish_after hsegment] at hb
  simp only [except_bind, pure, Except.pure, Except.ok.injEq] at hb
  obtain ⟨a₂, hnil, a₃, hunbound, rfl⟩ := hb
  obtain ⟨-, -, hat₂⟩ := claim?_eq_some (installPermanent_eq_ok hnil)
  obtain ⟨-, -, hat₃⟩ := claim?_eq_some (installPermanent_eq_ok hunbound)
  obtain ⟨hat, hlive⟩ := get?_eq_some.mp hc
  by_contra hother
  simp only [List.mem_cons, List.not_mem_nil, or_false, not_or] at hother
  have hsame : a₃.cellAt? h = a₁.cellAt? h :=
    (hat₃ h).trans ((if_neg hother.2).trans ((hat₂ h).trans (if_neg hother.1)))
  have hfirst : a₁.get? h = some c := get?_eq_some.mpr ⟨hsame.symm.trans hat, hlive⟩
  exact nomatch (get?_addSegment hsegment).symm.trans hfirst

theorem build_ofCells {config : Config} {hash : Bytes → Encoding → UInt32} {heap : Heap}
    (hbuild : Heap.build config hash = .ok heap) : heap.journal.ofCells = [.opened config] := by
  obtain ⟨arena, -, rfl⟩ := build_eq_ok hbuild
  rfl

namespace Born

variable {start : Heap}

theorem build {config : Config} {hash : Bytes → Encoding → UInt32} (hv : Config.Valid config)
    (hbuild : Heap.build config hash = .ok start) : start.Born :=
  ⟨config, hash, start, hv, hbuild, rfl, [], build_ofCells hbuild⟩

theorem renewed {config : Config} {hash : Bytes → Encoding → UInt32} {old fresh : Heap}
    {tasks : Tasks} (hv : Config.Valid config) (hbuild : Heap.build config hash = .ok fresh) :
    Born { fresh with
      journal := { old.journal with
        observing := false
        history := old.journal.history ++ fresh.journal.history }
      tasks } := by
  refine ⟨config, hash, fresh, hv, hbuild, rfl, old.journal.ofCells, ?_⟩
  rw [← build_ofCells hbuild]
  exact Journal.ofCells_append rfl

theorem countersMatch (hb : start.Born) : start.CountersMatch := by
  obtain ⟨config, hash, fresh, hv, hbuild, hsame, -⟩ := hb
  rw [hsame]
  exact (build_countersMatch hv hbuild).aside rfl rfl

theorem lifeline {h : Handle} (hb : start.Born) (hh : h ∉ [Handle.nil, .unbound]) :
    Lifeline h [] ((start.arena.get? h).map Cell.kind) := by
  obtain ⟨config, hash, fresh, hv, hbuild, hsame, -⟩ := hb
  have hnone : start.arena.get? h = none := by
    by_contra hsome
    obtain ⟨c, hc⟩ := Option.ne_none_iff_exists'.mp hsome
    rw [hsame] at hc
    exact hh (build_only hbuild hc)
  rw [hnone]
  exact .unborn

theorem holdsOrFreed (hb : start.Born) : start.HoldsOrFreed start := by
  obtain ⟨config, hash, fresh, hv, hbuild, hsame, -⟩ := hb
  have harena : start.arena = fresh.arena := by rw [hsame]
  have hs := build_sound hv.few hv.names hbuild
  intro h c hc hperm k hk
  rw [harena] at hc ⊢
  have hkept : k = .nil ∨ k = .unbound := by
    obtain ⟨kind, payload, rfl, ⟨rfl, rfl⟩ | ⟨rfl, rfl⟩⟩ := build_cells hbuild hc
    · exact .inl (List.mem_singleton.mp hk)
    · change k ∈ [Handle.nil, .nil, .unbound, .nil] at hk
      simpa [or_comm] using hk
  rcases hkept with rfl | rfl
  · obtain ⟨d, hd, -⟩ := hs.nilLive
    exact .inl (contains_of_get? hd)
  · obtain ⟨d, hd, -⟩ := hs.unboundLive
    exact .inl (contains_of_get? hd)

end Born

end Heap

end ManagedHeap
