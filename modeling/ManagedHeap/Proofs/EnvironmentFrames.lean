import Mathlib.Data.Finmap
import ManagedHeap.Proofs.AllocationFrame
import ManagedHeap.Proofs.StringShelves

/-!
# Frames

An environment holds its bindings in a list of pairs. Each pair has a value under a symbol for
its tag, and what follows is the rest of the list. Several environments are said to be regular
if their lists are finite and have no pair in common, if no list has two pairs for one symbol,
and if each environment lies within one that was made earlier.
-/

namespace ManagedHeap

/-- What an environment binds: at most one value to each symbol. -/
abbrev Bindings := Finmap fun _ : Handle => Handle

/-- A pair of a frame: the symbol that it binds, and the value. -/
structure Binding where
  cell : Handle
  sym : Handle
  value : Handle

namespace Binding

def map (bs : List Binding) : Bindings :=
  (bs.map fun b => (⟨b.sym, b.value⟩ : Σ _ : Handle, Handle)).toFinmap

theorem lookup_map (bs : List Binding) (sym : Handle) :
    (map bs).lookup sym = (bs.find? fun b => b.sym = sym).map (·.value) := by
  rw [map, Finmap.dlookup_list_toFinmap]
  induction bs with
  | nil => rfl
  | cons b bs ih =>
    rw [List.map_cons, List.find?_cons]
    by_cases hb : b.sym = sym
    · subst hb
      simp
    · rw [List.dlookup_cons_ne _ _ (Ne.symm hb), ih]
      simp [hb]

end Binding

/-- What an object holds that a program made. -/
def Graph.body (g : Graph) (h : Handle) : Option Payload :=
  (g h).bind fun c => if c.flags.permanent then none else some c.payload.forgetting

section Body

variable {g : Graph} {h k old new : Handle} {f : Cell → Cell} {p q : Payload} {heap : Heap}

theorem Graph.body_edit_ne (hk : k ≠ h) : (g.edit h f).body k = g.body k := by
  rw [body, edit_ne hk, body]

theorem Graph.body_edit (hpermanent : ∀ c, (f c).flags.permanent = c.flags.permanent)
    (hpayload : ∀ c, (f c).payload = c.payload) : (g.edit h f).body = g.body := by
  funext k
  by_cases hk : k = h
  · subst hk
    cases hc : g k with
    | none => simp [body, edit, hc]
    | some c =>
      rw [body, edit_self hc, body, hc]
      change (if (f c).flags.permanent then none else some (f c).payload.forgetting.forgetting) = _
      rw [hpermanent, hpayload, Cell.payload_forgetting_forgetting]
      rfl
  · exact body_edit_ne hk

theorem Graph.body_release : (g.release h).body = g.body := body_edit (fun _ => rfl) fun _ => rfl

theorem Graph.body_recount : (g.recount old new).body = g.body := by
  unfold recount
  split
  · rfl
  · exact body_release.trans (body_edit (fun _ => rfl) fun _ => rfl)

theorem Graph.body_rewritten (hp : g.body h = some p) :
    (g.edit h fun c => { c with payload := q }).body = Function.update g.body h q.forgetting := by
  funext k
  by_cases hk : k = h
  · subst hk
    obtain ⟨c, hc, hbody⟩ := Option.bind_eq_some_iff.mp hp
    have hperm : c.flags.permanent = false := by
      by_contra hperm
      rw [if_pos (by simpa using hperm)] at hbody
      cases hbody
    rw [Function.update_self, body, edit_self hc]
    change (if c.flags.permanent then none else some q.forgetting.forgetting) = _
    rw [hperm, Cell.payload_forgetting_forgetting]
    rfl
  · rw [Function.update_of_ne hk, body_edit_ne hk]

theorem Heap.body_eq_some : heap.graph.body h = some p ↔ ∃ c, heap.arena.get? h = some c ∧
    c.flags.permanent = false ∧ c.payload.forgetting = p := by
  rw [Graph.body, Heap.graph]
  constructor
  · intro hp
    obtain ⟨s, hs, hbody⟩ := Option.bind_eq_some_iff.mp hp
    obtain ⟨c, hc, rfl⟩ := Option.map_eq_some_iff.mp hs
    have hpermanent : c.seen.flags.permanent = c.flags.permanent := rfl
    rw [hpermanent] at hbody
    cases hperm : c.flags.permanent with
    | true => simp [hperm] at hbody
    | false =>
      simp only [hperm, Bool.false_eq_true, if_false, Option.some.injEq] at hbody
      exact ⟨c, hc, hperm, (Cell.payload_forgetting_forgetting _).symm.trans hbody⟩
  · rintro ⟨c, hc, hperm, rfl⟩
    rw [hc]
    change (if c.flags.permanent then none else some c.payload.forgetting.forgetting) = _
    rw [hperm, Cell.payload_forgetting_forgetting]
    rfl

theorem Heap.pair_of_body {car cdr tag : Handle} (hb : heap.graph.body h = some (.pair car cdr tag)) :
    ∃ c, heap.arena.get? h = some c ∧ c.flags.permanent = false ∧ c.payload = .pair car cdr tag := by
  obtain ⟨c, hc, hperm, hp⟩ := Heap.body_eq_some.mp hb
  cases hcp : c.payload <;> simp_all [Payload.forgetting]

theorem Heap.environment_of_body {frame enclos : Handle}
    (hb : heap.graph.body h = some (.environment frame enclos)) :
    ∃ c, heap.arena.get? h = some c ∧ c.flags.permanent = false ∧
      c.payload = .environment frame enclos := by
  obtain ⟨c, hc, hperm, hp⟩ := Heap.body_eq_some.mp hb
  cases hcp : c.payload <;> simp_all [Payload.forgetting]

end Body

/-- The pairs from a cursor on, each with what it binds. -/
inductive Frames (body : Handle → Option Payload) : Handle → List Binding → Prop
  | nil : Frames body .nil []
  | cons {b : Binding} {next : Handle} {bs : List Binding} : b.cell ≠ .nil →
      body b.cell = some (.pair b.value next b.sym) → Frames body next bs →
      Frames body b.cell (b :: bs)

/-- An environment, the one that it lies in, and what it binds. -/
structure Scope where
  env : Handle
  parent : Handle
  bindings : List Binding

namespace Scope

def parts (s : Scope) : List Handle := s.env :: s.bindings.map (·.cell)

/-- The environment has these bindings, and none of them twice. -/
structure On (body : Handle → Option Payload) (s : Scope) : Prop where
  frame : ∃ frame, body s.env = some (.environment frame s.parent) ∧ Frames body frame s.bindings
  names : (s.bindings.map (·.sym)).Nodup
  once : s.parts.Nodup

end Scope

def Nested : List Scope → Prop
  | [] => True
  | s :: ss => (s.parent = .nil ∨ s.parent ∈ ss.map (·.env)) ∧ Nested ss

/-- The environments are what they are said to be, and have no part in common. -/
structure Regular (body : Handle → Option Payload) (ss : List Scope) : Prop where
  on : ∀ s ∈ ss, s.On body
  apart : ss.Pairwise fun s t => s.parts.Disjoint t.parts
  nested : Nested ss

section Frames

variable {body body' : Handle → Option Payload} {cursor cell : Handle} {bs front back : List Binding}
  {s s' : Scope} {ss : List Scope}

theorem Frames.congr (hf : Frames body cursor bs) (hsame : ∀ b ∈ bs, body' b.cell = body b.cell) :
    Frames body' cursor bs := by
  induction hf with
  | nil => exact .nil
  | cons hne hb _ ih =>
    exact .cons hne ((hsame _ (by simp)).trans hb) (ih fun b hmem => hsame b (by simp [hmem]))

theorem Scope.On.congr (ho : s.On body) (hsame : ∀ h ∈ s.parts, body' h = body h) : s.On body' := by
  obtain ⟨⟨frame, henv, hf⟩, hnames, honce⟩ := ho
  refine ⟨⟨frame, (hsame _ (by simp [Scope.parts])).trans henv, hf.congr fun b hb => hsame _ ?_⟩,
    hnames, honce⟩
  exact List.mem_cons_of_mem _ (List.mem_map_of_mem hb)

namespace Regular

theorem congr (hr : Regular body ss) (hsame : ∀ s ∈ ss, ∀ h ∈ s.parts, body' h = body h) :
    Regular body' ss := ⟨fun s hs => (hr.on s hs).congr (hsame s hs), hr.apart, hr.nested⟩

theorem nested_congr {front back : List Scope} (henv : s'.env = s.env) (hparent : s'.parent = s.parent)
    (hn : Nested (front ++ s :: back)) : Nested (front ++ s' :: back) := by
  induction front with
  | nil => exact ⟨hparent ▸ hn.1, hn.2⟩
  | cons t front ih =>
    refine ⟨hn.1.imp_right fun hmem => ?_, ih hn.2⟩
    simpa [henv] using hmem

theorem disjoint {front back : List Scope} {t : Scope} {h : Handle}
    (hr : Regular body (front ++ s :: back)) (hs : h ∈ s.parts) (ht : t ∈ front ++ back)
    (hh : h ∈ t.parts) : False := by
  obtain ⟨-, hback, hacross⟩ := List.pairwise_append.mp hr.apart
  rcases List.mem_append.mp ht with ht | ht
  · exact hacross t ht s (by simp) hh hs
  · exact (List.pairwise_cons.mp hback).1 t ht hs hh

theorem amend {front back : List Scope} (hr : Regular body (front ++ s :: back)) (henv : s'.env = s.env)
    (hparent : s'.parent = s.parent) (hon : s'.On body')
    (hsame : ∀ t ∈ front ++ back, ∀ h ∈ t.parts, body' h = body h)
    (hnew : ∀ h ∈ s'.parts, h ∉ s.parts → ∀ t ∈ front ++ back, h ∉ t.parts) :
    Regular body' (front ++ s' :: back) := by
  obtain ⟨hfront, hback, hacross⟩ := List.pairwise_append.mp hr.apart
  obtain ⟨hself, hback⟩ := List.pairwise_cons.mp hback
  have hdisjoint : ∀ t ∈ front ++ back, s.parts.Disjoint t.parts → s'.parts.Disjoint t.parts := by
    intro t ht hd h hh ht'
    by_cases hold : h ∈ s.parts
    · exact hd hold ht'
    · exact hnew h hh hold t ht ht'
  refine ⟨?_, List.pairwise_append.mpr ⟨hfront, List.pairwise_cons.mpr ⟨?_, hback⟩, ?_⟩,
    nested_congr henv hparent hr.nested⟩
  · intro t ht
    rcases List.mem_append.mp ht with ht | ht
    · exact (hr.on t (by simp [ht])).congr (hsame t (by simp [ht]))
    rcases List.mem_cons.mp ht with rfl | ht
    · exact hon
    · exact (hr.on t (by simp [ht])).congr (hsame t (by simp [ht]))
  · exact fun t ht => hdisjoint t (by simp [ht]) (hself t ht)
  · intro t ht u hu
    rcases List.mem_cons.mp hu with rfl | hu
    · exact (hdisjoint t (by simp [ht]) (hacross t ht s (by simp)).symm).symm
    · exact hacross t ht u (by simp [hu])

end Regular

end Frames

theorem Frames.body_of_mem {body : Handle → Option Payload} {cursor : Handle} {bs : List Binding}
    {b : Binding} (hf : Frames body cursor bs) (hb : b ∈ bs) :
    b.cell ≠ .nil ∧ ∃ next, body b.cell = some (.pair b.value next b.sym) := by
  induction hf with
  | nil => cases hb
  | cons hne hbody _ ih =>
    rcases List.mem_cons.mp hb with rfl | hb
    · exact ⟨hne, _, hbody⟩
    · exact ih hb

theorem Scope.On.body_of_part {body : Handle → Option Payload} {s : Scope} {h : Handle}
    (ho : s.On body) (hh : h ∈ s.parts) : ∃ p, body h = some p ∧
      ∀ key value finalizer next, p ≠ .weakRef key value finalizer next := by
  obtain ⟨frame, henv, hf⟩ := ho.frame
  rcases List.mem_cons.mp hh with rfl | hh
  · exact ⟨_, henv, nofun⟩
  · obtain ⟨b, hb, rfl⟩ := List.mem_map.mp hh
    obtain ⟨-, next, hbody⟩ := hf.body_of_mem hb
    exact ⟨_, hbody, nofun⟩

theorem Scope.On.length_le {heap : Heap} {s : Scope} (ho : s.On heap.graph.body)
    (ht : heap.arena.Tidy) : s.bindings.length ≤ heap.arena.capacity := by
  obtain ⟨frame, -, hf⟩ := ho.frame
  rw [← List.length_map (·.cell)]
  refine Arena.length_le_capacity ht (List.nodup_cons.mp ho.once).2 fun h hh => ?_
  obtain ⟨b, hb, rfl⟩ := List.mem_map.mp hh
  obtain ⟨-, next, hbody⟩ := hf.body_of_mem hb
  obtain ⟨c, hc, -⟩ := Heap.body_eq_some.mp hbody
  exact ⟨c, hc⟩

theorem Regular.once {body : Handle → Option Payload} {ss : List Scope} (hr : Regular body ss) :
    (ss.map (·.env)).Nodup := by
  refine List.pairwise_map.mpr (hr.apart.imp fun hd heq => ?_)
  exact hd (List.mem_cons_self ..) (heq ▸ List.mem_cons_self ..)

theorem Regular.length_le {heap : Heap} {ss : List Scope} (hr : Regular heap.graph.body ss)
    (ht : heap.arena.Tidy) : ss.length ≤ heap.arena.capacity := by
  rw [← List.length_map (·.env)]
  refine Arena.length_le_capacity ht hr.once fun h hh => ?_
  obtain ⟨s, hs, rfl⟩ := List.mem_map.mp hh
  obtain ⟨frame, henv, -⟩ := (hr.on s hs).frame
  obtain ⟨c, hc, -⟩ := Heap.body_eq_some.mp henv
  exact ⟨c, hc⟩

/-- Looking up a symbol in the environment itself answers what the map says. -/
def Heap.Maps (heap : Heap) (env : Handle) (m : Bindings) : Prop :=
  ∀ sym, (HeapM.findVarInFrame env sym).run heap = .ok (m.lookup sym, heap)

namespace HeapM

open Arena

variable {heap : Heap} {h car cdr tag sym cursor : Handle} {bs : List Binding} {s : Scope}

theorem ends_pairFields (hb : heap.graph.body h = some (.pair car cdr tag)) :
    (pairFields h).run heap = .ok ((car, cdr, tag), heap) := by
  obtain ⟨c, hc, -, hp⟩ := Heap.pair_of_body hb
  simp only [pairFields, run_bind, run_payload]
  exact ⟨_, _, ⟨c, hc, hp, rfl⟩, rfl⟩

theorem ends_car (hb : heap.graph.body h = some (.pair car cdr tag)) :
    (HeapM.car h).run heap = .ok (car, heap) := run_bind.mpr ⟨_, _, ends_pairFields hb, rfl⟩

theorem ends_cdr (hb : heap.graph.body h = some (.pair car cdr tag)) :
    (HeapM.cdr h).run heap = .ok (cdr, heap) := run_bind.mpr ⟨_, _, ends_pairFields hb, rfl⟩

theorem ends_tag (hb : heap.graph.body h = some (.pair car cdr tag)) :
    (HeapM.tag h).run heap = .ok (tag, heap) := run_bind.mpr ⟨_, _, ends_pairFields hb, rfl⟩

theorem ends_searchFrame {fuel : Nat} (hf : Frames heap.graph.body cursor bs) (hfuel : bs.length < fuel) :
    (searchFrame sym cursor fuel).run heap =
      .ok ((bs.find? fun b => b.sym = sym).map (·.cell), heap) := by
  induction fuel generalizing cursor bs with
  | zero => omega
  | succ fuel ih =>
    cases hf with
    | nil => rfl
    | @cons b next bs hne hb hrest =>
      rw [searchFrame, if_neg (by simpa [Handle.isNil] using hne)]
      refine run_bind.mpr ⟨_, _, ends_tag hb, ?_⟩
      by_cases hsym : b.sym = sym
      · simp [hsym]
        rfl
      · rw [if_neg hsym]
        refine run_bind.mpr ⟨_, _, ends_cdr hb, ?_⟩
        rw [ih hrest (by simpa using hfuel), List.find?_cons]
        simp [hsym]

theorem ends_envFrame {env frame enclos : Handle}
    (hb : heap.graph.body env = some (.environment frame enclos)) :
    (envFrame env).run heap = .ok (frame, heap) := by
  obtain ⟨c, hc, -, hp⟩ := Heap.environment_of_body hb
  simp only [envFrame, run_bind, run_payload]
  exact ⟨_, _, ⟨c, hc, hp, rfl⟩, rfl⟩

theorem ends_envEnclos {env frame enclos : Handle}
    (hb : heap.graph.body env = some (.environment frame enclos)) :
    (envEnclos env).run heap = .ok (enclos, heap) := by
  obtain ⟨c, hc, -, hp⟩ := Heap.environment_of_body hb
  simp only [envEnclos, run_bind, run_payload]
  exact ⟨_, _, ⟨c, hc, hp, rfl⟩, rfl⟩

theorem ends_frameBinding (ho : s.On heap.graph.body) (ht : heap.arena.Tidy) (sym : Handle) :
    (frameBinding s.env sym).run heap =
      .ok ((s.bindings.find? fun b => b.sym = sym).map (·.cell), heap) := by
  obtain ⟨frame, henv, hf⟩ := ho.frame
  refine run_bind.mpr ⟨_, _, ends_envFrame henv, run_bind.mpr ⟨_, _, run_walkBound.mpr ⟨rfl, rfl⟩, ?_⟩⟩
  exact ends_searchFrame hf (Nat.lt_succ_of_le (ho.length_le ht))

end HeapM

theorem Scope.On.maps {heap : Heap} {s : Scope} (ho : s.On heap.graph.body) (ht : heap.arena.Tidy) :
    heap.Maps s.env (Binding.map s.bindings) := by
  intro sym
  refine run_bind.mpr ⟨_, _, HeapM.ends_frameBinding ho ht sym, ?_⟩
  rw [Binding.lookup_map]
  cases hfound : s.bindings.find? fun b => b.sym = sym with
  | none => rfl
  | some b =>
    obtain ⟨frame, -, hf⟩ := ho.frame
    obtain ⟨-, next, hb⟩ := hf.body_of_mem (List.mem_of_find?_eq_some hfound)
    exact run_bind.mpr ⟨_, _, HeapM.ends_car hb, rfl⟩

end ManagedHeap
