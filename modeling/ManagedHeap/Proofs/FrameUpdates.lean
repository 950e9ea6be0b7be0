import ManagedHeap.Proofs.EnvironmentFrames

/-!
# Changing a frame

A binding is replaced in its pair, a new one goes in front of the frame, and a binding is
removed by leading the pair before it, or the environment, past it. None of this can fail where
the environments are regular and the heap is sound, and it touches no other environment.
-/

namespace ManagedHeap

open Arena

section Slots

variable {heap heap' : Heap} {h k value : Handle} {p : Payload} {u : PUnit}

theorem Heap.Sound.live_of_body (hs : heap.Sound) (hb : heap.graph.body h = some p)
    (hk : k ∈ p.children true) : heap.arena.contains k = true := by
  obtain ⟨c, hc, hperm, rfl⟩ := Heap.body_eq_some.mp hb
  rw [Cell.children_forgetting] at hk
  obtain ⟨d, hd⟩ := hs.closed hc hperm (Cell.mem_edges_of_children hk)
  exact contains_of_get? hd

theorem Heap.contains_of_body (hb : heap.graph.body h = some p) : heap.arena.contains h = true := by
  obtain ⟨c, hc, -⟩ := Heap.body_eq_some.mp hb
  exact contains_of_get? hc

theorem Heap.Sound.ne_nil_of_body (hs : heap.Sound) (hb : heap.graph.body h = some p) : h ≠ .nil := by
  obtain ⟨c, hc, hperm, -⟩ := Heap.body_eq_some.mp hb
  exact hs.ne_nil hc hperm

/-- One object holds something else now. -/
structure Heap.Resets (heap heap' : Heap) (h : Handle) (p : Payload) : Prop where
  control : heap'.control = heap.control
  body : heap'.graph.body = Function.update heap.graph.body h (some p)

theorem Heap.Redrawn.resets {old : Handle} {q : Payload} (hb : heap.graph.body h = some p)
    (hq : q.forgetting = q)
    (hr : heap.Redrawn heap' ((heap.graph.edit h fun c => { c with payload := q }).recount old value)) :
    heap.Resets heap' h q := by
  refine ⟨hr.control, ?_⟩
  rw [hr.graph, Graph.body_recount, Graph.body_rewritten hb, hq]

theorem Heap.Resets.of_pair {car cdr tag : Handle} {q : Handle → Handle → Handle → Payload}
    {old : Handle → Handle → Handle → Handle} (hb : heap.graph.body h = some (.pair car cdr tag))
    (hq : (q car cdr tag).forgetting = q car cdr tag)
    (hr : ∃ c car cdr tag, heap.arena.get? h = some c ∧ c.payload = .pair car cdr tag ∧
      heap.Redrawn heap' ((heap.graph.edit h fun c =>
        { c with payload := q car cdr tag }).recount (old car cdr tag) value)) :
    heap.Resets heap' h (q car cdr tag) := by
  obtain ⟨c, _, _, _, hc, hp, hr⟩ := hr
  obtain ⟨d, hd, -, hdp⟩ := Heap.pair_of_body hb
  rw [hc, Option.some.injEq] at hd
  subst hd
  obtain ⟨rfl, rfl, rfl⟩ := Payload.pair.inj (hp.symm.trans hdp)
  exact hr.resets hb hq

namespace HeapM

variable {car cdr tag frame enclos : Handle}

theorem resets_setCar (hb : heap.graph.body h = some (.pair car cdr tag))
    (hrun : (setCar h value).run heap = .ok (u, heap')) :
    heap.Resets heap' h (.pair value cdr tag) :=
  .of_pair (q := fun _ cdr tag => .pair value cdr tag) hb rfl (redrawn_setCar hrun)

theorem resets_setCdr (hb : heap.graph.body h = some (.pair car cdr tag))
    (hrun : (setCdr h value).run heap = .ok (u, heap')) :
    heap.Resets heap' h (.pair car value tag) :=
  .of_pair (q := fun car _ tag => .pair car value tag) hb rfl (redrawn_setCdr hrun)

theorem resets_setTag (hb : heap.graph.body h = some (.pair car cdr tag))
    (hrun : (setTag h value).run heap = .ok (u, heap')) :
    heap.Resets heap' h (.pair car cdr value) :=
  .of_pair (q := fun car cdr _ => .pair car cdr value) hb rfl (redrawn_setTag hrun)

theorem resets_setFrame (hb : heap.graph.body h = some (.environment frame enclos))
    (hrun : (setFrame h value).run heap = .ok (u, heap')) :
    heap.Resets heap' h (.environment value enclos) := by
  obtain ⟨c, _, _, hc, hp, hr⟩ := redrawn_setFrame hrun
  obtain ⟨d, hd, -, hdp⟩ := Heap.environment_of_body hb
  rw [hc, Option.some.injEq] at hd
  subst hd
  obtain ⟨rfl, rfl⟩ := Payload.environment.inj (hp.symm.trans hdp)
  exact hr.resets hb rfl

theorem ends_noteWrite {c : Cell} (hc : heap.arena.get? h = some c) :
    ∃ mid d, (noteWrite h).run heap = .ok (⟨⟩, mid) ∧ mid.arena.get? h = some d ∧
      d.payload = c.payload ∧ ∀ k, mid.arena.contains k = heap.arena.contains k := by
  have hfirst : (updateCell h id).run heap = .ok (⟨⟩, heap) :=
    run_updateCell.mpr ⟨⟨c, hc⟩, by rw [setCell_id]⟩
  by_cases hold : (c.header.generation != .young && !c.flags.remembered && !c.flags.permanent) = true
  · let flag : Cell → Cell := Cell.mapFlags fun fs => { fs with remembered := true }
    refine ⟨{ heap with
        arena := heap.arena.setCell h flag
        remembered := heap.remembered.push h }, flag c, ?_,
      get?_setCell_self hc (get?_eq_some.mp hc).2, rfl, fun k => contains_setCell fun _ => rfl⟩
    refine run_bind.mpr ⟨_, _, hfirst, run_bind.mpr ⟨_, _, run_cell.mpr ⟨hc, rfl⟩, ?_⟩⟩
    refine run_ite.mpr (.inl ⟨hold, run_bind.mpr ⟨⟨⟩, _, run_updateCell.mpr ⟨⟨c, hc⟩, rfl⟩, ?_⟩⟩)
    exact run_modify.mpr rfl
  · refine ⟨heap, c, ?_, hc, rfl, fun _ => rfl⟩
    refine run_bind.mpr ⟨_, _, hfirst, run_bind.mpr ⟨_, _, run_cell.mpr ⟨hc, rfl⟩, ?_⟩⟩
    exact run_ite.mpr (.inr ⟨hold, run_pure.mpr ⟨rfl, rfl⟩⟩)

theorem ends_decrementRefCount (hlive : heap.arena.contains h = true) :
    ∃ heap', (decrementRefCount h).run heap = .ok (⟨⟩, heap') :=
  ⟨_, run_updateCell.mpr ⟨contains_iff.mp hlive, rfl⟩⟩

theorem ends_replaceReference {old : Handle} (hlive : heap.arena.contains value = true) :
    ∃ heap', (replaceReference old value).run heap = .ok (⟨⟩, heap') := by
  unfold replaceReference
  by_cases hsame : old = value
  · exact ⟨heap, run_ite.mpr (.inl ⟨hsame, rfl⟩)⟩
  let counted : Heap :=
    { heap with arena := heap.arena.setCell value (Cell.mapRefCount .increment) }
  have hcount : (incrementRefCount value).run heap = .ok (⟨⟩, counted) :=
    run_updateCell.mpr ⟨contains_iff.mp hlive, rfl⟩
  have hlook : (isLive old).run counted = .ok (counted.arena.contains old, counted) := rfl
  by_cases hold : counted.arena.contains old = true
  · obtain ⟨heap', hlast⟩ := ends_decrementRefCount hold
    exact ⟨heap', run_ite.mpr (.inr ⟨hsame, run_bind.mpr ⟨_, _, hcount, run_bind.mpr
      ⟨_, _, hlook, run_ite.mpr (.inl ⟨hold, hlast⟩)⟩⟩⟩)⟩
  · exact ⟨counted, run_ite.mpr (.inr ⟨hsame, run_bind.mpr ⟨_, _, hcount, run_bind.mpr
      ⟨_, _, hlook, run_ite.mpr (.inr ⟨hold, rfl⟩)⟩⟩⟩)⟩

theorem ends_swap {expected : Shape} {f : Payload → Option (Handle × Payload)} {c : Cell}
    {old : Handle} {q : Payload} (hc : heap.arena.get? h = some c)
    (hf : f c.payload = some (old, q)) (hlive : heap.arena.contains value = true) :
    ∃ heap', (do
      let old ← exchange h expected f
      replaceReference old value).run heap = .ok (⟨⟩, heap') := by
  obtain ⟨mid, d, hnote, hd, hdp, hsame⟩ := ends_noteWrite hc
  let written : Heap := { mid with arena := mid.arena.setCell h fun c => { c with payload := q } }
  have hexchange : (exchange h expected f).run heap = .ok (old, written) := by
    refine run_bind.mpr ⟨_, _, hnote, run_bind.mpr ⟨_, _, run_payload.mpr ⟨d, hd, rfl, rfl⟩, ?_⟩⟩
    rw [hdp, hf]
    exact run_bind.mpr ⟨⟨⟩, _, run_updateCell.mpr ⟨⟨d, hd⟩, rfl⟩, rfl⟩
  have hvalue : written.arena.contains value = true :=
    (contains_setCell (f := fun c => { c with payload := q }) fun _ => rfl).trans
      ((hsame value).trans hlive)
  obtain ⟨heap', hlast⟩ : ∃ heap', (replaceReference old value).run written = .ok (⟨⟩, heap') :=
    ends_replaceReference hvalue
  exact ⟨heap', run_bind.mpr ⟨_, _, hexchange, hlast⟩⟩

theorem ends_setCdr (hb : heap.graph.body h = some (.pair car cdr tag))
    (hlive : heap.arena.contains value = true) :
    ∃ heap', (setCdr h value).run heap = .ok (⟨⟩, heap') := by
  obtain ⟨c, hc, -, hp⟩ := Heap.pair_of_body hb
  exact ends_swap hc (by rw [hp]) hlive

theorem ends_setFrame (hb : heap.graph.body h = some (.environment frame enclos))
    (hlive : heap.arena.contains value = true) :
    ∃ heap', (setFrame h value).run heap = .ok (⟨⟩, heap') := by
  obtain ⟨c, hc, -, hp⟩ := Heap.environment_of_body hb
  exact ends_swap hc (by rw [hp]) hlive

end HeapM

end Slots

section Lists

variable {body : Handle → Option Payload} {cursor next : Handle} {front back rest : List Binding}
  {p p' b : Binding} {s : Scope} {sym : Handle}

theorem Frames.amend (hf : Frames body cursor (front ++ p :: back)) (hcell : p'.cell = p.cell)
    (hrest : Frames body next rest) (hout : ∀ b ∈ front ++ rest, b.cell ≠ p.cell) :
    Frames (Function.update body p.cell (some (.pair p'.value next p'.sym))) cursor
      (front ++ p' :: rest) := by
  induction front generalizing cursor with
  | nil =>
    obtain _ | ⟨hne, -, -⟩ := hf
    rw [← hcell] at hne hout ⊢
    exact .cons hne (Function.update_self ..) (hrest.congr fun b hb =>
      Function.update_of_ne (hout b (by simpa using hb)) ..)
  | cons t front ih =>
    obtain _ | ⟨hne, hbody, htail⟩ := hf
    exact .cons hne ((Function.update_of_ne (hout t (by simp)) ..).trans hbody)
      (ih htail fun b hb => hout b (by simp at hb ⊢; tauto))

theorem Frames.after (hf : Frames body cursor (front ++ b :: back)) :
    b.cell ≠ .nil ∧ ∃ next, body b.cell = some (.pair b.value next b.sym) ∧ Frames body next back := by
  induction front generalizing cursor with
  | nil =>
    obtain _ | ⟨hne, hbody, htail⟩ := hf
    exact ⟨hne, _, hbody, htail⟩
  | cons t front ih =>
    obtain _ | ⟨-, -, htail⟩ := hf
    exact ih htail

theorem Binding.filter_split (hnames : ((front ++ b :: back).map (·.sym)).Nodup) :
    (front ++ b :: back).filter (fun c => c.sym ≠ b.sym) = front ++ back := by
  rw [List.map_append, List.map_cons, List.nodup_middle, List.nodup_cons] at hnames
  have hout : ∀ c ∈ front ++ back, c.sym ≠ b.sym := fun c hc heq =>
    hnames.1 (by rw [← List.map_append, ← heq]; exact List.mem_map_of_mem hc)
  rw [List.filter_append, List.filter_cons_of_neg (by simp), ← List.filter_append]
  exact List.filter_eq_self.mpr fun c hc => by simpa using hout c hc

theorem Scope.parts_split (hsplit : s.bindings = front ++ b :: back) :
    s.parts = s.env :: (front.map (·.cell) ++ b.cell :: back.map (·.cell)) := by
  rw [parts, hsplit, List.map_append, List.map_cons]

end Lists

namespace HeapM

variable {heap : Heap} {s : Scope} {sym next : Handle} {front back rest : List Binding} {b : Binding}

def before (front : List Binding) : Handle := (front.getLast?.map (·.cell)).getD .nil

theorem bypasses (hs : heap.Sound) (ho : s.On heap.graph.body)
    (hsplit : s.bindings = front ++ b :: back)
    (hb : heap.graph.body b.cell = some (.pair b.value next b.sym)) :
    ∃ heap', (if (before front).isNil then setFrame s.env next else setCdr (before front) next).run
        heap = .ok (⟨⟩, heap') ∧ heap'.Sound ∧ heap'.graph.body b.cell = heap.graph.body b.cell ∧
      ({ s with bindings := front ++ back } : Scope).On heap'.graph.body ∧
      ∀ h, h ∉ s.parts → heap'.graph.body h = heap.graph.body h := by
  obtain ⟨⟨frame, henv, hf⟩, hnames, honce⟩ := ho
  have hparts := Scope.parts_split hsplit
  rw [hsplit] at hf hnames
  rw [hparts, List.nodup_cons, List.nodup_middle, List.nodup_cons] at honce
  obtain ⟨hself, hout, honce⟩ := honce
  obtain ⟨-, n, hn, hback⟩ := hf.after
  obtain ⟨-, rfl, -⟩ := Payload.pair.inj (Option.some.inj (hb.symm.trans hn))
  have hlive : heap.arena.contains next = true := hs.live_of_body hb (by simp [Payload.children])
  have hnames' : ((front ++ back).map (·.sym)).Nodup :=
    hnames.sublist (((List.sublist_cons_self b back).append_left front).map _)
  have honce' : ({ s with bindings := front ++ back } : Scope).parts.Nodup := by
    rw [Scope.parts, List.map_append]
    refine List.nodup_cons.mpr ⟨fun hmem => hself ?_, honce⟩
    rcases List.mem_append.mp hmem with hmem | hmem
    · exact List.mem_append_left _ hmem
    · exact List.mem_append_right _ (List.mem_cons_of_mem _ hmem)
  rcases List.eq_nil_or_concat front with rfl | ⟨front, p, rfl⟩
  · obtain ⟨heap', hrun⟩ := ends_setFrame henv hlive
    have hr := resets_setFrame henv hrun
    have hother : ∀ h, h ≠ s.env → heap'.graph.body h = heap.graph.body h := fun h hh =>
      hr.body ▸ Function.update_of_ne hh ..
    refine ⟨heap', hrun, Safe.setFrame _ _ _ hs hrun, hother _ fun he => hself (by simp [he]),
      ⟨⟨next, hr.body ▸ Function.update_self .., hback.congr fun c hc => hother _ fun he =>
        hself ?_⟩, hnames', honce'⟩, fun h hh => hother h fun he => hh (by simp [hparts, he])⟩
    exact he ▸ List.mem_append_right _ (List.mem_cons_of_mem _ (List.mem_map_of_mem hc))
  · have hat : front.concat p ++ b :: back = front ++ p :: b :: back := by simp
    rw [hat] at hf
    obtain ⟨hne, m, hp, -⟩ := hf.after
    have hprevious : before (front.concat p) = p.cell := by simp [before]
    obtain ⟨heap', hrun⟩ := ends_setCdr hp hlive
    have hr := resets_setCdr hp hrun
    have hother : ∀ h, h ≠ p.cell → heap'.graph.body h = heap.graph.body h := fun h hh =>
      hr.body ▸ Function.update_of_ne hh ..
    have hapart : ∀ c ∈ front ++ back, c.cell ≠ p.cell := by
      intro c hc heq
      have hmiddle : (front.map (·.cell) ++ p.cell :: back.map (·.cell)).Nodup := by simpa using honce
      refine (List.nodup_cons.mp (List.nodup_middle.mp hmiddle)).1 ?_
      rw [← heq, ← List.map_append]
      exact List.mem_map_of_mem hc
    refine ⟨heap', ?_, Safe.setCdr _ _ _ hs hrun, hother _ fun he => hout (by simp [he]),
      ⟨⟨frame, (hother s.env fun he => hself (by simp [he])).trans henv, ?_⟩, hnames', honce'⟩,
      fun h hh => hother h fun he => hh (by simp [hparts, he])⟩
    · rw [hprevious, if_neg (by simpa [Handle.isNil] using hne)]
      exact hrun
    · rw [hr.body]
      simpa using hf.amend rfl hback hapart

theorem ends_unbindFrom {fuel : Nat} {cursor : Handle} (hs : heap.Sound) (ho : s.On heap.graph.body)
    (hsplit : s.bindings = front ++ rest) (hf : Frames heap.graph.body cursor rest)
    (hpass : ∀ b ∈ front, b.sym ≠ sym) (hfuel : rest.length < fuel) :
    ∃ heap', (unbindFrom s.env sym (before front) cursor fuel).run heap =
        .ok (s.bindings.any fun b => b.sym = sym, heap') ∧
      ({ s with bindings := s.bindings.filter fun b => b.sym ≠ sym } : Scope).On heap'.graph.body ∧
      ∀ h, h ∉ s.parts → heap'.graph.body h = heap.graph.body h := by
  induction fuel generalizing front rest cursor with
  | zero => omega
  | succ fuel ih =>
    cases hf with
    | nil =>
      rw [List.append_nil] at hsplit
      have hnone : ∀ b ∈ s.bindings, b.sym ≠ sym := hsplit ▸ hpass
      refine ⟨heap, ?_, ?_, fun _ _ => rfl⟩
      · rw [List.any_eq_false.mpr fun b hb => by simpa using hnone b hb]
        rfl
      · rw [List.filter_eq_self.mpr fun b hb => by simpa using hnone b hb]
        exact ho
    | @cons b next rest hne hb hrest =>
      rw [unbindFrom, if_neg (by simpa [Handle.isNil] using hne)]
      by_cases hsym : b.sym = sym
      · obtain ⟨mid, hlead, hmid, hsame, hon, hothers⟩ := bypasses hs ho hsplit hb
        have hb' := hsame.trans hb
        obtain ⟨heap', hlast⟩ := ends_decrementRefCount
          (hmid.live_of_body hb' (k := b.value) (by simp [Payload.children]))
        have hbody : heap'.graph.body = mid.graph.body := by
          rw [(redrawn_decrementRefCount hlast).2.graph, Graph.body_release]
        refine ⟨heap', ?_, ?_, fun h hh => hbody ▸ hothers h hh⟩
        · rw [List.any_eq_true.mpr ⟨b, by simp [hsplit], by simpa using hsym⟩]
          refine run_bind.mpr ⟨_, _, ends_cdr hb, run_bind.mpr ⟨_, _, ends_tag hb, ?_⟩⟩
          rw [if_pos hsym]
          split at hlead
          all_goals
            rename_i hnil
            simp only [hnil]
            exact run_bind.mpr ⟨⟨⟩, _, hlead, run_bind.mpr ⟨_, _, ends_car hb',
              run_bind.mpr ⟨⟨⟩, _, hlast, rfl⟩⟩⟩
        · rw [hbody, hsplit, ← hsym, Binding.filter_split (hsplit ▸ ho.names)]
          exact hon
      · have hsplit' : s.bindings = front.concat b ++ rest := by simp [hsplit]
        obtain ⟨heap', hrun, hlast⟩ := ih hsplit' hrest
          (by simpa [or_imp, forall_and, hsym] using hpass) (by simpa using hfuel)
        refine ⟨heap', ?_, hlast⟩
        refine run_bind.mpr ⟨_, _, ends_cdr hb, run_bind.mpr ⟨_, _, ends_tag hb, ?_⟩⟩
        rw [if_neg hsym]
        simpa [before] using hrun

theorem ends_removeVar (hs : heap.Sound) (ho : s.On heap.graph.body) (sym : Handle) :
    ∃ heap', (removeVar s.env sym).run heap = .ok (s.bindings.any fun b => b.sym = sym, heap') ∧
      ({ s with bindings := s.bindings.filter fun b => b.sym ≠ sym } : Scope).On heap'.graph.body ∧
      ∀ h, h ∉ s.parts → heap'.graph.body h = heap.graph.body h := by
  obtain ⟨frame, henv, hf⟩ := ho.frame
  have hsplit : s.bindings = [] ++ s.bindings := rfl
  have hpass : ∀ b ∈ ([] : List Binding), b.sym ≠ sym := nofun
  obtain ⟨heap', hrun, hlast⟩ := ends_unbindFrom hs ho hsplit hf hpass
    (Nat.lt_succ_of_le (ho.length_le hs.tidy))
  exact ⟨heap', run_bind.mpr ⟨_, _, ends_envFrame henv,
    run_bind.mpr ⟨_, _, run_walkBound.mpr ⟨rfl, rfl⟩, hrun⟩⟩, hlast⟩

end HeapM

end ManagedHeap
