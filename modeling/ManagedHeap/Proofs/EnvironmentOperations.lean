import ManagedHeap.Proofs.QuietBindings
import ManagedHeap.Proofs.CallEffects

/-!
# Operations on environments

What making an environment, binding a symbol and looking one up do to regular environments that
the heap or the call keeps alive. Whether the call succeeds or fails, the other environments are
what they were.
-/

namespace ManagedHeap

open Arena

/-- The map of names to the values at the same places. -/
def Bindings.ofLists (names values : List Handle) : Bindings :=
  ((names.zip values).map fun p => (⟨p.1, p.2⟩ : Σ _ : Handle, Handle)).toFinmap

namespace Binding

variable {bs front back : List Binding} {b : Binding} {sym value cell : Handle}

theorem map_eq_ofLists {names values : List Handle}
    (hbs : bs.map (fun b => (b.sym, b.value)) = names.zip values) :
    map bs = .ofLists names values := by
  rw [map, Bindings.ofLists, ← hbs, List.map_map]
  rfl

theorem map_cons (bs : List Binding) : map (⟨cell, sym, value⟩ :: bs) = (map bs).insert sym value := by
  refine Finmap.ext_lookup fun k => ?_
  rw [lookup_map, List.find?_cons]
  by_cases hk : sym = k
  · subst hk
    rw [Finmap.lookup_insert]
    simp
  · rw [Finmap.lookup_insert_of_ne _ (Ne.symm hk), lookup_map]
    simp [hk]

theorem map_amend (hfront : ∀ c ∈ front, c.sym ≠ b.sym) :
    map (front ++ { b with value } :: back) = (map (front ++ b :: back)).insert b.sym value := by
  refine Finmap.ext_lookup fun k => ?_
  rw [lookup_map, List.find?_append, List.find?_cons]
  by_cases hk : b.sym = k
  · subst hk
    rw [Finmap.lookup_insert, List.find?_eq_none.mpr fun c hc => by simpa using hfront c hc]
    simp
  · rw [Finmap.lookup_insert_of_ne _ (Ne.symm hk), lookup_map, List.find?_append, List.find?_cons]
    simp [hk]

theorem map_filter (bs : List Binding) (sym : Handle) :
    map (bs.filter fun b => b.sym ≠ sym) = (map bs).erase sym := by
  refine Finmap.ext_lookup fun k => ?_
  rw [lookup_map, List.find?_filter]
  by_cases hk : k = sym
  · subst hk
    rw [Finmap.lookup_erase, List.find?_eq_none.mpr fun b _ => by simp]
    rfl
  · rw [Finmap.lookup_erase_ne hk, lookup_map]
    congr 2
    funext b
    by_cases hb : b.sym = k
    · simp [hb, hk]
    · simp [hb]

theorem any_eq_mem (bs : List Binding) (sym : Handle) :
    (bs.any fun b => b.sym = sym) = decide (sym ∈ map bs) := by
  rw [Bool.eq_iff_iff, decide_eq_true_eq, ← Finmap.lookup_isSome, lookup_map]
  simp [List.find?_isSome]

end Binding
section Define

variable {ω : Type} {fuel : Nat} {state state' : ω} {heap heap' : Heap} {s : Scope} {ss front back : List Scope}
  {sym value : Handle} {r : Except HeapError Unit}

namespace Regular

theorem adds (hr : Regular heap.graph.body ss) (hs : heap.Sound) {kept cells : List Handle}
    (ha : heap.Adds heap' kept cells)
    (hreached : ∀ s ∈ ss, heap.ReachedFrom (heap.RootedOr kept) s.env) :
    Regular heap'.graph.body ss :=
  hr.congr fun s hmem h hh => (hr.untouched hs ha hreached s hmem h hh).1

theorem rebound {cell : Handle} {u : PUnit} (hr : Regular heap.graph.body (front ++ s :: back))
    (hfound : (s.bindings.find? fun b => b.sym = sym).map (·.cell) = some cell)
    (hrun : (HeapM.setCar cell value).run heap = .ok (u, heap')) :
    ∃ bs, Regular heap'.graph.body (front ++ { s with bindings := bs } :: back) ∧
      Binding.map bs = (Binding.map s.bindings).insert sym value := by
  obtain ⟨b, hb, rfl⟩ := Option.map_eq_some_iff.mp hfound
  obtain ⟨hsym, before, after, hsplit, hbefore⟩ := List.find?_eq_some_iff_append.mp hb
  obtain rfl : b.sym = sym := by simpa using hsym
  have ho := hr.on s (by simp)
  obtain ⟨frame, henv, hf⟩ := ho.frame
  rw [hsplit] at hf
  obtain ⟨-, next, hbody, hrest⟩ := hf.after
  have hset := HeapM.resets_setCar hbody hrun
  have honce := ho.once
  rw [Scope.parts_split hsplit, List.nodup_cons, List.nodup_middle, List.nodup_cons] at honce
  have hparts : ({ s with bindings := before ++ { b with value } :: after } : Scope).parts =
      s.parts := by
    rw [Scope.parts_split hsplit, Scope.parts]
    simp
  have hother : ∀ h, h ≠ b.cell → heap'.graph.body h = heap.graph.body h := fun h hh =>
    hset.body ▸ Function.update_of_ne hh ..
  refine ⟨before ++ { b with value } :: after, hr.amend rfl rfl ⟨⟨frame, ?_, ?_⟩, ?_, ?_⟩ ?_ ?_, ?_⟩
  · exact (hother s.env fun he => honce.1 (by simp [he])).trans henv
  · have hcell : ({ b with value } : Binding).cell = b.cell := rfl
    rw [hset.body]
    refine hf.amend hcell hrest fun c hc heq => honce.2.1 ?_
    rw [← heq, ← List.map_append]
    exact List.mem_map_of_mem hc
  · have hnames := ho.names
    rw [hsplit] at hnames
    simpa using hnames
  · exact hparts ▸ ho.once
  · intro t ht h hh
    refine hother h ?_
    rintro rfl
    exact hr.disjoint (by simp [Scope.parts_split hsplit]) ht hh
  · exact fun h hh hout => absurd (hparts ▸ hh) hout
  · rw [hsplit, Binding.map_amend fun c hc => ?_]
    simpa using hbefore c hc

theorem bound {body body' : Handle → Option Payload} {cell frame : Handle}
    (hr : Regular body (front ++ s :: back)) (hnone : ∀ b ∈ s.bindings, b.sym ≠ sym)
    (henv : body s.env = some (.environment frame s.parent)) (hne : cell ≠ .nil)
    (hfresh : ∀ t ∈ front ++ s :: back, cell ∉ t.parts)
    (hbody : body' = Function.update (Function.update body cell (some (.pair value frame sym)))
      s.env (some (.environment cell s.parent))) :
    Regular body' (front ++ { s with bindings := ⟨cell, sym, value⟩ :: s.bindings } :: back) := by
  have ho := hr.on s (by simp)
  obtain ⟨frame', henv', hf⟩ := ho.frame
  obtain ⟨rfl, -⟩ := Payload.environment.inj (Option.some.inj (henv.symm.trans henv'))
  have hself := hfresh s (by simp)
  have hapart : s.env ≠ cell := fun he => hself (by simp [Scope.parts, he])
  have hother : ∀ h, h ≠ s.env → h ≠ cell → body' h = body h := fun h henv hcell => by
    rw [hbody, Function.update_of_ne henv, Function.update_of_ne hcell]
  refine hr.amend rfl rfl ⟨⟨cell, ?_, .cons (b := ⟨cell, sym, value⟩) hne ?_
      (hf.congr fun b hb => hother _ ?_ ?_)⟩,
    List.nodup_cons.mpr ⟨fun hmem => ?_, ho.names⟩, ?_⟩ (fun t ht h hh => hother h ?_ ?_)
    fun h hh hout t ht hmem => ?_
  · rw [hbody, Function.update_self]
  · rw [hbody, Function.update_of_ne hapart.symm, Function.update_self]
  · exact fun he => (List.nodup_cons.mp ho.once).1 (he ▸ List.mem_map_of_mem hb)
  · exact fun he => hself (List.mem_cons_of_mem _ (he ▸ List.mem_map_of_mem hb))
  · obtain ⟨b, hb, hsym⟩ := List.mem_map.mp hmem
    exact hnone b hb hsym
  · obtain ⟨henv, honce⟩ := List.nodup_cons.mp ho.once
    refine List.nodup_cons.mpr ⟨fun hmem => ?_, List.nodup_cons.mpr ⟨fun hmem => ?_, honce⟩⟩
    · exact (List.mem_cons.mp hmem).elim hapart henv
    · exact hself (List.mem_cons_of_mem _ hmem)
  · rintro rfl
    exact hr.disjoint (List.mem_cons_self ..) ht hh
  · rintro rfl
    refine hfresh t ?_ hh
    rcases List.mem_append.mp ht with ht | ht <;> simp [ht]
  · have hcell : h = cell := by
      simp only [Scope.parts, List.map_cons, List.mem_cons, not_or] at hh hout
      tauto
    subst hcell
    refine hfresh t ?_ hmem
    rcases List.mem_append.mp ht with ht | ht <;> simp [ht]

theorem defines (hr : Regular heap.graph.body (front ++ s :: back)) (hs : heap.Sound)
    (hreached : ∀ t ∈ front ++ s :: back,
      heap.ReachedFrom (heap.RootedOr [s.env, sym, value]) t.env)
    (hd : heap.Defines s.env sym value heap') :
    ∃ bs, Regular heap'.graph.body (front ++ { s with bindings := bs } :: back) ∧
      Binding.map bs = (Binding.map s.bindings).insert sym value := by
  have ho := hr.on s (by simp)
  have hfind := HeapM.ends_frameBinding ho hs.tidy sym
  rcases hd with ⟨hfound, hset⟩ | ⟨hfound, hframe, hmid, hprovides, hcar, hcdr, htag, hlast⟩
  · rw [hfind, Except.ok.injEq, Prod.mk.injEq] at hfound
    exact hr.rebound hfound.1 hset
  rename_i cell frame mid m₁ m₂ m₃ _ _ _ _
  rw [hfind, Except.ok.injEq, Prod.mk.injEq, Option.map_eq_none_iff, List.find?_eq_none] at hfound
  obtain ⟨frame', henv, hf⟩ := ho.frame
  rw [HeapM.ends_envFrame henv, Except.ok.injEq, Prod.mk.injEq] at hframe
  obtain ⟨rfl, -⟩ := hframe
  have hadds : heap.Adds mid _ [cell] := hprovides.adds rfl rfl rfl .refl
  have hparts := hr.untouched hs hadds hreached
  have hmidr := hr.adds hs hadds hreached
  obtain ⟨p, hp, hblank⟩ := hprovides.body
  obtain rfl : Payload.pair .nil .nil .nil = p := by simpa [Payload.forKind?] using hp
  have h₁ := HeapM.resets_setCar hblank hcar
  have hb₁ : m₁.graph.body cell = some (.pair value .nil .nil) := by
    rw [h₁.body, Function.update_self]
  have h₂ := HeapM.resets_setCdr hb₁ hcdr
  have hb₂ : m₂.graph.body cell = some (.pair value frame' .nil) := by
    rw [h₂.body, Function.update_self]
  have h₃ := HeapM.resets_setTag hb₂ htag
  have hbody : m₃.graph.body = Function.update mid.graph.body cell (some (.pair value frame' sym)) := by
    rw [h₃.body, h₂.body, h₁.body, Function.update_idem, Function.update_idem]
  have hfresh : ∀ t ∈ front ++ s :: back, cell ∉ t.parts := fun t ht hmem =>
    (hparts t ht cell hmem).2 (List.mem_singleton_self cell)
  have henvmid : mid.graph.body s.env = some (.environment frame' s.parent) :=
    (hparts s (by simp) s.env (by simp [Scope.parts])).1.trans henv
  have henv₃ : m₃.graph.body s.env = some (.environment frame' s.parent) := by
    rw [hbody, Function.update_of_ne fun he => hfresh s (by simp) (by simp [Scope.parts, he])]
    exact henvmid
  refine ⟨_, hmidr.bound (by simpa using hfound.1) henvmid (hmid.ne_nil_of_body hblank) hfresh ?_,
    Binding.map_cons s.bindings⟩
  rw [(HeapM.resets_setFrame henv₃ hlast).body, hbody]

end Regular

theorem HostM.fails_defineVar {env : Handle} :
    Attempt.Fails (defineVar (.mute fuel : Host ω) env sym value) fun heap heap' =>
      heap.Adds heap' [env, sym, value] [] := by
  have hreads : ∀ {α : Type} {act : HeapM α}, act.Reads → ∀ heap a heap', heap.Sound →
      act.run heap = .ok (a, heap') → heap'.Sound ∧ heap'.finalizers.run = heap.finalizers.run ∧
        heap' = heap := by
    intro α act hact heap a heap' hs hrun
    obtain rfl := hact _ _ _ hrun
    exact ⟨hs, rfl, rfl⟩
  refine (Attempt.Fails.lift_bind (hreads .frameBinding) (F := fun _ heap heap' =>
    heap.Adds heap' [env, sym, value] []) fun found => ?_).mono ?_
  · cases found with
    | some cell => exact .sure .lift
    | none =>
      refine (Attempt.Fails.lift_bind (hreads .envFrame) fun frame =>
        fails_allocate.bind_sure fun cell => .bind .lift fun _ => .bind .lift fun _ =>
        .bind .lift fun _ => .lift).mono ?_
      rintro heap heap' - ⟨_, _, rfl, hadds⟩
      exact hadds
  · rintro heap heap' - ⟨_, _, rfl, hadds⟩
    exact hadds

end Define

/-- What making an environment makes of the heap: an environment that was not there, with a pair of
its own for each name. -/
structure Heap.MakesEnvironment (heap heap' : Heap) (names values : List Handle) (s : Scope) : Prop where
  bindings : s.bindings.map (fun b => (b.sym, b.value)) = names.zip values
  frame : ∃ frame, heap'.graph.body s.env = some (.environment frame s.parent) ∧
    Frames heap'.graph.body frame s.bindings
  adds : heap.Adds heap' (names ++ values ++ [s.parent]) s.parts

theorem Heap.Fills.links {heap heap' : Heap} {cell frame name value : Handle} {slots : List Handle}
    (hf : heap.Fills heap' .pair 0 (.pair value frame name) [frame] slots cell) :
    heap'.ReachedFrom (heap'.RootedOr [cell]) cell ∧ ∀ k ∈ [frame], ∀ c,
      heap'.arena.get? k = some c → heap'.ReachedFrom (heap'.RootedOr [cell]) k := by
  have hcell := hf.body (by simp)
  obtain ⟨d, hd⟩ := contains_iff.mp (Heap.contains_of_body hcell)
  have hself : heap'.ReachedFrom (heap'.RootedOr [cell]) cell :=
    .start (.inr (List.mem_singleton_self cell)) hd
  refine ⟨hself, fun k hk c hc => ?_⟩
  obtain rfl := List.mem_singleton.mp hk
  exact hself.body hcell (by simp [Payload.forgetting, Payload.children]) (contains_of_get? hc)

namespace HostM

variable {ω : Type} {fuel : Nat} {parent : Handle}

theorem quietly_bindAll_frames (bindings : List (Handle × Handle)) (frame : Handle) :
    Attempt.Quietly (bindAll (.mute fuel : Host ω) frame bindings) fun heap h heap' =>
      ∃ bs : List Binding, bs.map (fun b => (b.sym, b.value)) = bindings.reverse ∧
        heap.Adds heap' [frame] (bs.map (·.cell)) ∧ ∀ done, Frames heap.graph.body frame done →
          Frames heap'.graph.body h (bs ++ done) := by
  induction bindings generalizing frame with
  | nil =>
    refine Attempt.Quietly.pure.conseq ?_
    rintro heap h heap' - ⟨rfl, rfl⟩
    exact ⟨[], rfl, .refl _ _, fun done => id⟩
  | cons b rest ih =>
    obtain ⟨name, value⟩ := b
    rw [bindAll_cons]
    refine (Attempt.Quietly.bind (fills_construct
      (by exact ⟨rfl, by simp, by simp [Payload.children]⟩)) ih).conseq ?_
    rintro heap h heap' hs ⟨cell, mid, hmid, hfills, bs, hbs, hadds, hframes⟩
    have hcell := hfills.body (by simp)
    obtain ⟨hself, hnext⟩ := hfills.links
    refine ⟨bs ++ [⟨cell, name, value⟩], by simp [hbs], ?_, fun done hdone => ?_⟩
    · rw [List.map_append]
      refine hfills.adds.trans hadds hnext fun k hk => ?_
      obtain rfl := List.mem_singleton.mp hk
      exact hself
    · rw [List.append_assoc]
      refine hframes _ (.cons (b := ⟨cell, name, value⟩) (hmid.ne_nil_of_body hcell) hcell ?_)
      refine hfills.adds.carries.frames hs hdone fun hne => ?_
      obtain _ | ⟨-, hb, -⟩ := hdone
      · exact absurd rfl hne
      · obtain ⟨c, hc⟩ := contains_iff.mp (Heap.contains_of_body hb)
        exact .start (.inr (by simp)) hc

theorem fails_bindAll (bindings : List (Handle × Handle)) (frame : Handle) :
    Attempt.Fails (bindAll (.mute fuel : Host ω) frame bindings) fun heap heap' =>
      heap.Adds heap' [frame] [] := by
  induction bindings generalizing frame with
  | nil => exact .sure .pure
  | cons b rest ih =>
    obtain ⟨name, value⟩ := b
    rw [bindAll_cons]
    refine (Attempt.Fails.bind (fills_construct
      (by exact ⟨rfl, by simp, by simp [Payload.children]⟩)) (fails_allocate.bind_sure fun cell =>
        .bind .lift fun _ => .bind .lift fun _ => .pure) (quietly_bindAll_frames rest) ih).mono ?_
    rintro heap heap' - (hadds | ⟨cell, mid, -, hfills, hadds⟩)
    · exact hadds
    · exact (hfills.adds.forget.trans hadds hfills.links.2 (by simp)).forget

def fillEnvironment (host : Host ω) (bindings : List (Handle × Handle)) (parent : Handle) :
    Attempt ω Handle := do
  let frame ← bindAll host .nil bindings.reverse
  let env ← allocate host .environment 0 [frame]
  setPayload env (.environment frame parent)
  countReferences [frame, parent]
  return env

theorem makeEnvironment_eq (host : Host ω) (names values : List Handle) (parent : Handle) :
    makeEnvironment host names values parent = (do
      if names.length ≠ values.length then
        throw (.invalidLength .environment values.length)
      ExceptT.mk <| withTransient (names ++ values ++ [parent])
        (fillEnvironment host (names.zip values) parent).run) := rfl

theorem quietly_fillEnvironment {bindings : List (Handle × Handle)} :
    Attempt.Quietly (fillEnvironment (.mute fuel : Host ω) bindings parent) fun heap h heap' =>
      ∃ frame bs, bs.map (fun b : Binding => (b.sym, b.value)) = bindings ∧
        heap'.graph.body h = some (.environment frame parent) ∧
        Frames heap'.graph.body frame bs ∧ heap.Adds heap' [] (h :: bs.map (·.cell)) := by
  refine (Attempt.Quietly.bind (quietly_bindAll_frames _ .nil) fun frame => fills_construct
    (by exact ⟨rfl, by simp, by simp [Payload.children]⟩)).conseq ?_
  rintro heap h heap' - ⟨frame, mid, hmid, ⟨bs, hbs, hadds, hframes⟩, hfills⟩
  have hframe := hframes [] .nil
  rw [List.append_nil] at hframe
  have hstart : bs ≠ [] → mid.ReachedFrom (mid.RootedOr [frame]) frame := fun hne => by
    obtain _ | ⟨-, hb, -⟩ := hframe
    · exact absurd rfl hne
    · obtain ⟨c, hc⟩ := contains_iff.mp (Heap.contains_of_body hb)
      exact .start (.inr (by simp)) hc
  exact ⟨frame, bs, by simpa using hbs, hfills.body (by simp),
    hfills.adds.carries.frames hmid hframe hstart,
    (hadds.weaken (by simp)).trans hfills.adds (by simp) (.frames hmid hframe hstart)⟩

theorem fails_fillEnvironment {bindings : List (Handle × Handle)} :
    Attempt.Fails (fillEnvironment (.mute fuel : Host ω) bindings parent) fun heap heap' =>
      heap.Adds heap' [] [] := by
  refine (Attempt.Fails.bind (quietly_bindAll_frames _ .nil) (fails_bindAll _ .nil)
    (fun frame => fills_construct (by exact ⟨rfl, by simp, by simp [Payload.children]⟩))
    fun frame => fails_allocate.bind_sure fun env => .bind .lift fun _ => .bind .lift fun _ =>
      .pure).mono ?_
  rintro heap heap' - (hadds | ⟨frame, mid, -, ⟨bs, -, hadds, -⟩, hlast⟩)
  · exact hadds.weaken (by simp)
  · exact (hadds.forget.weaken (by simp)).trans hlast (by simp) (by simp)

theorem quietly_makeEnvironment_makesEnvironment {names values : List Handle} :
    Attempt.Quietly (makeEnvironment (.mute fuel : Host ω) names values parent)
      fun heap h heap' => names.length = values.length ∧
        ∃ bs, heap.MakesEnvironment heap' names values ⟨h, parent, bs⟩ := by
  rw [makeEnvironment_eq]
  dsimp only
  split
  · exact .throw_bind
  rename_i hlength
  refine .mk ((Quietly.withTransient quietly_fillEnvironment).conseq ?_)
  rintro heap r heap' - ⟨mid, -, hmid, rfl⟩ h hr
  obtain ⟨frame, bs, hbs, henv, hframes, hadds⟩ := hmid h hr
  exact ⟨by simpa using hlength, bs, hbs, ⟨frame, henv, hframes⟩, hadds.closed⟩

theorem fails_makeEnvironment {names values : List Handle} :
    Attempt.Fails (makeEnvironment (.mute fuel : Host ω) names values parent)
      fun heap heap' => heap.Adds heap' (names ++ values ++ [parent]) [] := by
  rw [makeEnvironment_eq]
  dsimp only
  split
  · refine Attempt.Fails.throw_bind.mono ?_
    rintro heap heap' - rfl
    exact .refl _ _
  · refine .mk ((Quietly.withTransient (fails_fillEnvironment.quietly quietly_fillEnvironment)).conseq ?_)
    rintro heap r heap' - ⟨mid, -, hmid, rfl⟩ e hr
    exact (hmid e hr).closed

end HostM

namespace Regular

variable {heap heap' : Heap} {s : Scope} {ss : List Scope} {names values : List Handle}

theorem makesEnvironment (hr : Regular heap.graph.body ss) (hs : heap.Sound) (hnames : names.Nodup)
    (hlength : names.length = values.length) (hparent : s.parent = .nil ∨ s.parent ∈ ss.map (·.env))
    (hreached : ∀ t ∈ ss, heap.ReachedFrom (heap.RootedOr (names ++ values ++ [s.parent])) t.env)
    (hf : heap.MakesEnvironment heap' names values s) : Regular heap'.graph.body (s :: ss) := by
  have hold := hr.untouched hs hf.adds hreached
  have hsyms : s.bindings.map (·.sym) = names := by
    have hfst := congrArg (List.map Prod.fst) hf.bindings
    rwa [List.map_map, List.map_fst_zip hlength.le] at hfst
  refine ⟨fun t ht => ?_, List.pairwise_cons.mpr ⟨fun t ht h hh hh' => (hold t ht h hh').2 hh, hr.apart⟩,
    hparent, hr.nested⟩
  rcases List.mem_cons.mp ht with rfl | ht
  · exact ⟨hf.frame, hsyms ▸ hnames, hf.adds.once⟩
  · exact (hr.on t ht).congr fun h hh => (hold t ht h hh).1

end Regular

/-- An environment and those that it lies in, from inside. -/
inductive Heap.EnclosingScopes (heap : Heap) : Handle → List Handle → Prop
  | nil : EnclosingScopes heap .nil []
  | cons {env parent : Handle} {outer : List Handle} : env ≠ .nil →
      (HeapM.envEnclos env).run heap = .ok (parent, heap) → EnclosingScopes heap parent outer →
      EnclosingScopes heap env (env :: outer)

theorem Regular.enclosingScopes {heap : Heap} {ss : List Scope} {env : Handle} (hs : heap.Sound)
    (hr : Regular heap.graph.body ss) (henv : env = .nil ∨ env ∈ ss.map (·.env)) :
    ∃ around : List Scope, around.Sublist ss ∧ heap.EnclosingScopes env (around.map (·.env)) := by
  induction ss generalizing env with
  | nil =>
    obtain rfl : env = .nil := by simpa using henv
    exact ⟨[], .slnil, .nil⟩
  | cons s ss ih =>
    have htail : Regular heap.graph.body ss :=
      ⟨fun t ht => hr.on t (by simp [ht]), (List.pairwise_cons.mp hr.apart).2, hr.nested.2⟩
    by_cases hself : env = s.env
    · subst hself
      obtain ⟨frame, hbody, -⟩ := (hr.on s (by simp)).frame
      obtain ⟨around, hsub, houter⟩ := ih htail hr.nested.1
      exact ⟨s :: around, hsub.cons_cons s,
        .cons (hs.ne_nil_of_body hbody) (HeapM.ends_envEnclos hbody) houter⟩
    · obtain ⟨around, hsub, houter⟩ := ih htail (henv.imp_right fun hmem => by simpa [hself] using hmem)
      exact ⟨around, hsub.cons s, houter⟩

namespace HeapM

variable {heap : Heap} {sym env : Handle} {ss : List Scope}

def innermost (sym base : Handle) (around : List Scope) : Option Handle :=
  (around.findSome? fun s => (Binding.map s.bindings).lookup sym).or
    (if base = .unbound then none else some base)

theorem graph_foundIn {heap' : Heap} {u : PUnit}
    (hrun : (updateCell sym (Cell.foundIn env)).run heap = .ok (u, heap')) :
    heap'.graph = heap.graph := by
  obtain ⟨-, rfl⟩ := run_updateCell.mp hrun
  refine Heap.graph_setCell_of_seen _ (fun d => ?_) fun d => ?_
  · rw [Cell.foundIn_eq]
    rfl
  · rw [Cell.foundIn_eq]
    refine congrArg (Cell.mk d.seen.header d.attached) ?_
    cases d.payload <;> rfl

theorem graph_searchEnvironments {heap' : Heap} {answer : Option Handle} {fuel : Nat}
    (hrun : (searchEnvironments sym env fuel).run heap = .ok (answer, heap')) :
    heap'.graph = heap.graph := by
  induction fuel generalizing env with
  | zero => exact nomatch hrun
  | succ fuel ih =>
    rw [searchEnvironments] at hrun
    rcases run_ite.mp hrun with ⟨-, hbase⟩ | ⟨-, hrun⟩
    · obtain ⟨_, _, hvalue, hpure⟩ := run_bind.mp hbase
      obtain rfl := Reads.symbolValue _ _ _ hvalue
      rw [(run_pure.mp hpure).2]
    · obtain ⟨found, _, hfind, hrun⟩ := run_bind.mp hrun
      obtain rfl := Reads.findVarInFrame _ _ _ hfind
      cases found with
      | some value =>
        obtain ⟨_, mid, hfound, hpure⟩ := run_bind.mp hrun
        obtain ⟨-, rfl⟩ := run_pure.mp hpure
        exact graph_foundIn hfound
      | none =>
        obtain ⟨_, _, henclos, hrest⟩ := run_bind.mp hrun
        obtain rfl := Reads.envEnclos _ _ _ henclos
        exact ih hrest

theorem graph_findVar {heap' : Heap} {answer : Option Handle}
    (hrun : (findVar env sym).run heap = .ok (answer, heap')) : heap'.graph = heap.graph := by
  obtain ⟨fuel, _, hfuel, hsearch⟩ := run_bind.mp hrun
  obtain ⟨-, rfl⟩ := run_walkBound.mp hfuel
  exact graph_searchEnvironments hsearch

theorem ends_searchEnvironments {around : List Scope} {fuel : Nat} {c : Cell}
    {name base internal last : Handle} (hs : heap.Sound) (hon : ∀ s ∈ around, s.On heap.graph.body)
    (hc : heap.arena.get? sym = some c) (hp : c.payload = .symbol name base internal last)
    (houter : heap.EnclosingScopes env (around.map (·.env))) (hfuel : around.length < fuel) :
    ∃ heap', (searchEnvironments sym env fuel).run heap = .ok (innermost sym base around, heap') := by
  obtain ⟨fuel, rfl⟩ : ∃ n, fuel = n + 1 := ⟨fuel - 1, by omega⟩
  induction around generalizing env fuel with
  | nil =>
    rw [List.map_nil] at houter
    cases houter
    have hbase : (symbolValue sym).run heap = .ok (base, heap) := by
      simp only [symbolValue, run_bind, run_payload]
      exact ⟨_, _, ⟨c, hc, hp, rfl⟩, rfl⟩
    refine ⟨heap, ?_⟩
    rw [searchEnvironments, if_pos (by decide)]
    exact run_bind.mpr ⟨_, _, hbase, rfl⟩
  | cons s around ih =>
    obtain _ | ⟨hne, henclos, houter⟩ := houter
    have hfind := (hon s (by simp)).maps hs.tidy sym
    rw [searchEnvironments, if_neg (by simpa [Handle.isNil] using hne)]
    cases hbound : (Binding.map s.bindings).lookup sym with
    | some v =>
      rw [hbound] at hfind
      have hfound : (updateCell sym (Cell.foundIn s.env)).run heap = .ok (⟨⟩,
          { heap with arena := heap.arena.setCell sym (Cell.foundIn s.env) }) :=
        run_updateCell.mpr ⟨⟨c, hc⟩, rfl⟩
      refine ⟨_, run_bind.mpr ⟨_, _, hfind, run_bind.mpr ⟨⟨⟩, _, hfound, run_pure.mpr ⟨?_, rfl⟩⟩⟩⟩
      simp only [innermost, List.findSome?_cons, hbound]
      rfl
    | none =>
      rw [hbound] at hfind
      obtain ⟨fuel, rfl⟩ : ∃ n, fuel = n + 1 := ⟨fuel - 1, by simp at hfuel; omega⟩
      obtain ⟨heap', hrest⟩ := ih (fun t ht => hon t (by simp [ht])) houter fuel
        (by simpa using hfuel)
      refine ⟨heap', run_bind.mpr ⟨_, _, hfind, run_bind.mpr ⟨_, _, henclos, ?_⟩⟩⟩
      simpa only [innermost, List.findSome?_cons, hbound] using hrest

theorem ends_findVar {c : Cell} {name base internal last : Handle} (hs : heap.Sound)
    (hr : Regular heap.graph.body ss) (hc : heap.arena.get? sym = some c)
    (hp : c.payload = .symbol name base internal last) (henv : env = .nil ∨ env ∈ ss.map (·.env)) :
    ∃ around : List Scope, around.Sublist ss ∧ heap.EnclosingScopes env (around.map (·.env)) ∧
      ∃ heap', (findVar env sym).run heap = .ok (innermost sym base around, heap') := by
  obtain ⟨around, hsub, houter⟩ := hr.enclosingScopes hs henv
  have hlength : ss.length ≤ heap.arena.capacity := hr.length_le hs.tidy
  have hfuel : around.length < heap.arena.capacity + 1 :=
    Nat.lt_succ_of_le (hsub.length_le.trans hlength)
  obtain ⟨heap', hrun⟩ := ends_searchEnvironments hs (fun s hmem => hr.on s (hsub.subset hmem)) hc hp
    houter hfuel
  exact ⟨around, hsub, houter, heap', run_bind.mpr ⟨_, _, run_walkBound.mpr ⟨rfl, rfl⟩, hrun⟩⟩

end HeapM

end ManagedHeap
