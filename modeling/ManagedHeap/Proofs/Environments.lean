import ManagedHeap.Proofs.CopyIsolation
import ManagedHeap.Proofs.EnvironmentOperations

/-!
# Environments are finite maps

A history of environments: they are made with distinct names, and changed by binding a symbol
and by removing a binding; whatever else the program does in between, it writes none of their
parts and keeps them alive. Then each of them is a finite map at any time, and what an operation
does to one of them, a finite map does, and to the others nothing.

No finalizer runs inside the call that makes an environment: one that lets go of what the call
keeps may reclaim the pairs that are made already, and their handles are used again.
-/

namespace ManagedHeap

open Arena

/-- What a program does on one heap. -/
def CacheRules.staying : CacheRules := ⟨fun _ _ _ => True, fun _ _ _ => True, False, True⟩

namespace Heap

/-- The parts of an environment: itself, and the pairs of its frame. -/
inductive PartOf (heap : Heap) (env : Handle) : Handle → Prop
  | self : PartOf heap env env
  | frame {frame enclos : Handle} : heap.graph.body env = some (.environment frame enclos) →
      PartOf heap env frame
  | next {h car cdr tag : Handle} : PartOf heap env h →
      heap.graph.body h = some (.pair car cdr tag) → PartOf heap env cdr

/-- The second heap comes from the first one by a collection. -/
def CollectsTo (heap heap' : Heap) : Prop :=
  ∃ level reason o, heap.Sound ∧ (HeapM.collect level reason).run heap = .ok (o, heap')

/-- A cache step that leaves some environments: they stay alive, and no part of them is written. -/
structure EnvironmentStep (envs : List Handle) (heap heap' : Heap) : Prop where
  move : heap.CacheStep .staying [] heap'
  alive : ∀ env ∈ envs, heap'.arena.contains env = true
  unwritten : heap.CollectsTo heap' ∨ ∀ env ∈ envs, ∀ h, heap.PartOf env h →
    heap'.arena.contains h = true → heap'.graph.body h = heap.graph.body h

/-- A call that was given `kept` keeps all the environments alive. -/
def Reaches (heap : Heap) (kept envs : List Handle) : Prop :=
  ∀ env ∈ envs, heap.ReachedFrom (heap.RootedOr kept) env

/-- The parents of all the environments are among them. -/
def Closed (heap : Heap) (envs : List Handle) : Prop :=
  ∀ env ∈ envs, ∀ frame enclos, heap.graph.body env = some (.environment frame enclos) →
    enclos = .nil ∨ enclos ∈ envs

/-- The heaps in which some environments were made and are in use. Those that are not used any
more may be forgotten, and then they need not stay alive. -/
inductive Scoped : List Handle → Heap → Prop
  | start {state : Session.State} {heap : Heap} : Session.Reachable state heap → Scoped [] heap
  | make {ω : Type} {envs names values : List Handle} {heap heap' : Heap} {parent env : Handle}
      {fuel : Nat} {s s' : ω} : Scoped envs heap → names.Nodup → parent = .nil ∨ parent ∈ envs →
      heap.Reaches (names ++ values ++ [parent]) envs →
      ((HostM.makeEnvironment (.mute fuel) names values parent).run.run s).run heap =
        .ok ((.ok env, s'), heap') → heap'.finalizers.run = heap.finalizers.run →
      Scoped (env :: envs) heap'
  | unmade {ω : Type} {envs names values : List Handle} {heap heap' : Heap} {parent : Handle}
      {fuel : Nat} {s s' : ω} {e : HeapError} : Scoped envs heap →
      heap.Reaches (names ++ values ++ [parent]) envs →
      ((HostM.makeEnvironment (.mute fuel) names values parent).run.run s).run heap =
        .ok ((.error e, s'), heap') → heap'.finalizers.run = heap.finalizers.run →
      Scoped envs heap'
  | define {ω : Type} {envs : List Handle} {heap heap' : Heap} {env sym value : Handle} {fuel : Nat}
      {s s' : ω} {r : Except HeapError Unit} : Scoped envs heap → env ∈ envs →
      heap.Reaches [env, sym, value] envs →
      ((HostM.defineVar (.mute fuel) env sym value).run.run s).run heap = .ok ((r, s'), heap') →
      heap'.finalizers.run = heap.finalizers.run → Scoped envs heap'
  | remove {envs : List Handle} {heap heap' : Heap} {env sym : Handle} {b : Bool} :
      Scoped envs heap → env ∈ envs → (HeapM.removeVar env sym).run heap = .ok (b, heap') →
      Scoped envs heap'
  | look {envs : List Handle} {heap heap' : Heap} {env sym : Handle} {answer : Option Handle} :
      Scoped envs heap → (HeapM.findVar env sym).run heap = .ok (answer, heap') → Scoped envs heap'
  | turns {envs : List Handle} {heap heap' : Heap} : Scoped envs heap →
      Relation.ReflTransGen (EnvironmentStep envs) heap heap' → heap'.Sound → Scoped envs heap'
  | forget {envs used : List Handle} {heap : Heap} : Scoped envs heap → used.Sublist envs →
      heap.Closed used → Scoped used heap

end Heap

section Parts

variable {heap heap' : Heap} {s : Scope} {h : Handle} {ss : List Scope}

theorem Scope.On.part (ho : s.On heap.graph.body) (hh : h ∈ s.parts) : heap.PartOf s.env h := by
  obtain ⟨frame, henv, hf⟩ := ho.frame
  rcases List.mem_cons.mp hh with rfl | hh
  · exact .self
  have hstart : heap.PartOf s.env frame := .frame henv
  generalize s.bindings = bs at hf hh
  clear henv
  induction hf with
  | nil => cases hh
  | cons _ hb _ ih =>
    rcases List.mem_cons.mp hh with rfl | hh
    · exact hstart
    · exact ih (.next hstart hb) hh

theorem Scope.On.kept {level : Level} {records : List Handle} {c : Cell} (hs : heap.Sound)
    (ho : s.On heap.graph.body) (hc : heap.arena.get? s.env = some c)
    (hkeeps : heap.Keeps level records s.env c) (hh : h ∈ s.parts) :
    ∃ d, heap.arena.get? h = some d ∧ heap.Keeps level records h d := by
  have hedge : ∀ {k j p e}, heap.arena.get? k = some e → heap.Keeps level records k e →
      heap.graph.body k = some p → j ∈ p.children true →
      ∃ d, heap.arena.get? j = some d ∧ heap.Keeps level records j d := by
    intro k j p e he hkeeps hb hj
    obtain ⟨d, hd⟩ := contains_iff.mp (hs.live_of_body hb hj)
    obtain ⟨e', he', hperm, rfl⟩ := Heap.body_eq_some.mp hb
    rw [he, Option.some.injEq] at he'
    subst he'
    rw [Cell.children_forgetting] at hj
    exact ⟨d, hd, Collected.keeps_edge hs he hperm hkeeps (Cell.mem_edges_of_children hj) hd⟩
  obtain ⟨frame, henv, hf⟩ := ho.frame
  rcases List.mem_cons.mp hh with rfl | hh
  · exact ⟨c, hc, hkeeps⟩
  obtain ⟨d, hd, hkeeps⟩ := hedge hc hkeeps henv (j := frame) (by simp [Payload.children])
  generalize s.bindings = bs at hf hh
  clear henv
  induction hf generalizing d with
  | nil => cases hh
  | @cons b next bs _ hb _ ih =>
    rcases List.mem_cons.mp hh with rfl | hh
    · exact ⟨d, hd, hkeeps⟩
    · obtain ⟨e, he, hkeeps⟩ := hedge hd hkeeps hb (j := next) (by simp [Payload.children])
      exact ih e he hkeeps hh

theorem Heap.CollectsTo.body {p : Payload} (hcol : heap.CollectsTo heap')
    (hb : heap.graph.body h = some p) (hlive : heap'.arena.contains h = true) :
    heap'.graph.body h = some p := by
  obtain ⟨level, reason, o, hs, hrun⟩ := hcol
  obtain ⟨records, hcol⟩ := HeapM.collect_collected hs hrun
  obtain ⟨c, hc, hperm, rfl⟩ := Heap.body_eq_some.mp hb
  obtain ⟨d, hd⟩ := contains_iff.mp hlive
  have hlasting := (hcol.same hc hd).lasting
  exact Heap.body_eq_some.mpr ⟨d, hd, (Cell.permanent_of_lasting hlasting).trans hperm,
    Cell.forgetting_of_lasting hlasting⟩

theorem Regular.environmentStep (hr : Regular heap.graph.body ss) (hf : heap.CacheExact)
    (ht : Heap.EnvironmentStep (ss.map (·.env)) heap heap') : Regular heap'.graph.body ss := by
  refine hr.congr fun s hmem h hh => ?_
  have ho := hr.on s hmem
  have henv : s.env ∈ ss.map (·.env) := List.mem_map_of_mem hmem
  obtain ⟨p, hb, -⟩ := ho.body_of_part hh
  obtain ⟨c, hc, -⟩ := Heap.body_eq_some.mp hb
  have hlive : heap'.arena.contains h = true := by
    rcases ht.move.stays hf id hc with ⟨d, hd⟩ | ⟨hs, level, records, o, hcol, hlost⟩
    · exact contains_of_get? hd
    · obtain ⟨d, hd⟩ := contains_iff.mp (ht.alive s.env henv)
      obtain ⟨e, he, hkeeps⟩ := hcol.came hd
      obtain ⟨c', hc', hkept⟩ := ho.kept hs he hkeeps hh
      rw [hc, Option.some.injEq] at hc'
      exact absurd (hc' ▸ hkept) hlost
  rcases ht.unwritten with hcol | hsame
  · rw [hb]
    exact hcol.body hb hlive
  · exact hsame s.env henv h (ho.part hh) hlive

end Parts

theorem Nested.sublist {ss ts : List Scope} (hn : Nested ss) (hsub : ts.Sublist ss)
    (honce : (ss.map (·.env)).Nodup)
    (hclosed : ∀ t ∈ ts, t.parent = .nil ∨ t.parent ∈ ts.map (·.env)) : Nested ts := by
  have hlater : ∀ {ss : List Scope}, Nested ss → ∀ s ∈ ss, s.parent = .nil ∨
      s.parent ∈ ss.map (·.env) := by
    intro ss hn s hs
    induction ss with
    | nil => cases hs
    | cons t ss ih =>
      rcases List.mem_cons.mp hs with rfl | hs
      · exact hn.1.imp_right (List.mem_cons_of_mem _)
      · exact (ih hn.2 hs).imp_right (List.mem_cons_of_mem _)
  induction hsub with
  | slnil => trivial
  | cons s _ ih => exact ih hn.2 (List.nodup_cons.mp honce).2 hclosed
  | @cons_cons ts ss s hsub ih =>
    obtain ⟨hself, honce⟩ := List.nodup_cons.mp honce
    -- no environment that is left lies in the first one, which is the last that was made
    have hother : ∀ {p}, p ∈ ss.map (·.env) → p ∈ (s :: ts).map (·.env) → p ∈ ts.map (·.env) := by
      intro p hp hp'
      exact (List.mem_cons.mp hp').resolve_left fun he => hself (he ▸ hp)
    refine ⟨?_, ih hn.2 honce fun t ht => ?_⟩
    · rcases hn.1 with hnil | hmem
      · exact .inl hnil
      · exact (hclosed s (by simp)).imp_right (hother hmem)
    · rcases hlater hn.2 t (hsub.subset ht) with hnil | hmem
      · exact .inl hnil
      · exact (hclosed t (by simp [ht])).imp_right (hother hmem)

section Scoped

variable {ω : Type} {heap heap' : Heap} {envs : List Handle} {ss front back : List Scope} {s : Scope}
  {env sym value parent : Handle} {names values : List Handle} {fuel : Nat} {st st' : ω}

/-- Where the environments are regular, and the heap is sound and its cache exact. -/
structure Heap.Ordered (heap : Heap) (ss : List Scope) : Prop where
  sound : heap.Sound
  cacheExact : heap.CacheExact
  regular : Regular heap.graph.body ss

namespace Heap.Ordered

theorem reaches {kept : List Handle} (hreach : heap.Reaches kept (ss.map (·.env))) :
    ∀ s ∈ ss, heap.ReachedFrom (heap.RootedOr kept) s.env :=
  fun _ hs => hreach _ (List.mem_map_of_mem hs)

theorem make (ho : heap.Ordered ss) (hnames : names.Nodup)
    (hparent : parent = .nil ∨ parent ∈ ss.map (·.env))
    (hreach : heap.Reaches (names ++ values ++ [parent]) (ss.map (·.env)))
    (hrun : ((HostM.makeEnvironment (.mute fuel) names values parent).run.run st).run heap =
      .ok ((.ok env, st'), heap')) (hquiet : heap'.finalizers.run = heap.finalizers.run) :
    ∃ bs, heap'.Ordered (⟨env, parent, bs⟩ :: ss) ∧ Binding.map bs = .ofLists names values := by
  obtain ⟨hs', -, hmade⟩ := HostM.quietly_makeEnvironment_makesEnvironment _ _ _ _ _ ho.sound hrun
  obtain ⟨hlength, bs, hmakesEnvironment⟩ := hmade hquiet env rfl
  have hbyCacheSteps : Attempt.ByCacheSteps .free [] (fun _ => True)
      (HostM.makeEnvironment (.mute fuel : Host ω) names values parent) :=
    HostM.makeEnvironment_byCacheSteps (Host.mute_byCacheSteps fuel) fun _ => rfl
  refine ⟨bs, ⟨hs', (hbyCacheSteps _ _ _ _ _ trivial ho.cacheExact.guards ho.sound hrun).2.1.cacheExact ho.cacheExact, ?_⟩,
    Binding.map_eq_ofLists hmakesEnvironment.bindings⟩
  exact ho.regular.makesEnvironment ho.sound hnames hlength hparent (reaches hreach) hmakesEnvironment

theorem unmade {e : HeapError} (ho : heap.Ordered ss)
    (hreach : heap.Reaches (names ++ values ++ [parent]) (ss.map (·.env)))
    (hrun : ((HostM.makeEnvironment (.mute fuel) names values parent).run.run st).run heap =
      .ok ((.error e, st'), heap')) (hquiet : heap'.finalizers.run = heap.finalizers.run) :
    heap'.Ordered ss := by
  have hs' := (HostM.quietly_makeEnvironment_makesEnvironment _ _ _ _ _ ho.sound hrun).1
  have hbyCacheSteps : Attempt.ByCacheSteps .free [] (fun _ => True)
      (HostM.makeEnvironment (.mute fuel : Host ω) names values parent) :=
    HostM.makeEnvironment_byCacheSteps (Host.mute_byCacheSteps fuel) fun _ => rfl
  exact ⟨hs', (hbyCacheSteps _ _ _ _ _ trivial ho.cacheExact.guards ho.sound hrun).2.1.cacheExact ho.cacheExact,
    ho.regular.adds ho.sound (HostM.fails_makeEnvironment _ _ _ _ _ ho.sound hrun hquiet)
      (reaches hreach)⟩

theorem define {r : Except HeapError Unit} (ho : heap.Ordered (front ++ s :: back))
    (hreach : heap.Reaches [s.env, sym, value] ((front ++ s :: back).map (·.env)))
    (hrun : ((HostM.defineVar (.mute fuel) s.env sym value).run.run st).run heap =
      .ok ((r, st'), heap')) (hquiet : heap'.finalizers.run = heap.finalizers.run) :
    ∃ bs, heap'.Ordered (front ++ { s with bindings := bs } :: back) ∧ Binding.map bs =
      if r.isOk then (Binding.map s.bindings).insert sym value else Binding.map s.bindings := by
  obtain ⟨hs', -, hdone⟩ := HostM.quietly_defines _ _ _ _ _ ho.sound hrun
  have hbyCacheSteps : Attempt.ByCacheSteps .free [] (fun _ => True)
      (HostM.defineVar (.mute fuel : Host ω) s.env sym value) :=
    HostM.defineVar_byCacheSteps (Host.mute_byCacheSteps fuel) fun _ => rfl
  have hcacheExact := (hbyCacheSteps _ _ _ _ _ trivial ho.cacheExact.guards ho.sound hrun).2.1.cacheExact ho.cacheExact
  cases r with
  | ok u =>
    obtain ⟨bs, hr, hmap⟩ := ho.regular.defines ho.sound (reaches hreach) (hdone hquiet u rfl)
    exact ⟨bs, ⟨hs', hcacheExact, hr⟩, hmap⟩
  | error e =>
    exact ⟨s.bindings, ⟨hs', hcacheExact, ho.regular.adds ho.sound
      (HostM.fails_defineVar _ _ _ _ _ ho.sound hrun hquiet) (reaches hreach)⟩, rfl⟩

theorem remove (ho : heap.Ordered (front ++ s :: back)) (sym : Handle) :
    ∃ heap', (HeapM.removeVar s.env sym).run heap =
        .ok (decide (sym ∈ Binding.map s.bindings), heap') ∧
      ∃ bs, heap'.Ordered (front ++ { s with bindings := bs } :: back) ∧
        Binding.map bs = (Binding.map s.bindings).erase sym := by
  have hon := ho.regular.on s (by simp)
  obtain ⟨heap', hrun, hon', hothers⟩ := HeapM.ends_removeVar ho.sound hon sym
  have hbyCacheSteps : HeapM.ByCacheSteps .free [] (HeapM.removeVar s.env sym) := .removeVar
  have hparts : ∀ h ∈ ({ s with bindings := s.bindings.filter fun b => b.sym ≠ sym } : Scope).parts,
      h ∈ s.parts := fun h hh => (List.Sublist.cons_cons _ (List.filter_sublist.map _)).subset hh
  refine ⟨heap', Binding.any_eq_mem s.bindings sym ▸ hrun, _, ⟨HeapM.Safe.removeVar _ _ _ ho.sound hrun,
    (hbyCacheSteps _ _ _ hrun).cacheExact ho.cacheExact, ?_⟩, Binding.map_filter s.bindings sym⟩
  refine ho.regular.amend rfl rfl hon' (fun t ht h hh => hothers h fun hmem => ?_) fun h hh hout =>
    absurd (hparts h hh) hout
  exact ho.regular.disjoint hmem ht hh

theorem look {answer : Option Handle} (ho : heap.Ordered ss)
    (hrun : (HeapM.findVar env sym).run heap = .ok (answer, heap')) : heap'.Ordered ss := by
  have hbyCacheSteps : HeapM.ByCacheSteps .free [] (HeapM.findVar env sym) := .findVar
  exact ⟨HeapM.Safe.findVar _ _ _ ho.sound hrun, (hbyCacheSteps _ _ _ hrun).cacheExact ho.cacheExact,
    (HeapM.graph_findVar hrun) ▸ ho.regular⟩

theorem turns (ho : heap.Ordered ss)
    (ht : Relation.ReflTransGen (EnvironmentStep (ss.map (·.env))) heap heap') (hs' : heap'.Sound) :
    heap'.Ordered ss := by
  have hkept : heap'.CacheExact ∧ Regular heap'.graph.body ss := by
    clear hs'
    induction ht with
    | refl => exact ⟨ho.cacheExact, ho.regular⟩
    | tail _ hlast ih => exact ⟨hlast.move.cacheExact ih.1, ih.2.environmentStep ih.1 hlast⟩
  exact ⟨hs', hkept.1, hkept.2⟩

theorem forget {used : List Handle} (ho : heap.Ordered ss) (hsub : used.Sublist (ss.map (·.env)))
    (hclosed : heap.Closed used) : ∃ ts, ts.map (·.env) = used ∧ heap.Ordered ts := by
  obtain ⟨ts, hts, rfl⟩ := List.sublist_map_iff.mp hsub
  refine ⟨ts, rfl, ho.sound, ho.cacheExact, fun t ht => ho.regular.on t (hts.subset ht),
    ho.regular.apart.sublist hts, ho.regular.nested.sublist hts ho.regular.once fun t ht => ?_⟩
  obtain ⟨frame, henv, -⟩ := (ho.regular.on t (hts.subset ht)).frame
  exact hclosed t.env (List.mem_map_of_mem ht) frame t.parent henv

end Heap.Ordered

theorem Heap.Scoped.ordered (hsc : Scoped envs heap) :
    ∃ ss : List Scope, ss.map (·.env) = envs ∧ heap.Ordered ss := by
  induction hsc with
  | start hr => exact ⟨[], rfl, hr.sound, hr.cacheExact, nofun, .nil, trivial⟩
  | make _ hnames hparent hreach hrun hquiet ih =>
    obtain ⟨ss, rfl, ho⟩ := ih
    obtain ⟨bs, ho', -⟩ := ho.make hnames hparent hreach hrun hquiet
    exact ⟨_, rfl, ho'⟩
  | unmade _ hreach hrun hquiet ih =>
    obtain ⟨ss, rfl, ho⟩ := ih
    exact ⟨ss, rfl, ho.unmade hreach hrun hquiet⟩
  | define _ henv hreach hrun hquiet ih =>
    obtain ⟨ss, rfl, ho⟩ := ih
    obtain ⟨s, hs, rfl⟩ := List.mem_map.mp henv
    obtain ⟨front, back, rfl⟩ := List.mem_iff_append.mp hs
    obtain ⟨bs, ho', -⟩ := ho.define hreach hrun hquiet
    exact ⟨_, by simp, ho'⟩
  | remove _ henv hrun ih =>
    obtain ⟨ss, rfl, ho⟩ := ih
    obtain ⟨s, hs, rfl⟩ := List.mem_map.mp henv
    obtain ⟨front, back, rfl⟩ := List.mem_iff_append.mp hs
    obtain ⟨last, hrun', bs, ho', -⟩ := ho.remove _
    rw [hrun, Except.ok.injEq, Prod.mk.injEq] at hrun'
    obtain ⟨-, rfl⟩ := hrun'
    exact ⟨_, by simp, ho'⟩
  | look _ hrun ih =>
    obtain ⟨ss, rfl, ho⟩ := ih
    exact ⟨ss, rfl, ho.look hrun⟩
  | turns _ ht hs' ih =>
    obtain ⟨ss, rfl, ho⟩ := ih
    exact ⟨ss, rfl, ho.turns ht hs'⟩
  | forget _ hsub hclosed ih =>
    obtain ⟨ss, rfl, ho⟩ := ih
    exact ho.forget hsub hclosed

end Scoped

/-- The environments are the finite maps `M`: a symbol is looked up in one of them as in the map,
and each operation does to the maps what it does to the environments. -/
structure Heap.ActsAs (heap : Heap) (envs : List Handle) (M : Handle → Bindings) : Prop where
  find : ∀ env ∈ envs, heap.Maps env (M env)
  define : ∀ {ω : Type} {fuel : Nat} {s s' : ω} {env sym value : Handle} {r : Except HeapError Unit}
    {heap' : Heap}, env ∈ envs → heap.Reaches [env, sym, value] envs →
    ((HostM.defineVar (.mute fuel) env sym value).run.run s).run heap = .ok ((r, s'), heap') →
    heap'.finalizers.run = heap.finalizers.run → ∀ e ∈ envs, heap'.Maps e
      (if r.isOk then Function.update M env ((M env).insert sym value) e else M e)
  remove : ∀ env ∈ envs, ∀ sym, ∃ heap',
    (HeapM.removeVar env sym).run heap = .ok (decide (sym ∈ M env), heap') ∧
      ∀ e ∈ envs, heap'.Maps e (Function.update M env ((M env).erase sym) e)
  make : ∀ {ω : Type} {fuel : Nat} {s s' : ω} {names values : List Handle} {parent : Handle}
    {r : Except HeapError Handle} {heap' : Heap}, names.Nodup → parent = .nil ∨ parent ∈ envs →
    heap.Reaches (names ++ values ++ [parent]) envs →
    ((HostM.makeEnvironment (.mute fuel) names values parent).run.run s).run heap =
      .ok ((r, s'), heap') → heap'.finalizers.run = heap.finalizers.run →
    (∀ e ∈ envs, heap'.Maps e (M e)) ∧
      ∀ env, r = .ok env → env ∉ envs ∧ heap'.Maps env (.ofLists names values)
  look : ∀ {env sym name base internal last : Handle} {c : Cell}, env = .nil ∨ env ∈ envs →
    heap.arena.get? sym = some c → c.payload = .symbol name base internal last →
    ∃ around heap', heap.EnclosingScopes env around ∧ (∀ e ∈ around, e ∈ envs) ∧
      (HeapM.findVar env sym).run heap = .ok ((around.findSome? fun e => (M e).lookup sym).or
        (if base = .unbound then none else some base), heap') ∧
      ∀ e ∈ envs, heap'.Maps e (M e)
  turns : ∀ {heap' : Heap}, Relation.ReflTransGen (EnvironmentStep envs) heap heap' → heap'.Sound →
    ∀ e ∈ envs, heap'.Maps e (M e)

section Maps

variable {heap heap' : Heap} {envs : List Handle} {M : Handle → Bindings} {s : Scope}
  {ss front back : List Scope} {bs : List Binding}

theorem Regular.exists_maps {body : Handle → Option Payload} (hr : Regular body ss) :
    ∃ M : Handle → Bindings, ∀ s ∈ ss, M s.env = Binding.map s.bindings := by
  refine ⟨fun env => ((ss.find? fun s => s.env = env).map fun s => Binding.map s.bindings).getD ∅,
    fun s hs => ?_⟩
  have honce := hr.once
  clear hr
  induction ss with
  | nil => cases hs
  | cons t ss ih =>
    obtain ⟨hself, honce⟩ := List.nodup_cons.mp honce
    by_cases ht : t.env = s.env
    · obtain rfl : s = t := by
        rcases List.mem_cons.mp hs with rfl | hs
        · rfl
        · exact absurd (List.mem_map.mpr ⟨s, hs, ht.symm⟩) hself
      simp
    · rcases List.mem_cons.mp hs with rfl | hs
      · exact absurd rfl ht
      · simpa [List.find?_cons, ht] using ih hs honce

namespace Heap.Ordered

theorem maps (ho : heap.Ordered ss) (hM : ∀ s ∈ ss, M s.env = Binding.map s.bindings) :
    ∀ e ∈ ss.map (·.env), heap.Maps e (M e) := by
  intro e he
  obtain ⟨s, hs, rfl⟩ := List.mem_map.mp he
  exact hM s hs ▸ (ho.regular.on s hs).maps ho.sound.tidy

theorem maps_update (ho : heap.Ordered (front ++ { s with bindings := bs } :: back))
    (hM : ∀ t ∈ front ++ s :: back, M t.env = Binding.map t.bindings) :
    ∀ e ∈ (front ++ s :: back).map (·.env),
      heap.Maps e (Function.update M s.env (Binding.map bs) e) := by
  have henvs : (front ++ s :: back).map (·.env) =
      (front ++ { s with bindings := bs } :: back).map (·.env) := by simp
  rw [henvs]
  refine ho.maps fun t ht => ?_
  have honce := ho.regular.once
  rw [List.map_append, List.map_cons, List.nodup_middle, List.nodup_cons, ← List.map_append] at honce
  have hother : t ∈ front ++ back → Function.update M s.env (Binding.map bs) t.env =
      Binding.map t.bindings := by
    intro ht
    rw [Function.update_of_ne fun he => honce.1 (List.mem_map.mpr ⟨t, ht, he⟩)]
    exact hM t (by rcases List.mem_append.mp ht with ht | ht <;> simp [ht])
  rcases List.mem_append.mp ht with ht | ht
  · exact hother (List.mem_append_left _ ht)
  rcases List.mem_cons.mp ht with rfl | ht
  · exact Function.update_self ..
  · exact hother (List.mem_append_right _ ht)

end Heap.Ordered

end Maps

/-- In every state of a history of environments there are finite maps that they are. -/
theorem environments_are_maps {envs : List Handle} {heap : Heap} (hsc : heap.Scoped envs) :
    ∃ M, heap.ActsAs envs M := by
  obtain ⟨ss, rfl, ho⟩ := hsc.ordered
  obtain ⟨M, hM⟩ := ho.regular.exists_maps
  refine ⟨M, ho.maps hM, ?_, ?_, ?_, ?_, fun hturns hs' => (ho.turns hturns hs').maps hM⟩
  · intro ω fuel st st' env sym value r heap' henv hreach hrun hquiet
    obtain ⟨s, hs, rfl⟩ := List.mem_map.mp henv
    obtain ⟨front, back, rfl⟩ := List.mem_iff_append.mp hs
    obtain ⟨bs, ho', hmap⟩ := ho.define hreach hrun hquiet
    have hmaps := ho'.maps_update hM
    rw [hmap, ← hM s hs] at hmaps
    cases r with
    | ok u => exact hmaps
    | error e =>
      change ∀ e ∈ _, heap'.Maps e (Function.update M s.env (M s.env) e) at hmaps
      rw [Function.update_eq_self] at hmaps
      exact hmaps
  · intro env henv sym
    obtain ⟨s, hs, rfl⟩ := List.mem_map.mp henv
    obtain ⟨front, back, rfl⟩ := List.mem_iff_append.mp hs
    obtain ⟨heap', hrun, bs, ho', hmap⟩ := ho.remove sym
    have hmaps := ho'.maps_update hM
    rw [hmap] at hmaps
    rw [hM s hs]
    exact ⟨heap', hrun, hmaps⟩
  · intro ω fuel st st' names values parent r heap' hnames hparent hreach hrun hquiet
    cases r with
    | error e => exact ⟨(ho.unmade hreach hrun hquiet).maps hM, nofun⟩
    | ok env =>
      obtain ⟨bs, ho', hmap⟩ := ho.make hnames hparent hreach hrun hquiet
      have hold : heap'.Ordered ss := ⟨ho'.sound, ho'.cacheExact, fun t ht => ho'.regular.on t (by simp [ht]),
        (List.pairwise_cons.mp ho'.regular.apart).2, ho'.regular.nested.2⟩
      have hmaps : heap'.Maps env (Binding.map bs) :=
        (ho'.regular.on ⟨env, parent, bs⟩ (List.mem_cons_self ..)).maps ho'.sound.tidy
      rw [hmap] at hmaps
      have honce := ho'.regular.once
      rw [List.map_cons, List.nodup_cons] at honce
      refine ⟨hold.maps hM, fun env' henv => ?_⟩
      obtain rfl := Except.ok.inj henv
      exact ⟨honce.1, hmaps⟩
  · intro env sym name base internal last c henv hc hp
    obtain ⟨around, hsub, henclosingScopes, heap', hrun⟩ :=
      HeapM.ends_findVar ho.sound ho.regular hc hp henv
    refine ⟨around.map (·.env), heap', henclosingScopes, fun e he => (hsub.map _).subset he, ?_,
      (ho.look hrun).maps hM⟩
    rw [hrun, HeapM.innermost, List.findSome?_map]
    have hsame : ∀ {l : List Scope}, (∀ s ∈ l, M s.env = Binding.map s.bindings) →
        (l.findSome? fun s => (Binding.map s.bindings).lookup sym) =
          l.findSome? ((fun e => (M e).lookup sym) ∘ fun s => s.env) := by
      intro l hl
      induction l with
      | nil => rfl
      | cons s l ih =>
        rw [List.findSome?_cons, List.findSome?_cons, Function.comp_apply, hl s (by simp),
          ih fun t ht => hl t (by simp [ht])]
    rw [hsame fun s hs => hM s (hsub.subset hs)]

namespace Session

open HostM

/-- A symbol that is preserved. -/
def preservedSymbol : List Step :=
  [.command (.request (.allocate .symbol 0 [])) (some "s"),
    .command (.preserve (.register "s")) none]

/-- The symbol is bound by an environment, and bound again. -/
theorem environments_are_maps_boundTwice : ∃ start mid heap M,
    opened { segmentCells := 8 } preservedSymbol = .ok start ∧
    ((makeEnvironment (.mute loopBound) [⟨2⟩] [.nil] .nil).run.run ()).run start =
      .ok ((.ok ⟨4⟩, ()), mid) ∧
    ((defineVar (.mute loopBound) ⟨4⟩ ⟨2⟩ .unbound).run.run ()).run mid =
      .ok ((.ok (), ()), heap) ∧
    heap.Scoped [⟨4⟩] ∧ heap.ActsAs [⟨4⟩] M ∧ (M ⟨4⟩).lookup ⟨2⟩ = some .unbound := by
  obtain ⟨_, hall, htest⟩ := except_of_test
    (x := do
      let start ← opened { segmentCells := 8 } preservedSymbol
      let first ← ((makeEnvironment (.mute loopBound) [⟨2⟩] [.nil] .nil).run.run ()).run start
      let last ← ((defineVar (.mute loopBound) ⟨4⟩ ⟨2⟩ .unbound).run.run ()).run first.2
      return (start, first.1, first.2, last.1, last.2,
        ← (HeapM.findVarInFrame ⟨4⟩ ⟨2⟩).run last.2))
    (p := fun p : Heap × (Except HeapError Handle × Unit) × Heap × (Except HeapError Unit × Unit) ×
        Heap × Option Handle × Heap =>
      p.2.1.1.toOption == some ⟨4⟩ && p.2.2.1.arena.contains ⟨4⟩ &&
        p.2.2.2.1.1.toOption == some () && p.2.2.2.2.2.1 == some .unbound &&
        p.2.2.1.finalizers.run == p.1.finalizers.run &&
        p.2.2.2.2.1.finalizers.run == p.2.2.1.finalizers.run) (by decide +kernel)
  simp only [except_bind, pure, Except.pure, Except.ok.injEq] at hall
  obtain ⟨start, hopened, ⟨⟨made, _⟩, mid⟩, hmade, ⟨⟨bound, _⟩, heap⟩, hbound, ⟨found, after⟩, hfind,
    rfl⟩ := hall
  simp only [Bool.and_eq_true, beq_iff_eq] at htest
  obtain ⟨⟨⟨⟨⟨hmake, hlive⟩, hbind⟩, hfound⟩, hquiet⟩, hquiet'⟩ := htest
  obtain rfl : made = .ok ⟨4⟩ := eq_ok_of_toOption hmake
  obtain rfl : bound = .ok () := eq_ok_of_toOption hbind
  obtain ⟨state, hr⟩ := reachable_of_opened rfl hopened
  obtain ⟨c, hc⟩ := Arena.contains_iff.mp hlive
  have hmid : mid.Scoped [⟨4⟩] := .make (.start hr) (by simp) (.inl rfl) nofun hmade hquiet
  have hreach : mid.Reaches [⟨4⟩, ⟨2⟩, .unbound] [⟨4⟩] := by
    intro env henv
    obtain rfl := List.mem_singleton.mp henv
    exact .start (.inr List.mem_cons_self) hc
  have hscoped : heap.Scoped [⟨4⟩] := .define hmid List.mem_cons_self hreach hbound hquiet'
  obtain ⟨M, hacts⟩ := environments_are_maps hscoped
  refine ⟨start, mid, heap, M, hopened, hmade, hbound, hscoped, hacts, ?_⟩
  have hlookup := hacts.find ⟨4⟩ List.mem_cons_self ⟨2⟩
  rw [hfind, Except.ok.injEq, Prod.mk.injEq] at hlookup
  exact hlookup.1.symm.trans hfound

/-- The symbol is preserved, and a finalizer leaves a scope that was entered before, and
collects. It is run when memory gets short. -/
def scopeLeaverAtLast : List Step :=
  [.command (.request (.allocate .symbol 0 [])) (some "s"),
    .command (.preserve (.register "s")) none,
    .command (.enterScope "outer") none,
    .setScript 0 [.command (.leaveScope "outer") none, .command (.collect .full) none] .ok,
    .command (.request (.cons (.handle .nil) (.handle .nil))) (some "k"),
    .command (.request (.nativeFinalizer (.register "k") 0 false)) none,
    .command (.request (.cons (.handle .nil) (.handle .nil))) (some "x"),
    .command (.preserve (.register "x")) none]

/-- The scope takes back what keeps the frame of an environment that is being made: the
environment that comes of it has no frame to look a symbol up in. -/
theorem scopeLeaver_reclaims_frame : ∃ start replies state mid state' heap,
    Heap.build { segmentCells := 8, maxCells := some 8 } Heap.mixHash = .ok start ∧
    ((runSteps Session.host scopeLeaverAtLast).run {}).run start = .ok ((replies, state), mid) ∧
    ((makeEnvironment Session.host [⟨2⟩] [.nil] .nil).run.run state).run mid =
      .ok ((.ok ⟨7⟩, state'), heap) ∧
    ∀ m, ¬ heap.Maps ⟨7⟩ m := by
  obtain ⟨⟨_, ⟨replies, state⟩, mid, ⟨r, state'⟩, heap⟩, hall, htest⟩ := except_of_test
    (x := do
      let start ← Heap.build { segmentCells := 8, maxCells := some 8 } Heap.mixHash
      let first ← ((runSteps Session.host scopeLeaverAtLast).run {}).run start
      let last ← ((makeEnvironment Session.host [⟨2⟩] [.nil] .nil).run.run first.1.2).run first.2
      return (start, first.1, first.2, last))
    (p := fun p : Heap × (List Reply × State) × Heap × (Except HeapError Handle × State) × Heap =>
      p.2.2.2.1.1.toOption == some ⟨7⟩ &&
        ((HeapM.findVarInFrame ⟨7⟩ ⟨2⟩).run p.2.2.2.2).toOption.isNone) (by decide +kernel)
  simp only [except_bind, pure, Except.pure, Except.ok.injEq, Prod.mk.injEq] at hall
  obtain ⟨start, hbuild, ⟨⟨replies, state⟩, mid⟩, hsteps, _, hlast, rfl, hfirst, rfl, rfl⟩ := hall
  obtain ⟨rfl, rfl⟩ := Prod.mk.inj hfirst
  rw [Bool.and_eq_true, beq_iff_eq, Option.isNone_iff_eq_none] at htest
  obtain ⟨hmade, hfault⟩ := htest
  obtain rfl : r = .ok ⟨7⟩ := eq_ok_of_toOption hmade
  refine ⟨start, replies, state, mid, state', heap, hbuild, hsteps, hlast, fun m hm => ?_⟩
  have hfind : (HeapM.findVarInFrame ⟨7⟩ ⟨2⟩).run heap = _ := hm ⟨2⟩
  dsimp only at hfault
  rw [hfind] at hfault
  cases hfault

end Session

end ManagedHeap
