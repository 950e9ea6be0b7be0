import ManagedHeap.Proofs.CallEffects
import ManagedHeap.Proofs.PermanentObjects
import ManagedHeap.Proofs.FrameSearches

/-!
# Binding a symbol beside finalizers

A binding that is new goes in front of the frame that its environment had before the pair for it
was allocated. As a last resort that allocation runs finalizers. If they leave the environment the
same frame, whatever they did behind its first pair stays, and every other symbol is bound as they
left it. If they put a binding in front, or take away the first one, that is undone.
-/

namespace ManagedHeap

variable {heap heap' : Heap} {kind : Kind} {length : Nat} {h : Handle}

def Heap.Unheld (heap : Heap) (h : Handle) : Prop := ∀ k c, heap.arena.get? k = some c →
  c.flags.permanent = false → h ∉ c.payload.children true

theorem Heap.Gains.unheld (hs : heap.Sound) (hg : heap.Gains heap' kind length h) :
    heap'.Unheld h := by
  obtain ⟨-, hdead, payload, hp, hgraph⟩ := hg
  have hgone : ∀ {d}, heap.arena.get? h ≠ some d := fun hd =>
    nomatch (Heap.graph_eq_none.mp hdead).symm.trans hd
  intro k c hc hperm hmem
  have hseen := Heap.graph_of_get? hc
  rw [hgraph] at hseen
  by_cases hk : k = h
  · subst hk
    rw [Graph.add_self, Option.some.injEq] at hseen
    have hpayload : payload = c.payload.forgetting := congrArg Cell.payload hseen
    rw [← Cell.children_forgetting, ← hpayload] at hmem
    rcases Payload.children_forKind? hp hmem with rfl | rfl
    · obtain ⟨d, hd, -⟩ := hs.nilLive
      exact hgone hd
    · obtain ⟨d, hd, -⟩ := hs.unboundLive
      exact hgone hd
  · rw [Graph.add_ne hk] at hseen
    obtain ⟨d, hd, hsame⟩ := Heap.graph_eq_some.mp hseen
    have hpayload : d.payload.forgetting = c.payload.forgetting := congrArg Cell.payload hsame
    have hpermanent : d.seen.flags.permanent = c.seen.flags.permanent :=
      congrArg (fun e : Cell => e.flags.permanent) hsame
    rw [← Cell.children_forgetting, ← hpayload, Cell.children_forgetting] at hmem
    obtain ⟨e, he⟩ := hs.closed hd (hpermanent.trans hperm) (Cell.mem_edges_of_children hmem)
    exact hgone he

def Heap.Offered {ε : Type} (r : Except ε Handle) (heap : Heap) : Prop :=
  heap.Sound ∧ ∀ h, r = .ok h → heap.Unheld h

namespace HeapM

theorem offers_takeOrGrow {reserved : Bool} (hkind : kind ≠ .free) :
    Triple Heap.Sound (takeOrGrow kind length reserved) Heap.Offered := by
  intro heap r heap' hs hrun
  refine ⟨(run_takeOrGrow hs hkind hrun).1, fun h hr => ?_⟩
  rcases gains_takeOrGrow hs hkind hrun with ⟨⟨b, hb⟩, -⟩ | ⟨g, hg, hgains⟩
  · rw [hb] at hr
    cases hr
  · rw [hg, Except.ok.injEq] at hr
    exact hr ▸ hgains.unheld hs

theorem offers_allocateFast : Triple Heap.Sound (allocateFast kind length) fun h heap =>
    heap.Sound ∧ (h = .noObject ∨ heap.Unheld h) := by
  intro heap h heap' hs hrun
  refine ⟨(run_allocateFast hs hrun).1, ?_⟩
  rcases gains_allocateFast hs hrun with ⟨hnone, -⟩ | hgains
  · exact .inl hnone
  · exact .inr (hgains.unheld hs)

theorem offers_escalate (hkind : kind ≠ .free) (levels : List Level) (reserved : Bool) :
    Triple Heap.Sound (escalate kind length reserved levels) Heap.Offered := by
  induction levels generalizing reserved with
  | nil => exact .pure fun heap hs => ⟨hs, by simp⟩
  | cons level deeper ih =>
    refine .bind Safe.collect fun _ => .bind (offers_takeOrGrow hkind) fun r => ?_
    cases r with
    | ok h => exact .pure fun heap hs => ⟨hs.1, fun g hg => hs.2 g (congrArg _ (Except.ok.inj hg))⟩
    | error reserved => exact (ih reserved).conseq (fun _ hs => hs.1) fun _ _ => id

end HeapM

namespace HostM

variable {ω : Type} {host : Host ω} {roots : List Handle}

theorem offers_finalizeAndRetry (hhost : host.Safe) (hkind : kind ≠ .free) {reserved : Bool} :
    Triple Heap.Sound (finalizeAndRetry host kind length reserved) Heap.Offered := by
  refine .bind (Safe.reads .pendingFinalizerCount) fun n => ?_
  split
  · exact .pure fun heap hs => ⟨hs, by simp⟩
  · exact .bind (Safe.runPendingFinalizers hhost) fun _ => .bind (Safe.lift .collect) fun _ =>
      .lift (HeapM.offers_takeOrGrow hkind)

theorem offers_retry {P : Heap → Prop} {x : HostM ω (Except Bool Handle)}
    {next : Bool → HostM ω (Except HeapError Handle)} (hx : Triple P x Heap.Offered)
    (hnext : ∀ reserved, Triple Heap.Sound (next reserved) Heap.Offered) :
    Triple P (do
      match ← x with
      | .ok h => return .ok h
      | .error reserved => next reserved) Heap.Offered := by
  refine .bind hx fun r => ?_
  cases r with
  | ok h => exact .pure fun heap hs => ⟨hs.1, fun g hg => hs.2 g (congrArg _ (Except.ok.inj hg))⟩
  | error reserved => exact (hnext reserved).conseq (fun _ hs => hs.1) fun _ _ => id

theorem offers_allocateSlow (hhost : host.Safe) (hkind : kind ≠ .free) :
    Triple Heap.Sound (allocateSlow host kind length) Heap.Offered := by
  refine .bind (Safe.reads .collectionDue) fun due => ?_
  dsimp only
  rcases due with _ | reason
  on_goal 2 => refine .bind Safe.getHeap fun heap => .bind (Safe.lift .collect) fun _ => ?_
  all_goals
    refine offers_retry (.lift (HeapM.offers_takeOrGrow hkind)) fun reserved => ?_
    refine .bind Safe.getHeap fun heap =>
      offers_retry (.lift (HeapM.offers_escalate hkind _ reserved)) fun reserved => ?_
    refine offers_retry (offers_finalizeAndRetry hhost hkind) fun reserved => ?_
    exact .bind (Safe.lift .note) fun _ => .pure fun heap hs => ⟨hs, by simp⟩

theorem offers_allocate (hhost : host.Safe) : Attempt.Triple Heap.Sound
    (allocate host kind length roots) (fun h heap => heap.Unheld h) fun _ => True := by
  unfold allocate
  dsimp only
  split
  · exact .bind (Q := fun _ _ => False) (.throw fun _ _ => trivial) fun _ => .absurd
  · rename_i hallocatable
    replace hallocatable : kind ≠ .free := HeapM.kind_ne_free (by simpa using hallocatable)
    split
    · exact .bind (Q := fun _ _ => False) (.throw fun _ _ => trivial) fun _ => .absurd
    · refine .bind (.lift HeapM.offers_allocateFast) fun h => ?_
      split
      · rename_i hobject
        refine .pure fun heap hs => hs.2.resolve_left ?_
        rintro rfl
        cases hobject
      · refine .mk (.withTransient (offers_allocateSlow hhost hallocatable)
          (fun heap transient hs => hs.1.keeping transient) fun r heap transient hr => ?_)
        cases r with
        | ok h => exact hr.2 h rfl
        | error e => trivial

end HostM

section Setters

variable {env value old cell frame sym : Handle} {c : Cell} {q : Payload} {u : PUnit}

theorem Heap.Redrawn.reads {α : Type} {f : Payload → Option α} (hf : ∀ p, f p.forgetting = f p)
    (hc : heap.arena.get? h = some c)
    (hr : heap.Redrawn heap' ((heap.graph.edit h fun c => { c with payload := q }).recount old value)) :
    heap.graph.reads f h = f c.payload ∧
      heap'.graph.reads f = Function.update (heap.graph.reads f) h (f q) := by
  refine ⟨?_, ?_⟩
  · rw [Graph.reads, Heap.graph_of_get? hc]
    exact hf c.payload
  · rw [hr.graph, Graph.reads_recount hf, Graph.reads_rewritten hf (Heap.graph_of_get? hc)]

/-- A pair has other slots, and nothing else is new for a search. -/
structure Heap.Relinks (heap heap' : Heap) (h : Handle)
    (f : Handle → Handle → Handle → Handle × Handle × Handle) : Prop where
  links : ∃ car cdr tag, heap.graph.links h = some (car, cdr, tag) ∧
    heap'.graph.links = Function.update heap.graph.links h (some (f car cdr tag))
  frames : heap'.graph.reads Payload.frame? = heap.graph.reads Payload.frame?
  unframed : heap.graph.reads Payload.frame? h = none

theorem Heap.Redrawn.relinks {car cdr tag : Handle}
    {f : Handle → Handle → Handle → Handle × Handle × Handle} (hc : heap.arena.get? h = some c)
    (hp : c.payload = .pair car cdr tag) (hlinks : q.links? = some (f car cdr tag))
    (hframe : q.frame? = none)
    (hr : heap.Redrawn heap' ((heap.graph.edit h fun c => { c with payload := q }).recount old value)) :
    heap.Relinks heap' h f := by
  obtain ⟨hthere, hread⟩ := hr.reads Payload.links?_forgetting hc
  obtain ⟨hunframed, hframes⟩ := hr.reads Payload.frame?_forgetting hc
  rw [hp] at hthere hunframed
  refine ⟨⟨car, cdr, tag, hthere, hlinks ▸ hread⟩, ?_, hunframed⟩
  rw [hframes, hframe, Function.update_eq_self_iff]
  exact hunframed.symm

namespace HeapM

theorem relinks_setCar (hrun : (setCar h value).run heap = .ok (u, heap')) :
    heap.Relinks heap' h fun _ cdr tag => (value, cdr, tag) := by
  obtain ⟨c, car, cdr, tag, hc, hp, hr⟩ := redrawn_setCar hrun
  exact hr.relinks hc hp rfl rfl

theorem relinks_setCdr (hrun : (setCdr h value).run heap = .ok (u, heap')) :
    heap.Relinks heap' h fun car _ tag => (car, value, tag) := by
  obtain ⟨c, car, cdr, tag, hc, hp, hr⟩ := redrawn_setCdr hrun
  exact hr.relinks hc hp rfl rfl

theorem relinks_setTag (hrun : (setTag h value).run heap = .ok (u, heap')) :
    heap.Relinks heap' h fun car cdr _ => (car, cdr, value) := by
  obtain ⟨c, car, cdr, tag, hc, hp, hr⟩ := redrawn_setTag hrun
  exact hr.relinks hc hp rfl rfl

theorem reframes_setFrame (hrun : (setFrame env value).run heap = .ok (u, heap')) :
    heap'.graph.links = heap.graph.links ∧
      heap'.graph.reads Payload.frame? =
        Function.update (heap.graph.reads Payload.frame?) env (some value) := by
  obtain ⟨c, frame, enclos, hc, hp, hr⟩ := redrawn_setFrame hrun
  obtain ⟨hunlinked, hlinks⟩ := hr.reads Payload.links?_forgetting hc
  refine ⟨?_, (hr.reads Payload.frame?_forgetting hc).2⟩
  rw [hp] at hunlinked
  rw [Graph.links, hlinks, Function.update_eq_self_iff]
  exact hunlinked.symm

theorem fronts {m₁ m₂ m₃ : Heap} {u₁ u₂ u₃ u₄ : PUnit}
    (hcar : (setCar cell value).run heap = .ok (u₁, m₁))
    (hcdr : (setCdr cell frame).run m₁ = .ok (u₂, m₂))
    (htag : (setTag cell sym).run m₂ = .ok (u₃, m₃))
    (hlast : (setFrame env cell).run m₃ = .ok (u₄, heap')) :
    heap.Relinks m₃ cell (fun _ _ _ => (value, frame, sym)) ∧
      heap'.graph.links = m₃.graph.links ∧ heap'.graph.reads Payload.frame? =
        Function.update (heap.graph.reads Payload.frame?) env (some cell) := by
  obtain ⟨⟨car, cdr, tag, hthere, hlinks₁⟩, hframes₁, hunframed⟩ := relinks_setCar hcar
  obtain ⟨⟨_, _, _, hthere₁, hlinks₂⟩, hframes₂, -⟩ := relinks_setCdr hcdr
  obtain ⟨⟨_, _, _, hthere₂, hlinks₃⟩, hframes₃, -⟩ := relinks_setTag htag
  obtain ⟨hlinks, hframes⟩ := reframes_setFrame hlast
  rw [hlinks₁, Function.update_self, Option.some.injEq, Prod.mk.injEq, Prod.mk.injEq] at hthere₁
  obtain ⟨rfl, rfl, rfl⟩ := hthere₁
  rw [hlinks₂, Function.update_self, Option.some.injEq, Prod.mk.injEq, Prod.mk.injEq] at hthere₂
  obtain ⟨rfl, rfl, rfl⟩ := hthere₂
  refine ⟨⟨⟨car, cdr, tag, hthere, ?_⟩, ?_, hunframed⟩, hlinks, ?_⟩
  · rw [hlinks₃, hlinks₂, hlinks₁, Function.update_idem, Function.update_idem]
  · rw [hframes₃, hframes₂, hframes₁]
  · rw [hframes, hframes₃, hframes₂, hframes₁]

end HeapM

end Setters

/-- A symbol has this value in an environment itself, or none. -/
def Heap.Resolves (heap : Heap) (env sym : Handle) (found : Option Handle) : Prop :=
  (HeapM.findVarInFrame env sym).run heap = .ok (found, heap)

namespace Heap

variable {mid : Heap} {env sym t value cell frame : Handle} {found : Option Handle}
  {answer : Option (Handle × Handle)}

theorem resolves_iff (ht : heap.arena.Tidy) : heap.Resolves env sym found ↔
    ∃ answer, heap.Locates env sym answer ∧ found = answer.map Prod.snd := by
  simp [Resolves, HeapM.run_findVarInFrame ht]

theorem Relinks.binding {old next : Handle}
    (hr : heap.Relinks heap' cell fun _ cdr tag => (value, cdr, tag))
    (hcell : heap.graph.links cell = some (old, next, sym)) : heap'.graph.links =
      Function.update heap.graph.links cell (some (value, next, sym)) := by
  obtain ⟨⟨_, _, _, hthere, hlinks⟩, -, -⟩ := hr
  rw [hcell, Option.some.injEq, Prod.mk.injEq, Prod.mk.injEq] at hthere
  obtain ⟨rfl, rfl, rfl⟩ := hthere
  exact hlinks

theorem Relinks.copyOf {old next : Handle} {n : Nat}
    (hr : heap.Relinks heap' cell fun _ cdr tag => (value, cdr, tag))
    (hcell : heap.graph.links cell = some (old, next, sym))
    (hframe : heap.graph.reads Payload.frame? env = some frame)
    (hs : Seeks heap.graph.links sym n frame (some (cell, old))) :
    heap'.Locates env sym (some (cell, value)) := by
  refine ⟨frame, n, hr.frames ▸ hframe, ?_⟩
  rw [hr.binding hcell]
  exact hs.revalued hcell

theorem Relinks.resolves {old next : Handle}
    (hr : heap.Relinks heap' cell fun _ cdr tag => (value, cdr, tag))
    (hcell : heap.graph.links cell = some (old, next, sym)) (ht : heap.arena.Tidy)
    (ht' : heap'.arena.Tidy) (hother : t ≠ sym) :
    heap.Resolves env t found ↔ heap'.Resolves env t found := by
  have hlinks := hr.binding hcell
  have hframes := hr.frames
  have hlocates : ∀ answer, heap.Locates env t answer ↔ heap'.Locates env t answer := by
    intro answer
    rw [Locates, Locates, hframes]
    refine exists_congr fun frame => exists_congr fun n => and_congr_right fun _ => ?_
    refine Seeks.congr (P := fun _ => True) trivial (fun _ _ => trivial) fun k _ => ?_
    by_cases hk : k = cell
    · subst hk
      exact .inr ⟨old, value, next, sym, hother.symm, hcell, by rw [hlinks, Function.update_self]⟩
    · exact .inl (by rw [hlinks, Function.update_of_ne hk])
  rw [resolves_iff ht, resolves_iff ht']
  simp only [hlocates]

theorem Unheld.not_mem (hu : heap.Unheld cell) (hp : heap.Plain) (hs : heap.Sound) {c : Cell}
    (hc : heap.arena.get? h = some c) (hnil : c.payload.suits .nil = false)
    (hsymbol : c.payload.suits .symbol = false) : cell ∉ c.payload.children true :=
  hu h c hc (hp.not_permanent hs hc hnil hsymbol)

theorem Unheld.not_next (hu : heap.Unheld cell) (hp : heap.Plain) (hs : heap.Sound)
    (hcell : cell ≠ .nil) {k car next tag : Handle}
    (hk : heap.graph.links k = some (car, next, tag)) : next ≠ cell := by
  obtain ⟨c, hc, hlinks⟩ := (reads_eq_some Payload.links?_forgetting).mp hk
  cases hpayload : c.payload <;>
    simp only [hpayload, Payload.links?, reduceCtorEq, Option.some.injEq, Prod.mk.injEq] at hlinks
  case nil =>
    obtain ⟨-, rfl, -⟩ := hlinks
    exact hcell.symm
  case pair =>
    obtain ⟨-, rfl, -⟩ := hlinks
    have hout := hu.not_mem hp hs hc (by rw [hpayload]; rfl) (by rw [hpayload]; rfl)
    rintro rfl
    exact hout (by simp [hpayload, Payload.children])

theorem Unheld.not_frame (hu : heap.Unheld cell) (hp : heap.Plain) (hs : heap.Sound)
    (henv : heap.graph.reads Payload.frame? env = some frame) : frame ≠ cell := by
  obtain ⟨c, hc, hframe⟩ := (reads_eq_some Payload.frame?_forgetting).mp henv
  cases hpayload : c.payload <;>
    simp only [hpayload, Payload.frame?, reduceCtorEq, Option.some.injEq] at hframe
  subst hframe
  have hout := hu.not_mem hp hs hc (by rw [hpayload]; rfl) (by rw [hpayload]; rfl)
  rintro rfl
  exact hout (by simp [hpayload, Payload.children])

theorem Relinks.resolves_front {m : Heap} (hr : heap.Relinks m cell fun _ _ _ => (value, frame, sym))
    (hlinks : heap'.graph.links = m.graph.links) (hframes : heap'.graph.reads Payload.frame? =
      Function.update (heap.graph.reads Payload.frame?) env (some cell))
    (hu : heap.Unheld cell) (hp : heap.Plain) (hs : heap.Sound) (ht' : heap'.arena.Tidy)
    (hcell : cell ≠ .nil) (henv : heap.graph.reads Payload.frame? env = some frame)
    (hother : t ≠ sym) : heap.Resolves env t found ↔ heap'.Resolves env t found := by
  obtain ⟨⟨_, _, _, -, hupdate⟩, -, -⟩ := hr
  rw [hupdate] at hlinks
  have hfirst : heap'.graph.links cell = some (value, frame, sym) := by
    rw [hlinks, Function.update_self]
  have hsame : ∀ {n answer}, Seeks heap.graph.links t n frame answer ↔
      Seeks heap'.graph.links t n frame answer := by
    refine Seeks.congr (P := fun k => k ≠ cell) (hu.not_frame hp hs henv)
      (fun _ hk => hu.not_next hp hs hcell hk) fun k hk => .inl ?_
    rw [hlinks, Function.update_of_ne hk]
  have hlocates : ∀ answer, heap.Locates env t answer ↔ heap'.Locates env t answer := by
    intro answer
    rw [Locates, Locates, hframes, Function.update_self, henv]
    constructor
    · intro hs
      obtain ⟨_, n, hframe, hs⟩ := hs
      obtain rfl := Option.some.inj hframe
      exact ⟨cell, n + 1, rfl, .next hcell hfirst hother.symm (hsame.mp hs)⟩
    · intro hs
      obtain ⟨_, n, hframe, hs⟩ := hs
      obtain rfl := Option.some.inj hframe
      rcases (Seeks.pair_iff hcell hfirst).mp hs with ⟨he, -⟩ | ⟨-, m, -, hrest⟩
      · exact absurd he.symm hother
      · exact ⟨frame, m, rfl, hsame.mpr hrest⟩
  rw [resolves_iff hs.tidy, resolves_iff ht']
  simp only [hlocates]

end Heap

namespace Session

open HostM

/-- A symbol that is bound has the new value afterwards. Where its environment bound it before,
no other symbol is bound to anything else, and nothing is allocated. Otherwise a pair is put in
front of the frame that the environment had at first, whatever finalizers did to the environment
while the pair was allocated. If they have left it that frame, every other symbol is bound as they
left it. -/
theorem define_keeps_bindings {state state' : State} {heap heap' : Heap} {levels : Nat}
    {env sym value : Handle} (hr : Reachable state heap)
    (hrun : ((defineVar (hostWithin levels) env sym value).run.run state).run heap =
      .ok ((.ok ⟨⟩, state'), heap')) : heap'.Resolves env sym (some value) ∧
      ((∃ cell, (HeapM.frameBinding env sym).run heap = .ok (some cell, heap) ∧ state' = state ∧
          ∀ t, t ≠ sym → ∀ found, heap.Resolves env t found ↔ heap'.Resolves env t found) ∨
        ∃ frame cell mid, (HeapM.frameBinding env sym).run heap = .ok (none, heap) ∧
          (HeapM.envFrame env).run heap = .ok (frame, heap) ∧
          ((allocate (hostWithin levels) .pair 0 [env, sym, value]).run.run state).run heap =
            .ok ((.ok cell, state'), mid) ∧
          (HeapM.envFrame env).run heap' = .ok (cell, heap') ∧
          (HeapM.pairFields cell).run heap' = .ok ((value, frame, sym), heap') ∧
          ((HeapM.envFrame env).run mid = .ok (frame, mid) → ∀ t, t ≠ sym → ∀ found,
            mid.Resolves env t found ↔ heap'.Resolves env t found)) := by
  have hs' : heap'.Sound := defineVar_safe (hostWithin_safe levels) _ _ _ _ hr.sound hrun
  unfold defineVar at hrun
  obtain ⟨found, _, hsearch, hdefine⟩ := Attempt.run_lift_bind hrun
  obtain ⟨rfl, answer, hlocates, hanswer⟩ := (HeapM.run_frameBinding hr.sound.tidy).mp hsearch
  cases found with
  | some cell =>
    obtain ⟨_, -, rfl, hset⟩ := Attempt.run_lift.mp hdefine
    obtain ⟨⟨_, old⟩, rfl, rfl⟩ := Option.map_eq_some_iff.mp hanswer.symm
    obtain ⟨frame, n, hframe, hseeks⟩ := hlocates
    obtain ⟨-, next, hcell⟩ := hseeks.binding
    have hrelinks := HeapM.relinks_setCar hset
    refine ⟨(Heap.resolves_iff hs'.tidy).mpr ⟨_, hrelinks.copyOf hcell hframe hseeks, rfl⟩,
      .inl ⟨_, hsearch, rfl, fun t ht found =>
        hrelinks.resolves hcell hr.sound.tidy hs'.tidy ht⟩⟩
  | none =>
    obtain ⟨frame, _, hframe, hbind⟩ := Attempt.run_lift_bind hdefine
    obtain ⟨rfl, -⟩ := HeapM.run_envFrame.mp hframe
    obtain ⟨cell, middle, mid, hallocate, hfill⟩ := Attempt.run_bind_ok hbind
    obtain ⟨_, m₁, hcar, hfill₁⟩ := Attempt.run_lift_bind hfill
    obtain ⟨_, m₂, hcdr, hfill₂⟩ := Attempt.run_lift_bind hfill₁
    obtain ⟨_, m₃, htag, hfill₃⟩ := Attempt.run_lift_bind hfill₂
    obtain ⟨_, -, rfl, hlast⟩ := Attempt.run_lift.mp hfill₃
    obtain ⟨hrelinks, hlinks, hframes⟩ := HeapM.fronts hcar hcdr htag hlast
    have hmid : mid.SoundWithHistory :=
      (allocate_sized (hostWithin_traced levels) _ _ _ _ hr.soundWithHistory hallocate).1
    have hunheld : mid.Unheld cell :=
      offers_allocate (hostWithin_safe levels) _ _ _ _ hr.sound hallocate
    have hcell := (hr.allocates hallocate).1
    have hfirst : heap'.graph.links cell = some (value, frame, sym) := by
      obtain ⟨⟨_, _, _, -, hupdate⟩, -, -⟩ := hrelinks
      rw [hlinks, hupdate, Function.update_self]
    have hfront : heap'.graph.reads Payload.frame? env = some cell := by
      rw [hframes, Function.update_self]
    refine ⟨(Heap.resolves_iff hs'.tidy).mpr ⟨some (cell, value),
        ⟨cell, 0, hfront, .found hcell hfirst⟩, rfl⟩,
      .inr ⟨frame, cell, mid, hsearch, hframe, hallocate, HeapM.run_envFrame.mpr ⟨rfl, hfront⟩,
        HeapM.run_pairFields_iff.mpr ⟨rfl, hfirst⟩, fun hsame t ht found => ?_⟩⟩
    exact hrelinks.resolves_front hlinks hframes hunheld (.of_soundWithHistory hmid) hmid.1 hs'.tidy hcell
      (HeapM.run_envFrame.mp hsame).2 ht

/-- A finalizer that is run when memory gets short binds a symbol in an environment. -/
def overtaker : List Step :=
  [.command (.request (.allocate .symbol 0 [])) (some "s"),
    .command (.preserve (.register "s")) none,
    .command (.request (.allocate .symbol 0 [])) (some "t"),
    .command (.preserve (.register "t")) none,
    .command (.request (.environment [] [] (.handle .nil))) (some "e"),
    .command (.preserve (.register "e")) none,
    .setScript 0 [.command (.defineVar (.register "e") (.register "t") (.register "s")) none] .ok,
    .command (.request (.cons (.handle .nil) (.handle .nil))) (some "k"),
    .command (.request (.nativeFinalizer (.register "k") 0 false)) none]

/-- It does so while another symbol is being bound there, and its own binding is lost. -/
theorem define_keeps_bindings_overtaken : ∃ start replies state mid state' heap,
    Heap.build { segmentCells := 8, maxCells := some 8 } Heap.mixHash = .ok start ∧
    ((runSteps Session.host overtaker).run {}).run start = .ok ((replies, state), mid) ∧
    ((defineVar Session.host ⟨4⟩ ⟨2⟩ ⟨3⟩).run.run state).run mid = .ok ((.ok ⟨⟩, state'), heap) ∧
    heap.finalizers.run = mid.finalizers.run + 1 ∧
    heap.Resolves ⟨4⟩ ⟨2⟩ (some ⟨3⟩) ∧ heap.Resolves ⟨4⟩ ⟨3⟩ none := by
  obtain ⟨⟨_, ⟨replies, state⟩, mid, ⟨r, state'⟩, heap, found, _⟩, hall, htest⟩ := except_of_test
    (x := do
      let start ← Heap.build { segmentCells := 8, maxCells := some 8 } Heap.mixHash
      let first ← ((runSteps Session.host overtaker).run {}).run start
      let last ← ((defineVar Session.host ⟨4⟩ ⟨2⟩ ⟨3⟩).run.run first.1.2).run first.2
      let answer ← (HeapM.findVarInFrame ⟨4⟩ ⟨3⟩).run last.2
      return (start, first.1, first.2, last.1, last.2, answer))
    (p := fun p : Heap × (List Reply × State) × Heap × (Except HeapError Unit × State) × Heap ×
        Option Handle × Heap =>
      p.2.2.2.1.1.toOption == some () &&
        p.2.2.2.2.1.finalizers.run == p.2.2.1.finalizers.run + 1 &&
        p.2.2.2.2.2.1 == none) (by decide +kernel)
  simp only [except_bind, pure, Except.pure, Except.ok.injEq, Prod.mk.injEq] at hall
  obtain ⟨start, hbuild, ⟨⟨replies, state⟩, mid⟩, hsteps, ⟨_, heap⟩, hdefine, ⟨found, after⟩, hfind,
    rfl, hfirst, rfl, hlast, rfl, rfl, rfl⟩ := hall
  obtain ⟨rfl, rfl⟩ := Prod.mk.inj hfirst
  obtain rfl := hlast
  simp only [Bool.and_eq_true, beq_iff_eq] at htest
  obtain ⟨⟨hdefined, hran⟩, rfl⟩ := htest
  obtain rfl : r = .ok () := eq_ok_of_toOption hdefined
  obtain ⟨hbound, -⟩ := define_keeps_bindings (.runSteps (.new rfl hbuild) hsteps) hdefine
  obtain rfl := HeapM.Reads.findVarInFrame _ _ _ hfind
  exact ⟨start, replies, state, mid, state', _, hbuild, hsteps, hdefine, hran, hbound, hfind⟩

end Session

end ManagedHeap
