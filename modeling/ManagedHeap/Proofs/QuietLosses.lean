import Mathlib.Logic.Function.Iterate
import ManagedHeap.Proofs.WeakRecordSteps
import ManagedHeap.Proofs.AllocationFrame

/-!
# What is left where no finalizer runs

A computation that runs no finalizer leaves what the roots reach, but for the references that it
counts. Of the chain of weak records it takes at most some that have no finalizer and whose keys
are dead; the others stay in order. Tasks that it waits for let go of what they hold.
-/

namespace ManagedHeap

theorem PendingObjects.held_settled (p : PendingObjects) (h : Handle) :
    ((p.settleOutputs h).settleInputs h).held = p.held.filter (· ≠ h) := by
  obtain ⟨entries, released⟩ := p
  simp only [held, settleOutputs, settleInputs, modify, List.map_map]
  induction entries with
  | nil => rfl
  | cons e es ih =>
    obtain ⟨k, u⟩ := e
    have hsettled : TaskUse.isIdle { outputs := 0, inputs := 0 } = true := rfl
    by_cases hk : k = h <;> cases hidle : u.isIdle <;> simp_all

namespace Tasks

variable {t : Tasks} {h k : Handle}

theorem held_await (t : Tasks) (h : Handle) :
    ((t.awaitOutput h).awaitInput h).held = t.held.filter (· ≠ h) := by
  obtain ⟨scheduler, registry⟩ := t
  cases scheduler with
  | none => rfl
  | registry | minimal => exact registry.held_settled h

theorem held_awaitAll (t : Tasks) (hs : List Handle) :
    (t.awaitAll hs).held = t.held.filter (· ∉ hs) := by
  induction hs generalizing t with
  | nil => simp [awaitAll]
  | cons h hs ih =>
    have hone : t.awaitAll (h :: hs) = ((t.awaitOutput h).awaitInput h).awaitAll hs := rfl
    rw [hone, ih, held_await, List.filter_filter]
    refine List.filter_congr fun k _ => ?_
    simp [not_or, Bool.and_comm]

theorem held_releaseCached (t : Tasks) : t.releaseCached.held = t.held := by
  obtain ⟨scheduler, registry⟩ := t
  cases scheduler with
  | none | minimal => rfl
  | registry =>
    simp only [held, releaseCached, PendingObjects.held, PendingObjects.releaseCached,
      List.filter_filter, Bool.and_self]

end Tasks

theorem Heap.held_quietTasks (heap : Heap) (level : Level) :
    (heap.quietTasks level).held = heap.tasks.held.filter (· ∉ heap.awaitedTasks level) := by
  simp only [quietTasks, awaitedTasks]
  split
  · rw [Tasks.held_awaitAll, Tasks.held_releaseCached]
  · simp [Tasks.held_releaseCached]

namespace Cell

variable {c d : Cell}

theorem watched_of_content {f : WeakFields} (he : d.content = c.content)
    (hf : c.payload.fields? = some f) :
    ∃ g, d.payload.fields? = some g ∧ g.watched = f.watched := by
  have hpayload : d.payload.forgetting.unchained = c.payload.forgetting.unchained :=
    congrArg Cell.payload he
  rw [Payload.fields?_eq_some.mp hf] at hpayload
  cases hd : d.payload
  case weakRef key value finalizer next =>
    rw [hd] at hpayload
    simp only [Payload.forgetting, Payload.unchained, Payload.weakRef.injEq] at hpayload
    obtain ⟨rfl, rfl, rfl, -⟩ := hpayload
    exact ⟨_, rfl, rfl⟩
  all_goals
    rw [hd] at hpayload
    cases hpayload

theorem Lasts.symbolName (hl : c.Lasts d) : d.flags.symbolName = c.flags.symbolName := by
  rcases hl with he | ⟨_, _, _, _, he⟩
  · exact (congrArg (fun c : Cell => c.header.flags.symbolName) he :)
  · exact (congrArg (fun c : Cell => c.header.flags.symbolName) he :).trans rfl

theorem Lasts.isName (hl : c.Lasts d) (hname : d.IsName) : c.IsName :=
  ⟨hl.kind.symm.trans hname.1, hl.cached.symm.trans hname.2.1, hl.symbolName.symm.trans hname.2.2⟩

end Cell

/-- The object looks the same, but so many more references to it were counted. -/
structure Cell.Recounts (c : Cell) (n : Nat) (d : Cell) : Prop where
  content : d.content = c.content
  refcount : d.header.refcount = RefCount.increment^[n] c.header.refcount
  ready : d.flags.readyToFinalize = c.flags.readyToFinalize

namespace Graph

variable {g : Graph} {h k : Handle} {c : Cell} {hs : List Handle}

theorem fieldsOf_countAll : (hs.foldl count g).fieldsOf k = g.fieldsOf k := by
  induction hs generalizing g with
  | nil => rfl
  | cons h hs ih =>
    rw [List.foldl_cons, ih]
    by_cases hk : k = h
    · subst hk
      cases hc : g k with
      | none => rw [count, edit_of_dead hc]
      | some c =>
        rw [count, fieldsOf_edit_self hc, fieldsOf, hc]
        rfl
    · exact fieldsOf_edit_ne hk

theorem recounts_countAll (hc : g k = some c) :
    ∃ d, (hs.foldl count g) k = some d ∧ c.Recounts (hs.count k) d := by
  induction hs generalizing g c with
  | nil => exact ⟨c, hc, rfl, rfl, rfl⟩
  | cons h hs ih =>
    by_cases hk : k = h
    · subst hk
      obtain ⟨d, hd, hrecounts⟩ := ih (edit_self (f := Cell.mapRefCount .increment) hc)
      refine ⟨d, hd, hrecounts.content.trans (Cell.content_seen _), ?_, hrecounts.ready⟩
      rw [hrecounts.refcount, List.count_cons_self, Function.iterate_succ_apply]
      rfl
    · obtain ⟨d, hd, hrecounts⟩ := ih ((edit_ne (f := Cell.mapRefCount .increment) hk).trans hc)
      exact ⟨d, hd, by rwa [List.count_cons_of_ne (Ne.symm hk)]⟩

end Graph

theorem Cell.Recounts.refl (c : Cell) : c.Recounts 0 c := ⟨rfl, rfl, rfl⟩

namespace Heap

/-- What is left can be reached from given starting points, from what a task holds in the end, and
from the records that are on the chain in the end. -/
def ReachedInTheEnd (heap' : Heap) (start : Handle → Prop) (rs : List Handle) (p : Handle) : Prop :=
  start p ∨ p ∈ heap'.tasks.held ∨ p ∈ rs

/-- A collection may find the object dead: it cannot be reached, or it is the name of a symbol. -/
def MayDie (heap : Heap) (start : Handle → Prop) (k : Handle) : Prop :=
  ¬ heap.ReachedFrom start k ∨ ∃ c, heap.arena.get? k = some c ∧ c.IsName

/-- References to `counted` were counted, and the chain, which held `records`, holds `rs`. -/
structure LosesUnreached (heap heap' : Heap) (start : Handle → Prop) (counted records rs : List Handle) :
    Prop where
  before : heap.Chain records
  chain : heap'.Chain rs
  order : rs.Sublist records
  held : ∀ p ∈ heap'.tasks.held, p ∈ heap.tasks.held
  kept : ∀ h c, heap.ReachedFrom (heap'.ReachedInTheEnd start rs) h → heap.arena.get? h = some c →
    ∃ d, heap'.arena.get? h = some d ∧ c.Lasts d ∧
      d.header.refcount = RefCount.increment^[counted.count h] c.header.refcount ∧
      ((h ∈ records → h ∈ rs) → d.content = c.content)
  lost : ∀ r ∈ records, r ∉ rs → ∃ f, heap.fieldsOf r = some f ∧ f.finalizer = .nil ∧
    (heap.arena.Ready r ∨ heap.MayDie (heap'.ReachedInTheEnd start rs) f.key)
  ready : ∀ r ∈ rs, heap'.arena.Ready r → heap.arena.Ready r ∨
    ∃ f, heap.fieldsOf r = some f ∧ heap.MayDie (heap'.ReachedInTheEnd start rs) f.key

variable {heap mid heap' : Heap} {start start' : Handle → Prop}
  {counted more records ms rs : List Handle} {h k r : Handle}

theorem Chain.live (hc : heap.Chain records) (hr : r ∈ records) :
    ∃ c f, heap.arena.get? r = some c ∧ c.payload.fields? = some f ∧ heap.fieldsOf r = some f := by
  obtain ⟨-, f, hf⟩ := hc.strung.fields_of_mem hr
  obtain ⟨c, hcell, hfields⟩ := Option.bind_eq_some_iff.mp hf
  exact ⟨c, f, hcell, hfields, hf⟩

theorem Chain.aside (hc : heap.Chain records) (harena : heap'.arena = heap.arena)
    (hweak : heap'.weak = heap.weak) : heap'.Chain records :=
  (Preserves.aside harena hweak).chain hc

theorem bases_congr (htasks : heap'.tasks = heap.tasks) :
    heap'.ReachedInTheEnd start rs = heap.ReachedInTheEnd start rs := by
  funext p
  rw [ReachedInTheEnd, ReachedInTheEnd, htasks]

namespace LosesUnreached

theorem carries (ht : heap.LosesUnreached heap' start counted records rs) :
    heap.Carries heap' (heap'.ReachedInTheEnd start rs) := by
  intro h c hr hc
  obtain ⟨d, hd, hlasts, -⟩ := ht.kept h c hr hc
  exact ⟨d, hd, hlasts⟩

theorem watched {f : WeakFields} (ht : heap.LosesUnreached heap' start counted records rs) (hr : r ∈ rs)
    (hf : heap.fieldsOf r = some f) :
    ∃ g, heap'.fieldsOf r = some g ∧ g.watched = f.watched := by
  obtain ⟨c, hc, hfields⟩ := Option.bind_eq_some_iff.mp hf
  obtain ⟨d, hd, -, -, hcontent⟩ := ht.kept r c (.start (.inr (.inr hr)) hc) hc
  obtain ⟨g, hg, hsame⟩ := Cell.watched_of_content (hcontent fun _ => hr) hfields
  exact ⟨g, by rw [fieldsOf, hd, Option.bind_some, hg], hsame⟩

theorem refl (hc : heap.Chain records) : heap.LosesUnreached heap start [] records records where
  before := hc
  chain := hc
  order := .refl _
  held := fun _ => id
  kept := fun _ c _ hget => ⟨c, hget, .refl c, rfl, fun _ => rfl⟩
  lost := fun _ hr hout => absurd hr hout
  ready := fun _ _ => .inl

theorem mono (ht : heap.LosesUnreached heap' start counted records rs) (hsub : ∀ p, start' p → start p) :
    heap.LosesUnreached heap' start' counted records rs := by
  have hbases : ∀ p, heap'.ReachedInTheEnd start' rs p → heap'.ReachedInTheEnd start rs p :=
    fun p => Or.imp_left (hsub p)
  have hmayDie : ∀ {k}, heap.MayDie (heap'.ReachedInTheEnd start rs) k →
      heap.MayDie (heap'.ReachedInTheEnd start' rs) k :=
    Or.imp_left fun hout hr => hout (hr.mono hbases)
  exact ⟨ht.before, ht.chain, ht.order, ht.held, fun h c hr => ht.kept h c (hr.mono hbases),
    fun r hr hout => (ht.lost r hr hout).imp fun f hf => ⟨hf.1, hf.2.1, hf.2.2.imp_right hmayDie⟩,
    fun r hr hready => (ht.ready r hr hready).imp_right fun ⟨f, hf, hfade⟩ => ⟨f, hf, hmayDie hfade⟩⟩

theorem recount (ht : heap.LosesUnreached heap' start counted records rs)
    (hcount : ∀ k, heap.ReachedFrom (heap'.ReachedInTheEnd start rs) k → more.count k = counted.count k) :
    heap.LosesUnreached heap' start more records rs :=
  { ht with
    kept := fun h c hr hc => by
      obtain ⟨d, hd, hlasts, hcounted, hcontent⟩ := ht.kept h c hr hc
      exact ⟨d, hd, hlasts, hcount h hr ▸ hcounted, hcontent⟩ }

theorem bases {p : Handle} (ht : heap.LosesUnreached heap' start counted records rs)
    (hp : heap'.ReachedInTheEnd start rs p) : heap.ReachedInTheEnd start records p :=
  hp.imp_right (Or.imp (ht.held p) fun hr => ht.order.subset hr)

theorem trans (hfirst : heap.LosesUnreached mid start counted records ms)
    (hlast : mid.LosesUnreached heap' start more ms rs) :
    heap.LosesUnreached heap' start (counted ++ more) records rs := by
  have hbases : ∀ p, heap'.ReachedInTheEnd start rs p → mid.ReachedInTheEnd start ms p := fun p => hlast.bases
  have hreached : ∀ {k}, heap.ReachedFrom (heap'.ReachedInTheEnd start rs) k →
      mid.ReachedFrom (heap'.ReachedInTheEnd start rs) k :=
    fun hr => Carries.reached (fun h c hr => hfirst.carries h c (hr.mono hbases)) hr
  have hwiden : ∀ {k}, heap.MayDie (mid.ReachedInTheEnd start ms) k → heap.MayDie (heap'.ReachedInTheEnd start rs) k :=
    Or.imp_left fun hout hr => hout (hr.mono hbases)
  -- what may die in between could not be reached before either, or it had the name already
  have hmayDie : ∀ {k}, mid.MayDie (heap'.ReachedInTheEnd start rs) k →
      heap.MayDie (heap'.ReachedInTheEnd start rs) k := by
    rintro k (hout | ⟨d, hd, hname⟩)
    · exact .inl fun hr => hout (hreached hr)
    · by_cases hr : heap.ReachedFrom (heap'.ReachedInTheEnd start rs) k
      · obtain ⟨c, hc⟩ := hr.live
        obtain ⟨e, he, hlasts⟩ := hfirst.carries k c (hr.mono hbases) hc
        rw [hd, Option.some.injEq] at he
        exact .inr ⟨c, hc, hlasts.isName (he ▸ hname)⟩
      · exact .inl hr
  -- what a record of the middle chain watches over, it watched over before
  have hback : ∀ {r g}, r ∈ ms → mid.fieldsOf r = some g →
      ∃ f, heap.fieldsOf r = some f ∧ f.finalizer = g.finalizer ∧ f.key = g.key := by
    intro r g hr hg
    obtain ⟨-, f, -, -, hf⟩ := hfirst.before.live (hfirst.order.subset hr)
    obtain ⟨g', hg', hsame⟩ := hfirst.watched hr hf
    rw [hg, Option.some.injEq] at hg'
    subst hg'
    simp only [WeakFields.watched, List.cons.injEq, and_true] at hsame
    exact ⟨f, hf, hsame.2.2.symm, hsame.1.symm⟩
  have hready : ∀ {r f}, r ∈ ms → heap.fieldsOf r = some f →
      mid.arena.Ready r ∨ mid.MayDie (heap'.ReachedInTheEnd start rs) f.key →
      heap.arena.Ready r ∨ heap.MayDie (heap'.ReachedInTheEnd start rs) f.key := by
    rintro r f hr hf (hmid | hfade)
    · refine (hfirst.ready r hr hmid).imp_right ?_
      rintro ⟨f', hf', hfade⟩
      obtain rfl := Option.some.inj (hf.symm.trans hf')
      exact hwiden hfade
    · exact .inr (hmayDie hfade)
  refine ⟨hfirst.before, hlast.chain, hlast.order.trans hfirst.order,
    fun p hp => hfirst.held p (hlast.held p hp), fun h c hr hc => ?_, fun r hr hout => ?_,
    fun r hr hready' => ?_⟩
  · obtain ⟨d, hd, hcd, hcount, hcontent⟩ := hfirst.kept h c (hr.mono hbases) hc
    obtain ⟨e, he, hde, hcount', hcontent'⟩ := hlast.kept h d (hreached hr) hd
    refine ⟨e, he, hcd.trans hde, ?_, fun hstays => ?_⟩
    · rw [hcount', hcount, List.count_append, Nat.add_comm, Function.iterate_add_apply]
    · have hmid : h ∈ records → h ∈ ms := fun hmem => hlast.order.subset (hstays hmem)
      exact (hcontent' fun hmem => hstays (hfirst.order.subset hmem)).trans (hcontent hmid)
  · by_cases hms : r ∈ ms
    · obtain ⟨g, hg, hnil, hcause⟩ := hlast.lost r hms hout
      obtain ⟨f, hf, hfinalizer, hkey⟩ := hback hms hg
      exact ⟨f, hf, hfinalizer.trans hnil, hready hms hf (hkey ▸ hcause)⟩
    · obtain ⟨f, hf, hnil, hcause⟩ := hfirst.lost r hr hms
      exact ⟨f, hf, hnil, hcause.imp_right hwiden⟩
  · have hms := hlast.order.subset hr
    rcases hlast.ready r hr hready' with hmid | ⟨g, hg, hfade⟩
    · refine (hfirst.ready r hms hmid).imp_right ?_
      rintro ⟨f, hf, hfade⟩
      exact ⟨f, hf, hwiden hfade⟩
    · obtain ⟨f, hf, -, hkey⟩ := hback hms hg
      exact .inr ⟨f, hf, hmayDie (hkey ▸ hfade)⟩

theorem redraw (ht : heap.LosesUnreached mid start counted records rs) (hchain : heap'.Chain rs)
    (htasks : heap'.tasks = mid.tasks)
    (hgraph : ∀ k c, heap.ReachedFrom (heap'.ReachedInTheEnd start rs) k → mid.graph k = some c →
      ∃ d, heap'.graph k = some d ∧ c.Recounts (more.count k) d) :
    heap.LosesUnreached heap' start (counted ++ more) records rs := by
  have hbases : mid.ReachedInTheEnd start rs = heap'.ReachedInTheEnd start rs := (bases_congr htasks).symm
  have hkept := ht.kept
  have hlost := ht.lost
  have hready := ht.ready
  rw [hbases] at hkept hlost hready
  refine ⟨ht.before, hchain, ht.order, fun p hp => ht.held p (htasks ▸ hp), fun h c hr hc => ?_,
    hlost, fun r hr hready' => hready r hr ?_⟩
  · obtain ⟨d, hd, hlasts, hcount, hcontent⟩ := hkept h c hr hc
    obtain ⟨_, hlook, hrecounts⟩ := hgraph h _ hr (graph_of_get? hd)
    obtain ⟨e, he, rfl⟩ := graph_eq_some.mp hlook
    have hsame : e.content = d.content := by
      rw [← Cell.content_seen e, ← Cell.content_seen d]
      exact hrecounts.content
    refine ⟨e, he, hlasts.trans (.of_content hsame), ?_, fun hstays => hsame.trans (hcontent hstays)⟩
    rw [show e.header.refcount = RefCount.increment^[more.count h] d.header.refcount from
      hrecounts.refcount, hcount, List.count_append, Nat.add_comm, Function.iterate_add_apply]
  · obtain ⟨c, -, hc, -⟩ := ht.before.live (ht.order.subset hr)
    have hreached : heap.ReachedFrom (heap'.ReachedInTheEnd start rs) r := .start (.inr (.inr hr)) hc
    obtain ⟨d, hd, -⟩ := hkept r c hreached hc
    obtain ⟨_, hlook, hrecounts⟩ := hgraph r _ hreached (graph_of_get? hd)
    obtain ⟨e, he, rfl⟩ := graph_eq_some.mp hlook
    obtain ⟨e', he', hflag⟩ := hready'
    rw [he, Option.some.injEq] at he'
    subst he'
    exact ⟨d, hd, (hrecounts.ready : e.flags.readyToFinalize = _).symm.trans hflag⟩

theorem of_redrawn (hc : heap.Chain records) (hr : heap.Redrawn heap' heap.graph) :
    heap.LosesUnreached heap' start [] records records :=
  (refl hc).redraw ((Preserves.of_redrawn hr).chain hc) (congrArg Control.tasks hr.control)
    fun _ c _ hget => ⟨c, hr.graph ▸ hget, .refl c⟩

theorem aside (hc : heap.Chain records) (harena : heap'.arena = heap.arena)
    (hweak : heap'.weak = heap.weak) (htasks : heap'.tasks = heap.tasks) :
    heap.LosesUnreached heap' start [] records records := by
  refine (refl hc).redraw (hc.aside harena hweak) htasks fun _ c _ hget => ⟨c, ?_, .refl c⟩
  rw [graph, harena]
  exact hget

theorem between {opened closed : Heap} (hc : heap.Chain records)
    (ht : opened.LosesUnreached closed start counted records rs)
    (hopen : (opened.arena, opened.weak, opened.tasks) = (heap.arena, heap.weak, heap.tasks))
    (hclose : (heap'.arena, heap'.weak, heap'.tasks) = (closed.arena, closed.weak, closed.tasks)) :
    heap.LosesUnreached heap' start counted records rs := by
  simp only [Prod.mk.injEq] at hopen hclose
  have hfirst : heap.LosesUnreached closed start ([] ++ counted) records rs :=
    (aside hc hopen.1 hopen.2.1 hopen.2.2).trans ht
  have hlast := hfirst.trans (aside ht.chain hclose.1 hclose.2.1 hclose.2.2)
  rwa [List.nil_append, List.append_nil] at hlast

theorem gains {kind : Kind} {length : Nat} (ht : heap.LosesUnreached mid start counted records rs)
    (hgains : mid.Gains heap' kind length h) :
    heap.LosesUnreached heap' start counted records rs ∧ ¬ heap.ReachedFrom (heap'.ReachedInTheEnd start rs) h := by
  have htasks : heap'.tasks = mid.tasks := congrArg Control.tasks hgains.control
  have hbases : heap'.ReachedInTheEnd start rs = mid.ReachedInTheEnd start rs := bases_congr htasks
  have hne : ∀ {k}, mid.graph k ≠ none → k ≠ h := by
    rintro k hk rfl
    exact hk hgains.dead
  obtain ⟨payload, -, hgraph⟩ := hgains.graph
  refine ⟨List.append_nil counted ▸ ht.redraw ((Preserves.of_gains hgains).chain ht.chain) htasks
    fun k c _ hget => ⟨c, ?_, .refl c⟩, fun hr => ?_⟩
  · rw [hgraph, Graph.add_ne (hne (by simp [hget])), hget]
  · rw [hbases] at hr
    obtain ⟨c, hc⟩ := hr.live
    obtain ⟨d, hd, -⟩ := ht.kept h c hr hc
    exact hne (by simp [graph_of_get? hd]) rfl

theorem fill {slots : List Handle} {f : Cell → Cell} {c : Cell}
    (ht : heap.LosesUnreached mid start counted records rs)
    (hout : ¬ heap.ReachedFrom (heap'.ReachedInTheEnd start rs) h) (hcontrol : heap'.control = mid.control)
    (hgraph : heap'.graph = slots.foldl Graph.count (mid.graph.edit h f))
    (hc : mid.graph h = some c) (hbefore : c.payload.fields? = none)
    (hafter : (f c).payload.fields? = none) :
    heap.LosesUnreached heap' start (counted ++ slots) records rs := by
  have hfields : heap'.fieldsOf = mid.fieldsOf := by
    funext k
    rw [fieldsOf_graph, fieldsOf_graph, hgraph, Graph.fieldsOf_countAll]
    by_cases hk : k = h
    · subst hk
      rw [Graph.fieldsOf_edit_self hc, hafter, Graph.fieldsOf, hc, Option.bind_some, hbefore]
    · exact Graph.fieldsOf_edit_ne hk
  refine ht.redraw (ht.chain.congr (congrArg Control.weak hcontrol) (fun r _ => by rw [hfields])
    fun hf hr => ht.chain.loose (hfields ▸ hf) hr) (congrArg Control.tasks hcontrol) ?_
  intro k d hr hd
  have hk : k ≠ h := fun he => hout (he ▸ hr)
  rw [hgraph]
  exact Graph.recounts_countAll ((Graph.edit_ne hk).trans hd)

end LosesUnreached

end Heap

open Heap in
theorem Collected.losesUnreached {level : Level} {records rs : List Handle} {heap heap' : Heap} {o : Outcome}
    {start : Handle → Prop} (hcol : Collected level rs heap heap' o) (hs : heap.Sound)
    (hc : heap.Chain records) (hstart : ∀ p, start p → heap.Rooted p) :
    heap.LosesUnreached heap' start [] records records := by
  obtain rfl : records = rs := Except.ok.inj (hc.listed.symm.trans hcol.chain)
  have htasks : heap'.tasks = heap.quietTasks level := congrArg Control.tasks hcol.control
  have hroot : ∀ p, heap'.ReachedInTheEnd start records p → heap.Root (heap.quietTasks level) p := by
    rintro p (hp | hp | hp)
    · rcases hstart p hp with (hroots | hslots) | hsymbol
      · exact .inl hroots
      · exact .inr (.inl hslots)
      · exact .inr (.inr (.inl hsymbol))
    · exact .inr (.inr (.inr (.inl (htasks ▸ hp))))
    · exact .inr (.inr (.inr (.inr ⟨records, hcol.chain, hp⟩)))
  refine ⟨hc, hcol.collects.chain hc, .refl _, fun p hp => ?_,
    fun h c hr hget => ?_, fun r hr hout => absurd hr hout, fun r hr hready => ?_⟩
  · rw [htasks, held_quietTasks] at hp
    exact List.mem_of_mem_filter hp
  · obtain ⟨c', hc', hsaves⟩ :=
      (heap.closedUnderMarking_lingers level records).saves_reached hs hcol.chain (hr.mono hroot)
    rw [hget, Option.some.injEq] at hc'
    subst hc'
    obtain ⟨d, hd⟩ := hcol.stayed hget (keeps_of_saves hsaves)
    have hlasting := (hcol.same hget hd).lasting
    have hcontent := Cell.content_of_lasting hlasting
    exact ⟨d, hd, .of_content hcontent, Cell.refcount_of_lasting hlasting, fun _ => hcontent⟩
  · obtain ⟨d, hd, hflag⟩ := hready
    rcases (hcol.ready hd).mp hflag with hold | ⟨-, hold | ⟨f, hf, hdead⟩⟩
    · exact .inl hold
    · exact .inl hold
    · refine .inr ⟨f, fieldsOf_eq_some.mpr hf, ?_⟩
      by_contra hnot
      obtain ⟨hreached, hname⟩ := not_or.mp hnot
      obtain ⟨c, hget, hsaves⟩ := (heap.closedUnderMarking_retains level records).saves_reached hs hcol.chain
        ((not_not.mp hreached).mono hroot)
      rcases hsaves with hout | hretained | ⟨-, hisName⟩
      · refine hdead (.inr ⟨c, hget, ?_⟩)
        by_contra hcovered
        have hswept := (Scan.sweeps_iff (s := heap.scan level) (Arena.get?_eq_some.mp hget).2).mpr
          (by simpa using hcovered)
        exact absurd (hout.symm.trans hswept) Bool.false_ne_true
      · exact hdead (.inl hretained)
      · exact hname ⟨c, hget, hisName⟩

namespace HeapM

variable {heap heap' : Heap} {record hint h : Handle} {u : PUnit}

theorem get?_unlinkWeakRef {c : Cell} (hc : heap.arena.get? h = some c)
    (hrun : (unlinkWeakRef record hint).run heap = .ok (u, heap')) :
    ∃ d, heap'.arena.get? h = some d ∧ d.header.refcount = c.header.refcount ∧
      (h = record → d.content = c.emptied.content) ∧
      (h ≠ record → d.content = c.content ∧ d.flags.readyToFinalize = c.flags.readyToFinalize) := by
  obtain ⟨fields, previous, -, -, -, hgraph⟩ := run_unlinkWeakRef hrun
  -- leading the chain past the record changes a link at most
  have hrelink : ∃ d, (if previous.isNil then heap.graph
      else heap.graph.edit previous (Cell.relinked fields.next)) h = some d ∧
        d.content = c.content ∧ d.header.refcount = c.header.refcount ∧
        d.flags.readyToFinalize = c.flags.readyToFinalize := by
    split
    · exact ⟨c.seen, Heap.graph_of_get? hc, Cell.content_seen c, rfl, rfl⟩
    · by_cases hh : h = previous
      · subst hh
        refine ⟨_, Graph.edit_self (Heap.graph_of_get? hc), ?_,
          Cell.refcount_relinked fields.next c.seen, ?_⟩
        · rw [Cell.content_seen, Cell.content_relinked, Cell.content_seen]
        · rw [Cell.relinked_eq]
          rfl
      · exact ⟨c.seen, (Graph.edit_ne hh).trans (Heap.graph_of_get? hc), Cell.content_seen c, rfl, rfl⟩
  obtain ⟨d, hd, hcontent, hcount, hready⟩ := hrelink
  by_cases hh : h = record
  · subst hh
    obtain ⟨e, he, hed⟩ := Heap.graph_eq_some.mp (hgraph ▸ Graph.edit_self (f := Cell.emptied) hd)
    refine ⟨e, he, (congrArg (fun c : Cell => c.header.refcount) hed).trans hcount, fun _ => ?_,
      fun hne => absurd rfl hne⟩
    rw [← Cell.content_seen e, hed, Cell.content_seen]
    exact Cell.Lasts.emptied_of_content hcontent
  · obtain ⟨e, he, hed⟩ :=
      Heap.graph_eq_some.mp (hgraph ▸ (Graph.edit_ne (f := Cell.emptied) hh).trans hd)
    refine ⟨e, he, (congrArg (fun c : Cell => c.header.refcount) hed).trans hcount,
      fun hsame => absurd hsame hh, fun _ => ⟨?_, ?_⟩⟩
    · rw [← Cell.content_seen e, hed, hcontent]
    · exact (congrArg (fun c : Cell => c.flags.readyToFinalize) hed).trans hready

theorem losesUnreached_unlinkWeakRef {start : Handle → Prop} {records : List Handle}
    {key value next : Handle} (hc : heap.Chain records) (hne : record ≠ .nil)
    (hfields : heap.arena.Record record ⟨key, value, .nil, next⟩) (hready : heap.arena.Ready record)
    (hrun : (unlinkWeakRef record hint).run heap = .ok (u, heap')) :
    heap.LosesUnreached heap' start [] records (records.erase record) := by
  have hf := Heap.fieldsOf_eq_some.mpr hfields
  have hcontrol : heap'.tasks = heap.tasks := by
    obtain ⟨_, _, -, -, hcontrol, -⟩ := run_unlinkWeakRef hrun
    exact congrArg Control.tasks hcontrol
  obtain ⟨htakesOffChain, -⟩ := takesOffChain_unlinkWeakRef hne hf hready hrun
  obtain ⟨hmem, hchain⟩ := htakesOffChain.chain hc
  have herase : ∀ {r}, r ∈ records.erase record ↔ r ≠ record ∧ r ∈ records :=
    hc.once.mem_erase_iff
  refine ⟨hc, hchain, List.erase_sublist, fun p hp => hcontrol ▸ hp, fun h c _ hget => ?_,
    fun r hr hout => ?_, fun r hr hready' => ?_⟩
  · obtain ⟨d, hd, hcount, hself, hother⟩ := get?_unlinkWeakRef hget hrun
    refine ⟨d, hd, ?_, hcount, fun hstays => (hother ?_).1⟩
    · by_cases hh : h = record
      · subst hh
        obtain ⟨e, he, hp⟩ := hfields
        rw [hget, Option.some.injEq] at he
        subst he
        exact .inr ⟨key, value, next, hp, hself rfl⟩
      · exact .of_content (hother hh).1
    · rintro rfl
      exact (herase.mp (hstays hmem)).1 rfl
  · obtain rfl : r = record := by
      by_contra hrne
      exact hout (herase.mpr ⟨hrne, hr⟩)
    exact ⟨_, hf, rfl, .inl hready⟩
  · obtain ⟨hrne, hr⟩ := herase.mp hr
    obtain ⟨c, -, hget, -⟩ := hc.live hr
    obtain ⟨d, hd, -, -, hother⟩ := get?_unlinkWeakRef hget hrun
    obtain ⟨e, he, hflag⟩ := hready'
    rw [hd, Option.some.injEq] at he
    subst he
    exact .inl ⟨c, hget, (hother hrne).2.symm.trans hflag⟩

end HeapM

end ManagedHeap
