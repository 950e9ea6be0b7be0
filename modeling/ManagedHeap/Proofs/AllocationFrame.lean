import ManagedHeap.Proofs.ReachedObjects
import ManagedHeap.Proofs.GraphAdditions

/-!
# What outlives an allocation

A computation that runs no finalizer leaves what its arguments reach as it is. A collection
inside it takes nothing that can be reached from what the computation keeps alive for itself,
and the last resort of an allocation at most clears weak records that have no finalizer.
-/

namespace ManagedHeap

/-- The payload without the link of a weak record to the next one. -/
def Payload.unchained : Payload → Payload
  | .weakRef key value finalizer _ => .weakRef key value finalizer .nil
  | p => p

/-- What an object is: its kind, its class bits, its attribute and its slots. References to
it are not counted here, nor where it stands on the chain of weak records. -/
def Cell.content (c : Cell) : Cell :=
  { header :=
      { c.header with
        generation := .young
        refcount := .zero
        flags := { c.flags.shown with readyToFinalize := false } }
    attrib := c.attached
    payload := c.payload.forgetting.unchained }

/-- The object is still what it was, unless it is a weak record without a finalizer: such a
record may have been taken off the chain and cleared. -/
def Cell.Lasts (c d : Cell) : Prop :=
  d.content = c.content ∨
    ∃ key value next, c.payload = .weakRef key value .nil next ∧ d.content = c.emptied.content

def Payload.Plain (p : Payload) : Prop :=
  (∀ name value internal lastEnv, p ≠ .symbol name value internal lastEnv) ∧
    ∀ key value finalizer next, p ≠ .weakRef key value finalizer next

theorem Payload.suits_plain {p : Payload} {kind : Kind} (hp : p.suits kind = true)
    (hsymbol : kind ≠ .symbol) (hweak : kind ≠ .weakRef) : p.Plain := by
  refine ⟨?_, ?_⟩
  · rintro name value internal lastEnv rfl
    cases kind <;> simp_all [suits]
  · rintro key value finalizer next rfl
    cases kind <;> simp_all [suits]

namespace Cell

variable {c d e : Cell}

theorem content_seen (c : Cell) : c.seen.content = c.content := by
  have hattached := attached_seen c
  change Cell.mk _ _ _ = Cell.mk _ _ _
  rw [hattached]
  exact congrArg (fun p : Payload => Cell.mk c.content.header c.attached p.unchained)
    (payload_forgetting_forgetting c.payload)

theorem content_of_unready (he : d.unready = c.unready) : d.content = c.content :=
  (congrArg content he :)

theorem content_of_lasting (he : d.lasting = c.lasting) : d.content = c.content := by
  rw [← content_seen d, ← content_seen c]
  exact content_of_unready he

theorem content_relinked (next : Handle) (c : Cell) : (c.relinked next).content = c.content := by
  obtain ⟨header, attrib, payload⟩ := c
  cases payload <;> rfl

theorem refcount_relinked (next : Handle) (c : Cell) :
    (c.relinked next).header.refcount = c.header.refcount := by
  obtain ⟨header, attrib, payload⟩ := c
  cases payload <;> rfl

theorem kind_of_content (he : d.content = c.content) : d.kind = c.kind :=
  (congrArg (fun c : Cell => c.header.kind) he :)

theorem permanent_of_content (he : d.content = c.content) :
    d.flags.permanent = c.flags.permanent :=
  (congrArg (fun c : Cell => c.header.flags.permanent) he :)

theorem cached_of_content (he : d.content = c.content) : d.flags.cached = c.flags.cached :=
  (congrArg (fun c : Cell => c.header.flags.cached) he :)

theorem edges_content (c : Cell) (withNames : Bool) :
    c.content.edges withNames = c.edges withNames := by
  have hcached : c.content.flags.cached = c.flags.cached := rfl
  have hchildren : c.content.payload.children withNames = c.payload.children withNames := by
    change (c.payload.forgetting.unchained).children withNames = _
    cases c.payload <;> rfl
  unfold edges
  rw [hcached, hchildren]
  split
  · rfl
  · rename_i huncached
    rw [show c.content.attrib = c.attrib from if_neg huncached]

theorem mem_edges_of_children {k : Handle} (hk : k ∈ c.payload.children true) :
    k ∈ c.edges true := by
  unfold edges
  split
  · exact hk
  · exact List.mem_cons_of_mem _ hk

theorem payload_of_content (he : d.content = c.content)
    (hp : ∀ key value finalizer next, c.payload ≠ .weakRef key value finalizer next) :
    d.payload.forgetting = c.payload.forgetting := by
  have hpayload : d.payload.forgetting.unchained = c.payload.forgetting.unchained :=
    congrArg Cell.payload he
  cases hc : c.payload
  case weakRef => exact absurd hc (hp _ _ _ _)
  all_goals
    rw [hc] at hpayload
    cases hd : d.payload <;> simp_all [Payload.forgetting, Payload.unchained]

theorem attached_of_content (he : d.content = c.content) : d.attached = c.attached :=
  (congrArg Cell.attrib he :)

theorem object_of_content (he : d.content = c.content) : d.flags.object = c.flags.object :=
  (congrArg (fun c : Cell => c.header.flags.object) he :)

theorem s4Object_of_content (he : d.content = c.content) : d.flags.s4Object = c.flags.s4Object :=
  (congrArg (fun c : Cell => c.header.flags.s4Object) he :)

theorem payload_of_plain (he : d.content = c.content) (hp : c.payload.Plain) :
    d.payload = c.payload := by
  have hforget := payload_of_content he hp.2
  obtain ⟨hsymbol, -⟩ := hp
  cases hc : c.payload
  case symbol => exact absurd hc (hsymbol _ _ _ _)
  all_goals
    rw [hc] at hforget
    cases hd : d.payload <;> simp_all [Payload.forgetting]

namespace Lasts

theorem refl (c : Cell) : c.Lasts c := .inl rfl

theorem of_content (he : d.content = c.content) : c.Lasts d := .inl he

theorem emptied_of_content (he : d.content = c.content) :
    d.emptied.content = c.emptied.content := by
  have hheader : d.content.header = c.content.header := congrArg Cell.header he
  have hattached : d.attached = c.attached := (congrArg Cell.attrib he :)
  change Cell.mk { d.content.header with flags :=
      { d.content.header.flags with readyToFinalize := false, finalizeOnExit := false } } d.attached _ =
    Cell.mk { c.content.header with flags :=
      { c.content.header.flags with readyToFinalize := false, finalizeOnExit := false } } c.attached _
  rw [hheader, hattached]
  rfl

theorem trans (hcd : c.Lasts d) (hde : d.Lasts e) : c.Lasts e := by
  rcases hde with he | ⟨key, value, next, hp, he⟩
  · rcases hcd with hd | ⟨key, value, next, hp, hd⟩
    · exact .inl (he.trans hd)
    · exact .inr ⟨key, value, next, hp, he.trans hd⟩
  · right
    rcases hcd with hd | ⟨key', value', next', hp', hd⟩
    · have hpayload : d.payload.forgetting.unchained = c.payload.forgetting.unchained :=
        congrArg Cell.payload hd
      rw [hp] at hpayload
      have heq := he.trans (emptied_of_content hd)
      cases hc : c.payload <;>
        simp_all [Payload.forgetting, Payload.unchained]
    · refine ⟨key', value', next', hp', he.trans ((emptied_of_content hd).trans ?_)⟩
      rfl

theorem edges (hcd : c.Lasts d) (withNames : Bool) : d.edges withNames = c.edges withNames := by
  rw [← edges_content d, ← edges_content c]
  rcases hcd with hd | ⟨key, value, next, hp, hd⟩
  · rw [hd]
  · rw [hd, edges_content, edges_content]
    unfold Cell.edges
    rw [hp]
    rfl

theorem permanent (hcd : c.Lasts d) : d.flags.permanent = c.flags.permanent := by
  rcases hcd with hd | ⟨_, _, _, _, hd⟩
  · exact permanent_of_content hd
  · exact (permanent_of_content hd).trans rfl

theorem kind (hl : c.Lasts d) : d.kind = c.kind := by
  rcases hl with he | ⟨_, _, _, _, he⟩
  · exact kind_of_content he
  · exact (kind_of_content he).trans rfl

theorem cached (hl : c.Lasts d) : d.flags.cached = c.flags.cached := by
  rcases hl with he | ⟨_, _, _, _, he⟩
  · exact cached_of_content he
  · exact (cached_of_content he).trans rfl

theorem content (hl : c.Lasts d) (hp : c.payload.Plain) : d.content = c.content :=
  hl.resolve_right fun ⟨_, _, _, hweak, _⟩ => hp.2 _ _ _ _ hweak

end Lasts

end Cell

def Graph.Agrees (E : Handle → Prop) (g g' : Graph) : Prop :=
  ∀ h c, ¬ E h → g h = some c → ∃ d, g' h = some d ∧ d.content = c.content

namespace Graph.Agrees

variable {E : Handle → Prop} {g g' g'' : Graph} {h old new : Handle} {f : Cell → Cell}

theorem refl : Agrees E g g := fun _ c _ hc => ⟨c, hc, rfl⟩

theorem trans (hg : Agrees E g g') (hg' : Agrees E g' g'') : Agrees E g g'' := by
  intro h c hh hc
  obtain ⟨d, hd, hdc⟩ := hg h c hh hc
  obtain ⟨e, he, hed⟩ := hg' h d hh hd
  exact ⟨e, he, hed.trans hdc⟩

theorem mono {D : Handle → Prop} (hg : Agrees E g g')
    (hsub : ∀ h, E h → D h) : Agrees D g g' :=
  fun h c hh hc => hg h c (fun he => hh (hsub h he)) hc

theorem edit (hh : E h) : Agrees E g (g.edit h f) := by
  intro k c hk hc
  have hne : k ≠ h := fun e => hk (e ▸ hh)
  exact ⟨c, (Graph.edit_ne hne).trans hc, rfl⟩

theorem edit_content (hf : ∀ c, (f c).content = c.content) : Agrees E g (g.edit h f) := by
  intro k c _ hc
  by_cases hk : k = h
  · subst hk
    exact ⟨_, Graph.edit_self hc, (Cell.content_seen _).trans (hf c)⟩
  · exact ⟨c, (Graph.edit_ne hk).trans hc, rfl⟩

theorem count : Agrees E g (g.count h) := edit_content fun _ => rfl

theorem recount : Agrees E g (g.recount old new) := by
  unfold Graph.recount
  split
  · exact refl
  · exact count.trans (edit_content fun _ => rfl)

end Graph.Agrees

def Heap.Carries (heap heap' : Heap) (start : Handle → Prop) : Prop :=
  ∀ h c, heap.ReachedFrom start h → heap.arena.get? h = some c →
    ∃ d, heap'.arena.get? h = some d ∧ c.Lasts d

/-- The heap keeps the object alive by a root outside the symbol table and the tasks. -/
def Heap.Pins (heap : Heap) (h : Handle) : Prop :=
  h ∈ heap.roots.handles ∨ h ∈ heap.protect.slots.toList

namespace Heap

variable {heap mid heap' : Heap} {start start' : Handle → Prop} {h : Handle}

namespace Carries

theorem refl (heap : Heap) (start : Handle → Prop) : heap.Carries heap start :=
  fun _ c _ hc => ⟨c, hc, .refl c⟩

theorem reached (hcarries : heap.Carries heap' start) (hr : heap.ReachedFrom start h) :
    heap'.ReachedFrom start h := by
  induction hr with
  | start hs hc =>
    obtain ⟨d, hd, -⟩ := hcarries _ _ (.start hs hc) hc
    exact .start hs hd
  | edge hr hc hperm hk hd ih =>
    obtain ⟨c', hc', hlasts⟩ := hcarries _ _ hr hc
    obtain ⟨d', hd', -⟩ := hcarries _ _ (.edge hr hc hperm hk hd) hd
    exact .edge ih hc' (hlasts.permanent.trans hperm) (by rwa [hlasts.edges]) hd'

theorem reached_back (hcarries : heap.Carries heap' start) (hs : heap.Sound)
    (hlive : ∀ k, start k → ∃ c, heap.arena.get? k = some c) (hr : heap'.ReachedFrom start h) :
    heap.ReachedFrom start h := by
  induction hr with
  | start hstart _ =>
    obtain ⟨c, hc⟩ := hlive _ hstart
    exact .start hstart hc
  | edge _ hd hperm hk _ ih =>
    obtain ⟨c, hc⟩ := ih.live
    obtain ⟨d, hd', hlasts⟩ := hcarries _ _ ih hc
    rw [hd, Option.some.injEq] at hd'
    subst hd'
    rw [hlasts.edges] at hk
    have hperm' : c.flags.permanent = false := hlasts.permanent.symm.trans hperm
    obtain ⟨e, he⟩ := hs.closed hc hperm' hk
    exact .edge ih hc hperm' hk he

theorem trans (hfirst : heap.Carries mid start) (hlast : mid.Carries heap' start) :
    heap.Carries heap' start := by
  intro h c hr hc
  obtain ⟨d, hd, hcd⟩ := hfirst h c hr hc
  obtain ⟨e, he, hde⟩ := hlast h d (hfirst.reached hr) hd
  exact ⟨e, he, hcd.trans hde⟩

theorem before {E : Handle → Prop} (hcarries : heap.Carries mid start)
    (hg : Graph.Agrees E mid.graph heap'.graph)
    (hout : ∀ k, E k → ¬ heap.ReachedFrom start k) : heap.Carries heap' start := by
  intro h c hr hc
  obtain ⟨d, hd, hlasts⟩ := hcarries h c hr hc
  obtain ⟨e, he, hed⟩ := hg h d.seen (fun hh => hout h hh hr) (graph_of_get? hd)
  obtain ⟨f, hf, rfl⟩ := graph_eq_some.mp he
  refine ⟨f, hf, hlasts.trans (.of_content ?_)⟩
  rw [← Cell.content_seen f, hed, Cell.content_seen]

theorem of_agrees {E : Handle → Prop} (hg : Graph.Agrees E heap.graph heap'.graph)
    (hout : ∀ k, E k → ¬ heap.ReachedFrom start k) : heap.Carries heap' start :=
  (refl heap start).before hg hout

theorem agreeing (hg : Graph.Agrees (fun _ => False) heap.graph heap'.graph) :
    heap.Carries heap' start := .of_agrees hg fun _ hno => hno.elim

theorem beside (hg : heap'.graph = heap.graph) : heap.Carries heap' start :=
  agreeing (hg ▸ .refl)

end Carries

/-- The heap keeps the object alive by itself, whatever tasks and weak records there are. -/
def Rooted (heap : Heap) (h : Handle) : Prop := heap.Pins h ∨ h ∈ heap.symbols.handles

/-- What a call that was given `kept` keeps alive. -/
def RootedOr (heap : Heap) (kept : List Handle) (p : Handle) : Prop := heap.Rooted p ∨ p ∈ kept

def Conserves (heap heap' : Heap) (start : Handle → Prop) : Prop :=
  ∀ h c, heap.ReachedFrom start h → heap.arena.get? h = some c →
    ∃ d, heap'.arena.get? h = some d ∧ c.Lasts d ∧ d.header.refcount = c.header.refcount

namespace Conserves

theorem carries (hc : heap.Conserves heap' start) : heap.Carries heap' start := by
  intro h c hr hget
  obtain ⟨d, hd, hlasts, -⟩ := hc h c hr hget
  exact ⟨d, hd, hlasts⟩

theorem refl (heap : Heap) (start : Handle → Prop) : heap.Conserves heap start :=
  fun _ c _ hc => ⟨c, hc, .refl c, rfl⟩

theorem trans (hfirst : heap.Conserves mid start) (hlast : mid.Conserves heap' start) :
    heap.Conserves heap' start := by
  intro h c hr hc
  obtain ⟨d, hd, hcd, hcount⟩ := hfirst h c hr hc
  obtain ⟨e, he, hde, hcount'⟩ := hlast h d (hfirst.carries.reached hr) hd
  exact ⟨e, he, hcd.trans hde, hcount'.trans hcount⟩

theorem of_graph (hg : ∀ h c, heap.graph h = some c → heap'.graph h = some c) :
    heap.Conserves heap' start := by
  intro h c _ hc
  obtain ⟨d, hd, hseen⟩ := graph_eq_some.mp (hg h _ (graph_of_get? hc))
  refine ⟨d, hd, .of_content ?_, (congrArg (fun c : Cell => c.header.refcount) hseen :)⟩
  rw [← Cell.content_seen d, hseen, Cell.content_seen]

theorem beside (hg : heap'.graph = heap.graph) : heap.Conserves heap' start :=
  of_graph fun _ _ hc => hg ▸ hc

end Conserves

end Heap

end ManagedHeap
