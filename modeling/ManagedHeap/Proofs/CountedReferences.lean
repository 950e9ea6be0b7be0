import ManagedHeap.Proofs.QuietComputations

/-!
# References that are counted

A write that puts references into empty slots of an object and counts them leaves every other
object as it is, but for its count. What can be reached can still be reached. The setters are
such writes where the slot is empty, and so is filling a new object.
-/

namespace ManagedHeap

/-- The object is one that was made with this payload, and has no attribute. -/
def Heap.Shows (heap : Heap) (h : Handle) (kind : Kind) (payload : Payload) : Prop :=
  ∃ d, heap.arena.get? h = some d ∧ d.content = (Cell.blank kind payload).content

/-- A change of an object that puts `news` into slots that held nothing. -/
structure Cell.Takes (c d : Cell) (news : List Handle) : Prop where
  permanent : d.flags.permanent = c.flags.permanent
  kind : d.kind = c.kind
  cached : d.flags.cached = c.flags.cached
  edges : ∀ k, k ≠ .nil → (d.edges true).count k = (c.edges true).count k + news.count k

/-- One object is changed by `f` and takes `news`, which are counted. -/
structure Heap.Refers (heap heap' : Heap) (t : Handle) (f : Cell → Cell) (news : List Handle) :
    Prop where
  control : heap'.control = heap.control
  lives : ∃ es, heap.Lives es heap'
  takes : ∀ c, heap.arena.get? t = some c → c.Takes (f c) news
  counts : ∀ k c, heap.arena.get? k = some c → ∃ d, heap'.arena.get? k = some d ∧
    d.content = (if k = t then f c else c).content ∧
    (k ≠ .nil → d.header.refcount = RefCount.increment^[news.count k] c.header.refcount)

theorem Cell.Takes.mem {c d : Cell} {news : List Handle} {k : Handle} (ht : c.Takes d news)
    (hk : k ≠ .nil) : k ∈ d.edges true ↔ k ∈ c.edges true ∨ k ∈ news := by
  rw [← List.count_pos_iff, ht.edges k hk, ← List.count_pos_iff, ← List.count_pos_iff]
  omega

namespace Heap

variable {heap heap' : Heap} {start : Handle → Prop} {t k : Handle} {c : Cell} {f : Cell → Cell}
  {news : List Handle}

namespace Refers

theorem other (hr : heap.Refers heap' t f news) (hk : k ≠ t) (hc : heap.arena.get? k = some c) :
    ∃ d, heap'.arena.get? k = some d ∧ d.content = c.content := by
  obtain ⟨d, hd, hsame, -⟩ := hr.counts k c hc
  exact ⟨d, hd, by rw [hsame, if_neg hk]⟩

theorem self (hr : heap.Refers heap' t f news) (hc : heap.arena.get? t = some c) :
    ∃ d, heap'.arena.get? t = some d ∧ d.content = (f c).content := by
  obtain ⟨d, hd, hsame, -⟩ := hr.counts t c hc
  exact ⟨d, hd, by rw [hsame, if_pos rfl]⟩

theorem takes_any (hr : heap.Refers heap' t f news) (hc : heap.arena.get? k = some c) :
    ∃ d, heap'.arena.get? k = some d ∧ c.Takes d (if k = t then news else []) := by
  by_cases hk : k = t
  · subst hk
    obtain ⟨d, hd, hsame⟩ := hr.self hc
    obtain ⟨hperm, hkind, hcached, hedges⟩ := hr.takes c hc
    have hlasts : (f c).Lasts d := .of_content hsame
    rw [if_pos rfl]
    exact ⟨d, hd, hlasts.permanent.trans hperm, hlasts.kind.trans hkind,
      hlasts.cached.trans hcached, fun k hk => by rw [hlasts.edges, hedges k hk]⟩
  · obtain ⟨d, hd, hsame⟩ := hr.other hk hc
    have hlasts : c.Lasts d := .of_content hsame
    rw [if_neg hk]
    exact ⟨d, hd, hlasts.permanent, hlasts.kind, hlasts.cached, fun k _ => by rw [hlasts.edges]; rfl⟩

theorem reached (hr : heap.Refers heap' t f news) (hs : heap.Sound) (hk : k ≠ .nil)
    (hreached : heap.ReachedFrom start k) : heap'.ReachedFrom start k := by
  induction hreached with
  | start hstart hc =>
    obtain ⟨d, hd, -⟩ := hr.takes_any hc
    exact .start hstart hd
  | edge _ hc hperm hedge hd ih =>
    obtain ⟨e, he, htakes⟩ := hr.takes_any hc
    obtain ⟨e', he', -⟩ := hr.takes_any hd
    exact .edge (ih (hs.ne_nil hc hperm)) he (htakes.permanent.trans hperm)
      ((htakes.mem hk).mpr (.inl hedge)) he'

end Refers

end Heap

/-- The change depends on what a program sees, and leaves the count of references. -/
structure Cell.Visible (f : Cell → Cell) : Prop where
  content : ∀ c d, d.content = c.content → (f d).content = (f c).content
  refcount : ∀ c, (f c).header.refcount = c.header.refcount

def Graph.Counts (g g' : Graph) (news : List Handle) : Prop :=
  ∀ k c, g k = some c → ∃ d, g' k = some d ∧ d.content = c.content ∧
    (k ≠ .nil → d.header.refcount = RefCount.increment^[news.count k] c.header.refcount)

namespace Graph.Counts

variable {g g' g'' : Graph} {news more : List Handle}

theorem refl : Counts g g [] := fun _ c hc => ⟨c, hc, rfl, fun _ => rfl⟩

theorem trans (hfirst : Counts g g' news) (hlast : Counts g' g'' more) :
    Counts g g'' (news ++ more) := by
  intro k c hc
  obtain ⟨d, hd, hsame, hcount⟩ := hfirst k c hc
  obtain ⟨e, he, hsame', hcount'⟩ := hlast k d hd
  refine ⟨e, he, hsame'.trans hsame, fun hk => ?_⟩
  rw [hcount' hk, hcount hk, List.count_append, Nat.add_comm, Function.iterate_add_apply]

theorem count (h : Handle) : Counts g (g.count h) [h] := by
  intro k c hc
  by_cases hk : k = h
  · subst hk
    exact ⟨_, Graph.edit_self hc, Cell.content_seen _, fun _ => by simp; rfl⟩
  · exact ⟨c, (Graph.edit_ne hk).trans hc, rfl, fun _ => by simp [Ne.symm hk]⟩

theorem countAll (hs : List Handle) : Counts g (hs.foldl Graph.count g) hs := by
  induction hs generalizing g with
  | nil => exact refl
  | cons h hs ih => exact (count h).trans ih

theorem recount (h : Handle) : Counts g (g.recount .nil h) [h] := by
  unfold Graph.recount
  split
  · rename_i hnil
    subst hnil
    exact fun k c hc => ⟨c, hc, rfl, fun hk => by simp [Ne.symm hk]⟩
  · have hrelease : Counts (g.count h) ((g.count h).release .nil) [] := by
      intro k c hc
      by_cases hk : k = .nil
      · subst hk
        exact ⟨_, Graph.edit_self hc, Cell.content_seen _, fun hno => absurd rfl hno⟩
      · exact ⟨c, (Graph.edit_ne hk).trans hc, rfl, fun _ => rfl⟩
    exact (count h).trans hrelease

theorem edited {f : Cell → Cell} {t : Handle} (hf : Cell.Visible f) (hc : Counts g g' news) :
    Counts (g.edit t f) (g'.edit t f) news := by
  intro k c he
  by_cases hk : k = t
  · subst hk
    obtain ⟨e, hget, rfl⟩ : ∃ e, g k = some e ∧ (f e).seen = c := by
      simpa only [Graph.edit, if_true, Option.map_eq_some_iff] using he
    obtain ⟨d, hd, hsame, hcount⟩ := hc k e hget
    refine ⟨_, Graph.edit_self hd, ?_, fun hk => ?_⟩
    · rw [Cell.content_seen, Cell.content_seen]
      exact hf.content _ _ hsame
    · exact (hf.refcount d).trans ((hcount hk).trans (congrArg _ (hf.refcount e).symm))
  · rw [Graph.edit_ne hk] at he
    obtain ⟨d, hd, hrest⟩ := hc k c he
    exact ⟨d, (Graph.edit_ne hk).trans hd, hrest⟩

theorem agrees {f : Cell → Cell} {t : Handle} (hc : Counts (g.edit t f) g' news) :
    Graph.Agrees (· = t) g g' := by
  intro k c hk hget
  obtain ⟨d, hd, hsame, -⟩ := hc k c ((Graph.edit_ne hk).trans hget)
  exact ⟨d, hd, hsame⟩

end Graph.Counts

namespace Cell

variable {c : Cell} {kind : Kind} {p q : Payload} {news : List Handle}

theorem visible_payload (p : Payload) : Visible fun c => { c with payload := p } := by
  refine ⟨fun c d he => ?_, fun _ => rfl⟩
  exact congrArg (fun c : Cell => ({ c with payload := p.forgetting.unchained } : Cell)) he

theorem visible_attrib (x : Handle) : Visible fun c => { c with attrib := x } := by
  refine ⟨fun c d he => ?_, fun _ => rfl⟩
  have hcached : d.flags.cached = c.flags.cached := cached_of_content he
  have hattached : ({ d with attrib := x } : Cell).attached = ({ c with attrib := x } : Cell).attached := by
    change (if d.flags.cached then Handle.nil else x) = if c.flags.cached then Handle.nil else x
    rw [hcached]
  change Cell.mk d.content.header _ d.content.payload = Cell.mk c.content.header _ c.content.payload
  rw [hattached, he]

theorem edges_of_blank (he : c.content = (blank kind p).content) :
    c.edges true = .nil :: p.children true := by
  rw [← edges_content c, he, edges_content]
  rfl

theorem takes_payload (he : c.content = (blank kind p).content)
    (hcount : ∀ k, k ≠ .nil → (q.children true).count k = (p.children true).count k + news.count k) :
    c.Takes { c with payload := q } news := by
  have hfilled : ({ c with payload := q } : Cell).content = (blank kind q).content :=
    (visible_payload q).content _ _ he
  refine ⟨rfl, rfl, rfl, fun k hk => ?_⟩
  rw [edges_of_blank hfilled, edges_of_blank he, List.count_cons, List.count_cons, hcount k hk]
  simp only [beq_iff_eq, Ne.symm hk, if_false]
  omega

theorem takes_attrib (he : c.content = (blank kind p).content) (x : Handle) :
    c.Takes { c with attrib := x } [x] := by
  have hcached : c.flags.cached = false := cached_of_content he
  have hedges : ({ c with attrib := x } : Cell).edges true = x :: c.payload.children true :=
    if_neg (Bool.eq_false_iff.mp hcached)
  have hbefore := edges_of_blank he
  refine ⟨rfl, rfl, rfl, fun k hk => ?_⟩
  have hattrib : c.edges true = c.attrib :: c.payload.children true := if_neg (by simpa using hcached)
  rw [hattrib] at hbefore ⊢
  rw [hedges, (List.cons.inj hbefore).1, List.count_cons, List.count_cons, List.count_singleton]
  simp [Ne.symm hk]

end Cell

namespace Heap

variable {heap mid heap' : Heap} {t value : Handle} {f : Cell → Cell} {news : List Handle} {g : Graph}
  {kind : Kind} {p q : Payload}

theorem Refers.of_counts (hr : heap.Redrawn heap' g) (hlives : ∃ es, heap.Lives es heap')
    (hf : Cell.Visible f) (hg : Graph.Counts (heap.graph.edit t f) g news)
    (htakes : ∀ c, heap.arena.get? t = some c → c.Takes (f c) news) : heap.Refers heap' t f news := by
  refine ⟨hr.control, hlives, htakes, fun k c hc => ?_⟩
  obtain ⟨e, he, hsame, hcount⟩ : ∃ e, heap.graph.edit t f k = some e ∧
      e.content = (if k = t then f c else c).content ∧ e.header.refcount = c.header.refcount := by
    by_cases hk : k = t
    · subst hk
      refine ⟨_, Graph.edit_self (graph_of_get? hc), ?_, hf.refcount _⟩
      rw [Cell.content_seen, if_pos rfl]
      exact hf.content _ _ (Cell.content_seen c)
    · refine ⟨_, (Graph.edit_ne hk).trans (graph_of_get? hc), ?_, rfl⟩
      rw [if_neg hk, Cell.content_seen]
  obtain ⟨x, hx, hsame', hcount'⟩ := hg k e he
  rw [← hr.graph] at hx
  obtain ⟨d, hd, rfl⟩ := graph_eq_some.mp hx
  rw [Cell.content_seen] at hsame'
  exact ⟨d, hd, hsame'.trans hsame, fun hk => (hcount' hk).trans (by rw [hcount])⟩

theorem Shows.plain_payload (hshows : heap.Shows t kind p) (hp : p.Plain) {c : Cell}
    (hc : heap.arena.get? t = some c) : c.payload = p := by
  obtain ⟨d, hd, hsame⟩ := hshows
  rw [hc, Option.some.injEq] at hd
  subst hd
  exact Cell.payload_of_plain (c := Cell.blank kind p) hsame hp

theorem Shows.content (hshows : heap.Shows t kind p) {c : Cell} (hc : heap.arena.get? t = some c) :
    c.content = (Cell.blank kind p).content := by
  obtain ⟨d, hd, hsame⟩ := hshows
  rw [hc, Option.some.injEq] at hd
  exact hd ▸ hsame

theorem Refers.shows (hr : heap.Refers heap' t (fun c => { c with payload := q }) news)
    (hshows : heap.Shows t kind p) : heap'.Shows t kind q := by
  obtain ⟨c, hc, hsame⟩ := hshows
  obtain ⟨d, hd, hsame'⟩ := hr.self hc
  exact ⟨d, hd, hsame'.trans ((Cell.visible_payload q).content _ _ hsame)⟩

end Heap

namespace HeapM

variable {heap heap' : Heap} {t car cdr tag value : Handle} {kind : Kind} {u : PUnit}

theorem refers_setCar (hshows : heap.Shows t kind (.pair .nil cdr tag))
    (hrun : (setCar t value).run heap = .ok (u, heap')) :
    heap.Refers heap' t (fun c => { c with payload := .pair value cdr tag }) [value] := by
  obtain ⟨c, _, _, _, hc, hp, hr⟩ := redrawn_setCar hrun
  rw [hshows.plain_payload ⟨nofun, nofun⟩ hc] at hp
  cases hp
  refine .of_counts hr ⟨[], (Retouches.setCar _ _ _ hrun).act.lives⟩
    (Cell.visible_payload _) (.recount value) fun d hd => Cell.takes_payload (hshows.content hd) ?_
  intro k hk
  simp only [Payload.children, List.count_cons, List.count_nil, beq_iff_eq, Ne.symm hk, if_false]
  omega

theorem refers_setCdr (hshows : heap.Shows t kind (.pair car .nil tag))
    (hrun : (setCdr t value).run heap = .ok (u, heap')) :
    heap.Refers heap' t (fun c => { c with payload := .pair car value tag }) [value] := by
  obtain ⟨c, _, _, _, hc, hp, hr⟩ := redrawn_setCdr hrun
  rw [hshows.plain_payload ⟨nofun, nofun⟩ hc] at hp
  cases hp
  refine .of_counts hr ⟨[], (Retouches.setCdr _ _ _ hrun).act.lives⟩
    (Cell.visible_payload _) (.recount value) fun d hd => Cell.takes_payload (hshows.content hd) ?_
  intro k hk
  simp only [Payload.children, List.count_cons, List.count_nil, beq_iff_eq, Ne.symm hk, if_false]
  omega

theorem refers_setTag (hshows : heap.Shows t kind (.pair car cdr .nil))
    (hrun : (setTag t value).run heap = .ok (u, heap')) :
    heap.Refers heap' t (fun c => { c with payload := .pair car cdr value }) [value] := by
  obtain ⟨c, _, _, _, hc, hp, hr⟩ := redrawn_setTag hrun
  rw [hshows.plain_payload ⟨nofun, nofun⟩ hc] at hp
  cases hp
  refine .of_counts hr ⟨[], (Retouches.setTag _ _ _ hrun).act.lives⟩
    (Cell.visible_payload _) (.recount value) fun d hd => Cell.takes_payload (hshows.content hd) ?_
  intro k hk
  simp only [Payload.children, List.count_cons, List.count_nil, beq_iff_eq, Ne.symm hk, if_false]
  omega

theorem refers_setVectorElt {elements : Array Handle} {i : Nat}
    (hshows : heap.Shows t kind (.handles elements)) (hi : elements[i]? = some .nil)
    (hrun : (setVectorElt t i value).run heap = .ok (.ok (), heap')) : heap.Refers heap' t
      (fun c => { c with payload := .handles (elements.setIfInBounds i value) }) [value] := by
  have hlives : ∃ es, heap.Lives es heap' :=
    ⟨[], (Retouches.setVectorElt _ _ _ hrun).act.lives⟩
  rcases redrawn_setVectorElt hrun with ⟨⟨e, hno⟩, -⟩ | ⟨c, _, old, hc, hp, hold, -, hr⟩
  · exact nomatch hno
  · rw [hshows.plain_payload ⟨nofun, nofun⟩ hc] at hp
    cases hp
    rw [hi, Option.some.injEq] at hold
    subst hold
    refine .of_counts hr hlives (Cell.visible_payload _) (.recount value) fun d hd =>
      Cell.takes_payload (hshows.content hd) fun k hk => ?_
    obtain ⟨hlt, hnil⟩ := Array.getElem?_eq_some_iff.mp hi
    have hlist : i < elements.toList.length := by simpa using hlt
    have hget : elements.toList[i] = .nil := by simpa using hnil
    simp only [Payload.children, Array.toList_setIfInBounds]
    rw [List.count_set hlist, hget, List.count_singleton]
    simp [Ne.symm hk]

theorem refers_setAttrib {p : Payload} (hshows : heap.Shows t kind p)
    (hrun : (setAttrib t value).run heap = .ok (u, heap')) :
    heap.Refers heap' t (fun c => { c with attrib := value }) [value] := by
  obtain ⟨c, hc, hcached, hr⟩ := redrawn_setAttrib hrun
  have hattrib : c.attrib = .nil := by
    have hattached : c.attached = .nil := Cell.attached_of_content (hshows.content hc)
    rwa [Cell.attached, if_neg (by simpa using hcached)] at hattached
  rw [hattrib] at hr
  exact .of_counts hr ⟨[], (Retouches.setAttrib _ _ _ hrun).act.lives⟩
    (Cell.visible_attrib value) (.recount value) fun d hd => Cell.takes_attrib (hshows.content hd) value

end HeapM

end ManagedHeap
