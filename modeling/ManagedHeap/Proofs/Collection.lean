import ManagedHeap.Proofs.HeapInvariant
import ManagedHeap.Proofs.CollectionPhases

/-!
# What a collection does

A collection keeps the objects that it does not cover, those that linger, and the names
of symbols. What it keeps stays what it was; the covered ones move to the next
generation. Everything else is given back to the free lists, in the order of handles.
-/

namespace ManagedHeap

namespace Cell

variable {c d : Cell}

theorem header_of_cleared (he : d.cleared = c.cleared) : d.header = c.header :=
  (congrArg Cell.header he :)

theorem edges_cleared (c : Cell) (withNames : Bool) : c.cleared.edges withNames = c.edges withNames := by
  obtain ⟨header, attrib, payload⟩ := c
  cases payload <;> rfl

theorem edges_of_cleared (he : d.cleared = c.cleared) (withNames : Bool) :
    d.edges withNames = c.edges withNames := by
  rw [← edges_cleared d, he, edges_cleared c]

theorem weakRef_of_cleared {key value finalizer next : Handle} (he : d.cleared = c.cleared)
    (hp : c.payload = .weakRef key value finalizer next) :
    d.payload = .weakRef key value finalizer next := by
  have hpayload : d.payload.forgetting = c.payload.forgetting := congrArg Cell.payload he
  rw [hp] at hpayload
  cases hd : d.payload <;> simp_all [Payload.forgetting]

def lasting (c : Cell) : Cell :=
  { header :=
      { c.header with
        generation := .young
        flags := { c.flags with
          marked := false, beingComputed := false, inUseByTask := false, remembered := false
          readyToFinalize := false } }
    attrib := c.attached
    payload := c.payload.forgetting }

theorem lasting_cleared (c : Cell) : c.cleared.lasting = c.lasting := by
  obtain ⟨header, attrib, payload⟩ := c
  cases payload <;> rfl

theorem lasting_of_core (he : d.core = c.core) : d.lasting = c.lasting :=
  (congrArg Cell.lasting he :)

theorem lasting_unlinked (c : Cell) : c.unlinked.lasting = c.lasting := by
  unfold unlinked
  split
  · rename_i hcached
    have hflag : c.header.flags.cached = true := hcached
    simp only [lasting, attached, flags, hflag, if_true]
  · rfl

theorem lasting_of_unlinked (he : d.unlinked = c.unlinked) : d.lasting = c.lasting := by
  rw [← lasting_unlinked d, he, lasting_unlinked c]

theorem kind_of_lasting (he : d.lasting = c.lasting) : d.kind = c.kind :=
  (congrArg (fun c : Cell => c.header.kind) he :)

theorem refcount_of_lasting (he : d.lasting = c.lasting) : d.header.refcount = c.header.refcount :=
  (congrArg (fun c : Cell => c.header.refcount) he :)

theorem cached_of_lasting (he : d.lasting = c.lasting) : d.flags.cached = c.flags.cached :=
  (congrArg (fun c : Cell => c.header.flags.cached) he :)

theorem symbolName_of_lasting (he : d.lasting = c.lasting) :
    d.flags.symbolName = c.flags.symbolName :=
  (congrArg (fun c : Cell => c.header.flags.symbolName) he :)

theorem permanent_of_lasting (he : d.lasting = c.lasting) :
    d.flags.permanent = c.flags.permanent :=
  (congrArg (fun c : Cell => c.header.flags.permanent) he :)

theorem attached_of_lasting (he : d.lasting = c.lasting) : d.attached = c.attached :=
  (congrArg Cell.attrib he :)

theorem forgetting_of_lasting (he : d.lasting = c.lasting) :
    d.payload.forgetting = c.payload.forgetting :=
  (congrArg Cell.payload he :)

theorem children_forgetting (p : Payload) (withNames : Bool) :
    p.forgetting.children withNames = p.children withNames := by
  cases p <;> rfl

theorem edges_of_lasting (he : d.lasting = c.lasting) (withNames : Bool) :
    d.edges withNames = c.edges withNames := by
  have hchildren : d.payload.children withNames = c.payload.children withNames := by
    rw [← children_forgetting d.payload, forgetting_of_lasting he, children_forgetting]
  have hattached := attached_of_lasting he
  have hcached := cached_of_lasting he
  unfold attached at hattached
  unfold edges
  rw [hcached] at hattached ⊢
  cases hc : c.flags.cached with
  | true => simp only [if_true, hchildren]
  | false =>
    simp only [hc, Bool.false_eq_true, if_false] at hattached ⊢
    rw [hattached, hchildren]

theorem suits_of_lasting (he : d.lasting = c.lasting) (hs : c.payload.suits c.kind = true) :
    d.payload.suits d.kind = true := by
  have hforget : ∀ (p : Payload) (k : Kind), p.forgetting.suits k = p.suits k := by
    intro p k
    cases p
    case symbol => cases k <;> rfl
    all_goals rfl
  rw [← hforget, forgetting_of_lasting he, kind_of_lasting he, hforget]
  exact hs

/-- A cached string that names a symbol: the sweep keeps it even unmarked. -/
def IsName (c : Cell) : Prop :=
  c.kind = .charString ∧ c.flags.cached = true ∧ c.flags.symbolName = true

end Cell

theorem Level.lasting_swept {level : Level} {tasks : Tasks} {h : Handle} {c : Cell}
    (hf : level.frees c = false) : (level.swept tasks h c).lasting = c.lasting := by
  cases hs : level.sweeps c with
  | false => rw [swept_of_not_sweeps hs]
  | true =>
    have hstays : c.stays = true := by simpa [frees, hs] using hf
    rw [swept_of_stays hs hstays]
    rfl

theorem Level.header_swept {level : Level} {tasks : Tasks} {h : Handle} {c : Cell}
    (hf : level.frees c = false) : (level.swept tasks h c).header =
      if level.sweeps c then
        { c.header with
          generation := level.promotionTarget
          flags := { c.header.flags with
            marked := false, beingComputed := tasks.isPending h, inUseByTask := tasks.isInUse h } }
      else c.header := by
  cases hs : level.sweeps c with
  | false =>
    rw [swept_of_not_sweeps hs]
    rfl
  | true =>
    have hstays : c.stays = true := by simpa [frees, hs] using hf
    rw [swept_of_stays hs hstays]
    rfl

theorem Scan.sweeps_iff {s : Scan} {c : Cell} (hlive : c.isFree = false) :
    s.level.sweeps c = true ↔ s.spares c.header = false := by
  simp only [Level.sweeps, hlive, Scan.spares, Cell.flags, Bool.not_false, Bool.true_and,
    Bool.and_eq_true, Bool.or_eq_false_iff, Bool.not_eq_true', Bool.not_eq_false']

namespace Arena.SameBut

variable {a b : Arena} {s : Scan} {h : Handle} {f : WeakFields}

theorem ofCleared {c : Cell} (hab : SameBut Cell.cleared a b) (hc : a.get? h = some c) :
    ∃ d, b.get? h = some d ∧ d.cleared = c.cleared := hab.get? (fun _ => rfl) hc

theorem spared_cleared (hab : SameBut Cell.cleared a b) (hs : a.Spared s h) : b.Spared s h := by
  obtain ⟨c, hc, hspares⟩ := hs
  obtain ⟨d, hd, hdc⟩ := hab.ofCleared hc
  exact ⟨d, hd, by rw [Cell.header_of_cleared hdc, hspares]⟩

theorem covered_cleared (hab : SameBut Cell.cleared a b) (hs : a.Covered s h) :
    b.Covered s h := by
  obtain ⟨c, hc, hspares⟩ := hs
  obtain ⟨d, hd, hdc⟩ := hab.ofCleared hc
  exact ⟨d, hd, by rw [Cell.header_of_cleared hdc, hspares]⟩

theorem ready_cleared (hab : SameBut Cell.cleared a b) (hr : a.Ready h) : b.Ready h := by
  obtain ⟨c, hc, hready⟩ := hr
  obtain ⟨d, hd, hdc⟩ := hab.ofCleared hc
  exact ⟨d, hd, by rw [Cell.flags, Cell.header_of_cleared hdc]; exact hready⟩

theorem record_cleared (hab : SameBut Cell.cleared a b) (hr : a.Record h f) : b.Record h f := by
  obtain ⟨c, hc, hpayload⟩ := hr
  obtain ⟨d, hd, hdc⟩ := hab.ofCleared hc
  exact ⟨d, hd, Cell.weakRef_of_cleared hdc hpayload⟩

end Arena.SameBut

section Congruence

variable {a b : Arena} {s : Scan} {seed seed' : Handle → Prop} {records : List Handle} {h : Handle}

theorem Scan.Seed.cleared {roots remembered held : List Handle}
    (hab : Arena.SameBut Cell.cleared a b) (hs : s.Seed a roots remembered held records h) :
    s.Seed b roots remembered held records h := by
  rcases hs with hroot | hheld | hrecord | ⟨r, hr, c, hc, hout, hedge⟩
  · exact .inl hroot
  · exact .inr (.inl hheld)
  · exact .inr (.inr (.inl hrecord))
  · obtain ⟨d, hd, hdc⟩ := hab.ofCleared hc
    refine .inr (.inr (.inr ⟨r, hr, d, hd, ?_, ?_⟩))
    · rw [Cell.header_of_cleared hdc, hout]
    · rw [Cell.edges_of_cleared hdc]
      exact hedge

theorem Retained.congr (hab : Arena.SameBut Cell.cleared a b) (hseed : ∀ h, seed h → seed' h)
    (hr : Retained s a seed records h) : Retained s b seed' records h := by
  induction hr with
  | seed hs hcovered => exact .seed (hseed _ hs) (hab.covered_cleared hcovered)
  | edge _ hc hk hcovered ih =>
    obtain ⟨d, hd, hdc⟩ := hab.ofCleared hc
    exact .edge ih hd (by rw [Cell.edges_of_cleared hdc]; exact hk) (hab.covered_cleared hcovered)
  | value hmem hf hnot _ hk hcovered ih =>
    exact .value hmem (hab.record_cleared hf) (fun hr => hnot (hab.symm.ready_cleared hr)) ih hk
      (hab.covered_cleared hcovered)
  | spared hmem hf hnot hkey hk hcovered =>
    exact .spared hmem (hab.record_cleared hf) (fun hr => hnot (hab.symm.ready_cleared hr))
      (hab.spared_cleared hkey) hk (hab.covered_cleared hcovered)

theorem ReadyAfter.congr (hab : Arena.SameBut Cell.cleared a b) (hseed : ∀ h, seed h ↔ seed' h)
    (hr : ReadyAfter s a seed records h) : ReadyAfter s b seed' records h := by
  rcases hr with hr | ⟨f, hf, hdead⟩
  · exact .inl (hab.ready_cleared hr)
  · refine .inr ⟨f, hab.record_cleared hf, ?_⟩
    rintro (hkey | hkey)
    · exact hdead (.inl (hkey.congr hab.symm fun k => (hseed k).mpr))
    · exact hdead (.inr (hab.symm.spared_cleared hkey))

theorem Lingering.congr (hab : Arena.SameBut Cell.cleared a b) (hseed : ∀ h, seed h ↔ seed' h)
    (hl : Lingering s a seed records h) : Lingering s b seed' records h := by
  induction hl with
  | retained hr => exact .retained (hr.congr hab fun k => (hseed k).mp)
  | field hmem hafter hf hk hcovered =>
    exact .field hmem (hafter.congr hab hseed) (hab.record_cleared hf) hk
      (hab.covered_cleared hcovered)
  | edge _ hc hk hcovered ih =>
    obtain ⟨d, hd, hdc⟩ := hab.ofCleared hc
    exact .edge ih hd (by rw [Cell.edges_of_cleared hdc]; exact hk) (hab.covered_cleared hcovered)

theorem Retained.covered (hr : Retained s a seed records h) : a.Covered s h := by
  cases hr with
  | seed _ hcovered => exact hcovered
  | edge _ _ _ hcovered => exact hcovered
  | value _ _ _ _ _ hcovered => exact hcovered
  | spared _ _ _ _ _ hcovered => exact hcovered

theorem Lingering.covered (hl : Lingering s a seed records h) : a.Covered s h := by
  cases hl with
  | retained hr => exact hr.covered
  | field _ _ _ _ hcovered => exact hcovered
  | edge _ _ _ hcovered => exact hcovered

end Congruence

namespace Heap

/-- Where the marking of a collection starts. -/
def Start (heap : Heap) (level : Level) (records : List Handle) : Handle → Prop :=
  (heap.scan level).Seed heap.arena heap.rootList heap.remembered.toList
    (heap.quietTasks level).held records

def Lingers (heap : Heap) (level : Level) (records : List Handle) : Handle → Prop :=
  Lingering (heap.scan level) heap.arena (heap.Start level records) records

def Ripens (heap : Heap) (level : Level) (records : List Handle) (h : Handle) : Prop :=
  heap.arena.Ready h ∨ (h ∈ records ∧
    ReadyAfter (heap.scan level) heap.arena (heap.Start level records) records h)

def Keeps (heap : Heap) (level : Level) (records : List Handle) (h : Handle) (c : Cell) : Prop :=
  level.sweeps c = false ∨ heap.Lingers level records h ∨ c.IsName

end Heap

/-- What a collection makes of a surviving object, but for what its flags say of tasks, of
its finalization and of the remembered list. -/
structure Cell.Survives (level : Level) (c d : Cell) : Prop where
  lasting : d.lasting = c.lasting
  generation : d.header.generation =
    if level.sweeps c then level.promotionTarget else c.header.generation
  unmarked : d.flags.marked = false

open Classical in
/-- What a collection makes of a heap. -/
structure Collected (level : Level) (records : List Handle) (heap heap' : Heap) (o : Outcome) :
    Prop where
  chain : heap.arena.weakRecords heap.weak = .ok records
  rest : ∃ arena generations strategy strings remembered counters journal,
    heap' = { heap with
      arena, generations, strategy, strings, remembered, counters, journal
      tasks := heap.quietTasks level, collecting := false }
  tidy : heap'.arena.Tidy
  chained : ∃ on, Chained heap'.arena heap'.strings.buckets.toList on
  came : ∀ {h d}, heap'.arena.get? h = some d →
    ∃ c, heap.arena.get? h = some c ∧ heap.Keeps level records h c
  stayed : ∀ {h c}, heap.arena.get? h = some c → heap.Keeps level records h c →
    ∃ d, heap'.arena.get? h = some d
  same : ∀ {h c d}, heap.arena.get? h = some c → heap'.arena.get? h = some d → c.Survives level d
  ready : ∀ {h d}, heap'.arena.get? h = some d →
    (d.flags.readyToFinalize = true ↔ heap.Ripens level records h)
  task : ∀ {h c d}, heap.arena.get? h = some c → heap'.arena.get? h = some d →
    d.flags.task =
      if level.sweeps c then
        { beingComputed := (heap.quietTasks level).isPending h
          inUseByTask := (heap.quietTasks level).isInUse h }
      else Marking.Traces.taskFlags (heap.quietTasks level) (heap.quietTasks level).held h c.flags
  remembered : ∀ {h c d}, heap.arena.get? h = some c → heap'.arena.get? h = some d →
    (d.flags.remembered = true ↔
      c.flags.remembered = true ∧ HeapM.pointsYounger heap'.arena d = true)
  list : heap'.remembered.toList = heap.remembered.toList.filter fun h =>
    (heap'.arena.get? h).any (HeapM.pointsYounger heap'.arena)
  free : ∀ n, heap'.arena.freeList n =
    (heap.arena.positions.filter fun h =>
      heap.arena.contains h && !heap'.arena.contains h && heap.arena.classAt? h == some n).reverse ++
      heap.arena.freeList n
  freed : ∀ g, o.freed.get g = heap.arena.positions.countP fun h =>
    (heap.arena.get? h).any (·.header.generation == g) && !heap'.arena.contains h
  marked : o.marked = heap.arena.positions.countP fun h => decide (heap.Lingers level records h)
  newly : heap.arena.readies + o.newlyReady =
    heap.arena.positions.countP fun h => decide (heap.Ripens level records h)
  level : o.level = level

/-- What the marking of a collection makes of a cell. -/
structure Cell.MarkedIn (heap : Heap) (level : Level) (records : List Handle) (h : Handle)
    (c e : Cell) : Prop where
  lasting : e.lasting = c.lasting
  generation : e.header.generation = c.header.generation
  attrib : e.attrib = c.attrib
  remembered : e.flags.remembered = c.flags.remembered
  marked : e.flags.marked = true ↔ heap.Lingers level records h
  ready : e.flags.readyToFinalize = true ↔ heap.Ripens level records h
  task : e.flags.task =
    Marking.Traces.taskFlags (heap.quietTasks level) (heap.quietTasks level).held h c.flags

namespace Cell.MarkedIn

variable {heap : Heap} {level : Level} {records : List Handle} {h : Handle} {c e : Cell}

theorem sweeps (hm : c.MarkedIn heap level records h e) : level.sweeps e = level.sweeps c := by
  have hkind : e.header.kind = c.header.kind := Cell.kind_of_lasting hm.lasting
  have hperm := Cell.permanent_of_lasting hm.lasting
  simp only [Level.sweeps, Cell.isFree, Header.isFree, hkind, hperm, hm.generation]

theorem frees (hm : c.MarkedIn heap level records h e) :
    level.frees e = false ↔ heap.Keeps level records h c := by
  have hkind := Cell.kind_of_lasting hm.lasting
  have hcached := Cell.cached_of_lasting hm.lasting
  have hname := Cell.symbolName_of_lasting hm.lasting
  rw [Heap.Keeps, Level.frees, hm.sweeps, Bool.and_eq_false_iff, Bool.not_eq_false', Cell.stays,
    Bool.or_eq_true, hm.marked, hkind, hcached, hname, Cell.IsName]
  simp only [Bool.and_eq_true, beq_iff_eq, and_assoc]

theorem not_swept (hm : c.MarkedIn heap level records h e) (hc : heap.arena.get? h = some c)
    (hs : level.sweeps c = false) : e.flags.marked = false := by
  rw [Bool.eq_false_iff, ne_eq, hm.marked]
  intro hl
  obtain ⟨d, hd, hcovered⟩ := hl.covered
  rw [hc, Option.some.injEq] at hd
  subst hd
  have hsweeps := (Scan.sweeps_iff (s := heap.scan level) (Arena.get?_eq_some.mp hc).2).mpr hcovered
  rw [show (heap.scan level).level = level from rfl, hs] at hsweeps
  exact nomatch hsweeps

theorem ends {x : Cell} {p : Prop} [Decidable p] (hm : c.MarkedIn heap level records h e)
    (hc : heap.arena.get? h = some c) (hfrees : level.frees e = false)
    (hx : x.unlinked = (level.swept (heap.quietTasks level) h e).unlinked) :
    ∃ d, d = (if p then x.forgotten else x) ∧ c.Survives level d ∧
      (d.flags.readyToFinalize = true ↔ heap.Ripens level records h) ∧
      (d.flags.task = if level.sweeps c then
          { beingComputed := (heap.quietTasks level).isPending h
            inUseByTask := (heap.quietTasks level).isInUse h }
        else Marking.Traces.taskFlags (heap.quietTasks level) (heap.quietTasks level).held h c.flags) ∧
      (d.flags.remembered = true ↔ c.flags.remembered = true ∧ ¬ p) := by
  have hheader : x.header = _ := (Cell.header_of_unlinked hx).trans (Level.header_swept hfrees)
  have hlasting : x.lasting = c.lasting := by
    rw [Cell.lasting_of_unlinked hx, Level.lasting_swept hfrees, hm.lasting]
  rw [hm.sweeps] at hheader
  have hplain : c.Survives level x ∧
      (x.flags.readyToFinalize = true ↔ heap.Ripens level records h) ∧
      (x.flags.task = if level.sweeps c then
          { beingComputed := (heap.quietTasks level).isPending h
            inUseByTask := (heap.quietTasks level).isInUse h }
        else Marking.Traces.taskFlags (heap.quietTasks level) (heap.quietTasks level).held h c.flags) ∧
      x.flags.remembered = c.flags.remembered := by
    cases hs : level.sweeps c with
    | true =>
      rw [hs, if_pos rfl] at hheader
      refine ⟨⟨hlasting, ?_, ?_⟩, ?_, ?_, ?_⟩
      · rw [hheader, hs, if_pos rfl]
      · rw [Cell.flags, hheader]
      · rw [← hm.ready, Cell.flags, hheader]
        rfl
      · rw [if_pos rfl, Cell.flags, hheader]
        rfl
      · rw [← hm.remembered, Cell.flags, hheader]
        rfl
    | false =>
      rw [hs, if_neg Bool.false_ne_true] at hheader
      refine ⟨⟨hlasting, ?_, ?_⟩, ?_, ?_, ?_⟩
      · rw [hheader, hs, if_neg Bool.false_ne_true, hm.generation]
      · rw [Cell.flags, hheader]
        exact hm.not_swept hc hs
      · rw [← hm.ready, Cell.flags, hheader]
        rfl
      · rw [if_neg Bool.false_ne_true, ← hm.task, Cell.flags, hheader]
        rfl
      · rw [← hm.remembered, Cell.flags, hheader]
        rfl
  obtain ⟨⟨-, hgeneration, hunmarked⟩, hready, htask, hremembered⟩ := hplain
  refine ⟨_, rfl, ?_⟩
  split
  · rename_i hp
    exact ⟨⟨hlasting, hgeneration, hunmarked⟩, hready, htask,
      iff_of_false Bool.false_ne_true fun h => h.2 hp⟩
  · rename_i hp
    refine ⟨⟨hlasting, hgeneration, hunmarked⟩, hready, htask, ?_⟩
    rw [hremembered]
    exact (and_iff_left hp).symm

end Cell.MarkedIn

namespace HeapM

open Arena

variable {heap heap' : Heap} {level : Level} {reason : Reason} {o : Outcome}

theorem cleared_sameBut {a b : Arena} {hs : List Handle} (hbooks : b.books = a.books)
    (hcells : ∀ h, b.cellAt? h = (a.cellAt? h).map fun c => if h ∈ hs then c.cleared else c) :
    SameBut Cell.cleared a b := by
  refine ⟨hbooks, ?_⟩
  intro h
  rw [hcells h, Option.map_map]
  refine Option.map_congr ?_
  intro c _
  simp only [Function.comp]
  split
  · obtain ⟨header, attrib, payload⟩ := c
    cases payload <;> rfl
  · rfl

open Classical in
theorem run_marked {cleared : Arena} {m : Marking} {n : Nat} (hs : heap.Sound)
    (hbooks : cleared.books = heap.arena.books)
    (hcells : ∀ h, cleared.cellAt? h =
      (heap.arena.cellAt? h).map fun c => if h ∈ heap.symbols.handles then c.cleared else c)
    (hrun : (do MarkM.markRoots (heap.scan level) heap.rootList heap.remembered.toList
                MarkM.markTasks (heap.scan level) (heap.quietTasks level)
                MarkM.resolveWeak (heap.scan level) heap.weak : MarkM Nat).run { arena := cleared } =
      .ok (n, m)) :
    ∃ records, heap.arena.weakRecords heap.weak = .ok records ∧
      m.arena.Tidy ∧ m.arena.books = heap.arena.books ∧
      m.marked = (heap.arena.positions.countP fun h => decide (heap.Lingers level records h)) ∧
      heap.arena.readies + n =
        (heap.arena.positions.countP fun h => decide (heap.Ripens level records h)) ∧
      (∀ {h c}, heap.arena.get? h = some c →
        ∃ e, m.arena.get? h = some e ∧ c.MarkedIn heap level records h e) ∧
      ∀ {h e}, m.arena.get? h = some e → ∃ c, heap.arena.get? h = some c := by
  have hab : SameBut Cell.cleared heap.arena cleared := cleared_sameBut hbooks hcells
  have htidy : cleared.Tidy := hab.tidy (fun _ => rfl) hs.tidy
  have hunmarked : ∀ {h}, ¬ cleared.Marks h := by
    rintro h ⟨d, hd, hmarked⟩
    obtain ⟨c, hc, hcd⟩ := hab.symm.ofCleared hd
    have hno := (hs.proper hc).unmarked
    rw [Cell.flags, Cell.header_of_cleared hcd] at hno
    rw [Cell.flags, hno] at hmarked
    cases hmarked
  obtain ⟨records, mid, hchain, hdecided, hfinish, -⟩ := MarkM.run_decided htidy hunmarked hrun
  have hf := MarkM.run_finish hdecided hfinish
  have hseed : ∀ h, (heap.scan level).Seed cleared heap.rootList heap.remembered.toList
      (heap.quietTasks level).held records h ↔ heap.Start level records h :=
    fun h => ⟨fun hh => hh.cleared hab.symm, fun hh => hh.cleared hab⟩
  have hlingers : ∀ {h}, m.arena.Marks h ↔ heap.Lingers level records h := by
    intro h
    rw [hf.marks]
    exact ⟨fun hh => hh.congr hab.symm hseed, fun hh => hh.congr hab fun k => (hseed k).symm⟩
  have hripens : ∀ {h}, m.arena.Ready h ↔ heap.Ripens level records h := by
    intro h
    rw [hf.ready]
    refine or_congr ⟨hab.symm.ready_cleared, hab.ready_cleared⟩ (and_congr_right fun _ => ?_)
    exact ⟨fun hh => hh.congr hab.symm hseed, fun hh => hh.congr hab fun k => (hseed k).symm⟩
  have hshape : m.arena.shape = heap.arena.shape := hf.alike.shape.trans hab.shape
  have hpositions := positions_of_shape hab.shape
  refine ⟨records, ?_, hf.alike.tidy Cell.isFree_core htidy, hf.alike.books.trans hbooks, ?_, ?_,
    ?_, ?_⟩
  · exact weakRecords_congr (fun hr => hab.symm.record_cleared hr) hchain
  · rw [hf.counted, hpositions]
    refine List.countP_congr ?_
    intro h _
    rw [markedAt_iff, hlingers, decide_eq_true_iff]
  · have hold : cleared.readies = heap.arena.readies :=
      readies_congr hab.shape fun h => ⟨hab.symm.ready_cleared, hab.ready_cleared⟩
    rw [← hold, ← hf.newly, readies, positions_of_shape hshape]
    refine List.countP_congr ?_
    intro h _
    rw [readyAt_iff, hripens, decide_eq_true_iff]
  · intro h c hc
    obtain ⟨d, hd, hdc⟩ := hab.ofCleared hc
    obtain ⟨e, he, hed⟩ := hf.alike.core hd
    have hheader := Cell.header_of_cleared hdc
    have hattrib : d.attrib = c.attrib := (congrArg Cell.attrib hdc :)
    have hremembered : e.flags.remembered = d.flags.remembered :=
      (congrArg (fun c : Cell => c.header.flags.remembered) hed :)
    refine ⟨e, he, ?_, ?_, (Cell.attrib_of_core hed).trans hattrib, ?_, ?_, ?_, ?_⟩
    · rw [Cell.lasting_of_core hed, ← Cell.lasting_cleared d, hdc, Cell.lasting_cleared]
    · rw [Cell.generation_of_core hed, hheader]
    · rw [hremembered, Cell.flags, hheader]
      rfl
    · rw [← hlingers, Marks]
      simp only [he, Option.some.injEq, exists_eq_left']
    · rw [← hripens, Ready]
      simp only [he, Option.some.injEq, exists_eq_left']
    · rw [hf.task hd he, Cell.flags, hheader]
      rfl
  · intro h e he
    obtain ⟨d, hd, -⟩ := hf.alike.symm.core he
    obtain ⟨c, hc, -⟩ := hab.symm.ofCleared hd
    exact ⟨c, hc⟩

theorem pointsYounger_congr {a b : Arena} {c d : Cell}
    (hab : ∀ h, (b.get? h).map (·.header.generation) = (a.get? h).map (·.header.generation))
    (hedges : d.edges true = c.edges true)
    (hgeneration : d.header.generation = c.header.generation) :
    pointsYounger b d = pointsYounger a c := by
  have hbelow : ∀ (a : Arena) (h : Handle) (g : Generation), a.generationBelow h g =
      ((a.get? h).map (·.header.generation)).any fun k => decide (k.index < g.index) := by
    intro a h g
    unfold generationBelow
    cases a.get? h <;> rfl
  simp only [pointsYounger, hbelow, hab, hedges, hgeneration]

theorem get?_pruned {a b : Arena} {hs : List Handle}
    (hcells : ∀ k, b.cellAt? k = (a.cellAt? k).map fun c =>
      if k ∈ hs ∧ c.isFree = false ∧ pointsYounger a c = false then c.forgotten else c) (h : Handle) :
    b.get? h = (a.get? h).map fun c =>
      if h ∈ hs ∧ pointsYounger a c = false then c.forgotten else c := by
  unfold Arena.get?
  rw [hcells h]
  cases a.cellAt? h with
  | none => rfl
  | some c =>
    rw [Option.map_some, Option.filter_some, Option.filter_some]
    cases hfree : c.isFree with
    | true => simp [hfree]
    | false =>
      by_cases hmem : h ∈ hs ∧ pointsYounger a c = false
      · have hlive : c.forgotten.isFree = false := hfree
        simp [hmem, hlive]
      · rw [not_and] at hmem
        by_cases hin : h ∈ hs <;> simp [hin, hmem, hfree]

theorem sweepable_marked {records : List Handle} {arena : Arena} {tasks : Tasks}
    {collecting : Bool} {counters : Counters} (hs : heap.Sound) (ht : arena.Tidy)
    (hforth : ∀ {h c}, heap.arena.get? h = some c →
      ∃ e, arena.get? h = some e ∧ c.MarkedIn heap level records h e)
    (hback : ∀ {h e}, arena.get? h = some e → ∃ c, heap.arena.get? h = some c) :
    Heap.Sweepable { heap with arena, tasks, collecting, counters } := by
  refine ⟨ht, ?_, ?_, ?_⟩
  · obtain ⟨c, hc, hperm⟩ := hs.nilLive
    obtain ⟨e, he, hce⟩ := hforth hc
    exact ⟨e, he, (Cell.permanent_of_lasting hce.lasting).trans hperm⟩
  · intro h e he hcached
    obtain ⟨c, hc⟩ := hback he
    obtain ⟨e', he', hce⟩ := hforth hc
    obtain rfl := Option.some.inj (he'.symm.trans he)
    rw [Cell.cached_of_lasting hce.lasting] at hcached
    exact (Cell.kind_of_lasting hce.lasting).trans ((hs.proper hc).cached hcached)
  · obtain ⟨on, hon⟩ := hs.chained
    refine ⟨on, hon.congr ?_⟩
    intro h _ c hc hcached
    obtain ⟨e, he, hce⟩ := hforth hc
    exact ⟨e, he, (Cell.cached_of_lasting hce.lasting).trans hcached, hce.attrib⟩

theorem collected_of_phases {cleared : Arena} {m : Marking} {freed : PerGeneration Nat}
    {swept pruned : Heap} {waits : Nat} {phase : Phase} {kept : List Handle} {strategy : Strategy}
    {counters : Counters} {journal : Journal} (hs : heap.Sound)
    (hbooks : cleared.books = heap.arena.books)
    (hcells : ∀ h, cleared.cellAt? h =
      (heap.arena.cellAt? h).map fun c => if h ∈ heap.symbols.handles then c.cleared else c)
    (hmark : (do
        MarkM.markRoots (heap.scan level) heap.rootList heap.remembered.toList
        MarkM.markTasks (heap.scan level) (heap.quietTasks level)
        MarkM.resolveWeak (heap.scan level) heap.weak : MarkM Nat).run { arena := cleared } =
      .ok (o.newlyReady, m))
    (hsweep : (sweep level).run { heap with
        arena := m.arena
        tasks := heap.quietTasks level
        collecting := true
        counters := { heap.counters with taskWaits := waits, phase } } = .ok (freed, swept))
    (hprune : (pruneRemembered swept.remembered.toList).run swept = .ok (kept, pruned))
    (ho : o = { level, reason, marked := m.marked, freed, newlyReady := o.newlyReady }) :
    ∃ records, Collected level records heap { pruned with
      remembered := kept.toArray, strategy, counters, journal, collecting := false } o := by
  obtain ⟨records, hchain, htidy, hbooksm, hmarked, hnewly, hforth, hback⟩ :=
    run_marked hs hbooks hcells hmark
  have hshape : m.arena.shape = heap.arena.shape := shape_of_books hbooksm
  have hpositions := positions_of_shape hshape
  -- the cell of a live object before the collection and after the marking
  have hmid : ∀ {h e}, m.arena.get? h = some e →
      ∃ c, heap.arena.get? h = some c ∧ c.MarkedIn heap level records h e := by
    intro h e he
    obtain ⟨c, hc⟩ := hback he
    obtain ⟨e', he', hce⟩ := hforth hc
    rw [he, Option.some.injEq] at he'
    exact ⟨c, hc, he' ▸ hce⟩
  have hready : Heap.Sweepable { heap with
      arena := m.arena
      tasks := heap.quietTasks level
      collecting := true
      counters := { heap.counters with taskWaits := waits, phase } } :=
    sweepable_marked hs htidy hforth hback
  obtain ⟨hswept, hfreed⟩ := Swept.all hready hsweep
  obtain ⟨arena₁, strings, generations, journal₁, rfl⟩ := hswept.rest
  obtain ⟨arena, rfl, hbooksp, hkept, hcellsp⟩ := run_pruneRemembered hprune
  change arena.books = arena₁.books at hbooksp
  -- what is alive in the end, and through which stages it went
  have hend : ∀ h, arena.get? h = (arena₁.get? h).map fun x =>
      if h ∈ heap.remembered.toList ∧ pointsYounger arena₁ x = false then x.forgotten else x :=
    get?_pruned hcellsp
  have hup : ∀ {h d}, arena.get? h = some d → ∃ c e x, heap.arena.get? h = some c ∧
      c.MarkedIn heap level records h e ∧ level.frees e = false ∧ arena₁.get? h = some x ∧
      x.unlinked = (level.swept (heap.quietTasks level) h e).unlinked ∧
      d = if h ∈ heap.remembered.toList ∧ pointsYounger arena₁ x = false then x.forgotten else x := by
    intro h d hd
    rw [hend] at hd
    obtain ⟨x, hx, rfl⟩ := Option.map_eq_some_iff.mp hd
    obtain ⟨e, he, hfrees, hxe⟩ := hswept.get? htidy hx
    obtain ⟨c, hc, hce⟩ := hmid he
    exact ⟨c, e, x, hc, hce, hfrees, hx, hxe, rfl⟩
  have hdown : ∀ {h c}, heap.arena.get? h = some c → heap.Keeps level records h c →
      ∃ d, arena.get? h = some d := by
    intro h c hc hkeeps
    obtain ⟨e, he, hce⟩ := hforth hc
    obtain ⟨x, hx, -⟩ := hswept.kept htidy he (hce.frees.mpr hkeeps)
    have hx : arena₁.get? h = some x := hx
    rw [hend, hx]
    exact ⟨_, rfl⟩
  have hgenerations : ∀ h, (arena.get? h).map (·.header.generation) =
      (arena₁.get? h).map (·.header.generation) := by
    intro h
    rw [hend, Option.map_map]
    refine Option.map_congr ?_
    intro x _
    simp only [Function.comp]
    split <;> rfl
  have hpoints : ∀ {h d x}, arena₁.get? h = some x →
      d = (if h ∈ heap.remembered.toList ∧ pointsYounger arena₁ x = false then x.forgotten else x) →
      pointsYounger arena d = pointsYounger arena₁ x := by
    rintro h d x hx rfl
    refine pointsYounger_congr hgenerations ?_ ?_
    · split <;> rfl
    · split <;> rfl
  have hcontains : ∀ {h c e}, heap.arena.get? h = some c → c.MarkedIn heap level records h e →
      (!arena.contains h) = level.frees e := by
    intro h c e hc hce
    have hkept : arena.contains h = true ↔ level.frees e = false := by
      rw [hce.frees]
      constructor
      · intro hlive
        obtain ⟨d, hd⟩ := contains_iff.mp hlive
        obtain ⟨c', e', -, hc', hce', hfrees, -⟩ := hup hd
        rw [hc, Option.some.injEq] at hc'
        exact hc' ▸ hce'.frees.mp hfrees
      · intro hkeeps
        exact contains_iff.mpr (hdown hc hkeeps)
    cases hfrees : level.frees e with
    | true =>
      rw [hfrees] at hkept
      simpa using hkept
    | false => simp [hkept.mpr hfrees]
  have hany : ∀ (p : Cell → Bool) (q : Cell → Bool) h,
      (∀ {c e : Cell}, c.MarkedIn heap level records h e → q e = p c) →
      (m.arena.cellAt? h).any (fun e => level.frees e && q e) =
        ((heap.arena.get? h).any p && !arena.contains h) := by
    intro p q h hpq
    rw [any_cellAt? fun c hfree => by simp [Level.frees, Level.sweeps, hfree]]
    cases hc : heap.arena.get? h with
    | none =>
      have hnone : m.arena.get? h = none := by
        by_contra hsome
        obtain ⟨e, he⟩ := Option.ne_none_iff_exists'.mp hsome
        obtain ⟨c, hc', -⟩ := hmid he
        rw [hc] at hc'
        cases hc'
      rw [hnone]
      rfl
    | some c =>
      obtain ⟨e, he, hce⟩ := hforth hc
      rw [he, Option.any_some, Option.any_some, hcontains hc hce, hpq hce, Bool.and_comm]
  have hsamep : SameBut Cell.forgotten arena₁ arena := by
    refine ⟨hbooksp, ?_⟩
    intro h
    rw [hcellsp h, Option.map_map]
    refine Option.map_congr ?_
    intro c _
    simp only [Function.comp]
    split <;> rfl
  have hends : ∀ {h c d}, heap.arena.get? h = some c → arena.get? h = some d →
      ∃ x, arena₁.get? h = some x ∧ pointsYounger arena d = pointsYounger arena₁ x ∧
        c.Survives level d ∧ (d.flags.readyToFinalize = true ↔ heap.Ripens level records h) ∧
        (d.flags.task = if level.sweeps c then
            { beingComputed := (heap.quietTasks level).isPending h
              inUseByTask := (heap.quietTasks level).isInUse h }
          else
            Marking.Traces.taskFlags (heap.quietTasks level) (heap.quietTasks level).held h c.flags) ∧
        (d.flags.remembered = true ↔ c.flags.remembered = true ∧
          ¬ (h ∈ heap.remembered.toList ∧ pointsYounger arena₁ x = false)) := by
    intro h c d hc hd
    obtain ⟨c', e, x, hc', hce, hfrees, hx, hxe, hdx⟩ := hup hd
    rw [hc, Option.some.injEq] at hc'
    subst hc'
    obtain ⟨d', hd', hsurvives⟩ :=
      hce.ends (p := h ∈ heap.remembered.toList ∧ pointsYounger arena₁ x = false) hc hfrees hxe
    rw [← hdx] at hd'
    exact ⟨x, hx, hpoints hx hdx, hd' ▸ hsurvives⟩
  refine ⟨records, hchain, ⟨_, _, _, _, _, _, _, rfl⟩, ?_, ?_, ?_, hdown, ?_, ?_, ?_, ?_, ?_, ?_, ?_,
    ?_, ?_, ?_⟩
  · exact hsamep.tidy (fun _ => rfl) hswept.ready.tidy
  · obtain ⟨on, hon⟩ := hswept.ready.chained
    refine ⟨on, hon.congr ?_⟩
    intro h _ x hx hcached
    have hx : arena₁.get? h = some x := hx
    obtain ⟨d, hd, hdx⟩ := hsamep.get? (fun _ => rfl) hx
    have hflag : d.flags.cached = x.flags.cached :=
      (congrArg (fun c : Cell => c.header.flags.cached) hdx :)
    exact ⟨d, hd, hflag.trans hcached, (congrArg Cell.attrib hdx :)⟩
  · intro h d hd
    obtain ⟨c, e, -, hc, hce, hfrees, -⟩ := hup hd
    exact ⟨c, hc, hce.frees.mp hfrees⟩
  · intro h c d hc hd
    obtain ⟨-, -, -, hsurvives, -⟩ := hends hc hd
    exact hsurvives
  · intro h d hd
    obtain ⟨c, -, -, hc, -⟩ := hup hd
    obtain ⟨-, -, -, -, hready, -⟩ := hends hc hd
    exact hready
  · intro h c d hc hd
    obtain ⟨-, -, -, -, -, htask, -⟩ := hends hc hd
    exact htask
  · intro h c d hc hd
    obtain ⟨x, -, hyoung, -, -, -, hremembered⟩ := hends hc hd
    change _ ↔ _ ∧ pointsYounger arena d = true
    rw [hremembered, hyoung]
    refine and_congr_right fun hflag => ?_
    have hmem : h ∈ heap.remembered.toList := Array.mem_toList_iff.mpr (hs.listed.mpr ⟨c, hc, hflag⟩)
    simp only [hmem, true_and, Bool.not_eq_false]
  · change kept.toArray.toList = _
    rw [hkept]
    refine List.filter_congr ?_
    intro h _
    change (arena₁.get? h).any (pointsYounger arena₁) = (arena.get? h).any (pointsYounger arena)
    cases hx : arena₁.get? h with
    | none => rw [hend, hx, Option.map_none, Option.any_none, Option.any_none]
    | some x => rw [hend, hx, Option.map_some, Option.any_some, Option.any_some, hpoints hx rfl]
  · intro n
    have hlists : ∀ n, arena.freeList n = arena₁.freeList n := by
      intro n
      simp only [freeList, freeLists_of_books hbooksp]
    have hlistsm : m.arena.freeList n = heap.arena.freeList n := by
      simp only [freeList, freeLists_of_books hbooksm]
    have hfree := hswept.free n
    change arena₁.freeList n = (m.arena.positions.filter _).reverse ++ m.arena.freeList n at hfree
    change arena.freeList n = _
    rw [hlists, hfree, hlistsm, hpositions]
    congr 2
    refine List.filter_congr ?_
    intro h _
    have hdies := hany (fun _ => true) (fun _ => true) h fun _ => rfl
    simp only [Bool.and_true] at hdies
    have hlive : (heap.arena.get? h).any (fun _ => true) = heap.arena.contains h := by
      unfold contains
      cases heap.arena.get? h <;> rfl
    rw [hlive] at hdies
    change ((m.arena.cellAt? h).any level.frees && m.arena.classAt? h == some n) = _
    rw [hdies, classAt?_eq_of_shape hshape]
  · intro g
    rw [ho, hfreed g]
    change m.arena.positions.countP _ = _
    rw [hpositions]
    refine List.countP_congr ?_
    intro h _
    rw [Arena.loses, hany (fun c => c.header.generation == g) (fun e => e.header.generation == g) h
      fun hce => by rw [hce.generation]]
  · rw [ho]
    exact hmarked
  · exact hnewly
  · rw [ho]

theorem collect_collected (hs : heap.Sound)
    (hrun : (collect level reason).run heap = .ok (o, heap')) :
    ∃ records, Collected level records heap heap' o := by
  obtain ⟨-, cleared, m, freed, swept, waits, phase, hbooks, hcells, hmark, hsweep, kept, pruned,
    strategy, counters, journal, hprune, rfl, -, ho, -⟩ := run_collect hrun
  exact collected_of_phases hs hbooks hcells hmark hsweep hprune ho

theorem collect_strategy (hs : heap.Sound) (hrun : (collect level reason).run heap = .ok (o, heap')) :
    heap'.strategy = heap.strategy.record level heap.objectCounts o.freed := by
  obtain ⟨-, cleared, m, freed, swept, waits, phase, hbooks, hcells, hmark, hsweep, kept, pruned,
    _, counters, journal, hprune, rfl, -, ho, -, rfl⟩ := run_collect hrun
  obtain ⟨records, -, htidy, -, -, -, hforth, hback⟩ := run_marked hs hbooks hcells hmark
  obtain ⟨hswept, -⟩ := Swept.all (sweepable_marked hs htidy hforth hback) hsweep
  obtain ⟨_, _, _, _, rfl⟩ := hswept.rest
  obtain ⟨_, rfl, -⟩ := run_pruneRemembered hprune
  rw [ho]

end HeapM

end ManagedHeap
