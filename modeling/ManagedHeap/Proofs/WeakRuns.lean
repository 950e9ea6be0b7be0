import ManagedHeap.Proofs.RecordEntries
import ManagedHeap.Proofs.RecordsUntouched

/-!
# Runs of the weak chain

What a computation does to the weak records is a list of steps, each with the heap that it leaves.
It can be long, since the foreign code of a finalizer does things of its own in between; between the
call of a finalizer and its return stands the run of that code.
-/

namespace ManagedHeap

/-- The handles that operations under way keep alive, in the order in which they were added. -/
def Heap.pinned (heap : Heap) : List Handle := heap.roots.transient.toList

inductive WeakStep
  | still
  | aside
  | collected (gone : List (Handle × Kind)) (level : Level)
  | linked (l : Link)
  | dropped (record : Handle)
  | called (c : Invocation)
  | returned (depth : Nat)
  | cut (depth : Nat)
  | renewed (config : Config)

namespace WeakStep

def entries : WeakStep → List Entry
  | still | aside => []
  | collected gone level => gone.map .loss ++ [.collected level]
  | linked l => [.linked l]
  | dropped record => [.unlinked record true]
  | called c => [.unlinked c.record true, .called c]
  | returned depth => [.left depth, .returned]
  | cut depth => [.left depth]
  | renewed config => [.opened config]

theorem nest_of_mem {d : WeakStep} {x : Entry} (hcall : ∀ c, d ≠ called c)
    (hreturn : ∀ depth, d ≠ returned depth) (hx : x ∈ d.entries) (n : Nat) : x.nest n = some n := by
  cases d with
  | collected gone level =>
    rcases List.mem_append.mp hx with hx | hx
    · obtain ⟨k, -, rfl⟩ := List.mem_map.mp hx
      cases n <;> rfl
    · rw [List.mem_singleton.mp hx]
      cases n <;> rfl
  | called c => exact absurd rfl (hcall c)
  | returned depth => exact absurd rfl (hreturn depth)
  | still | aside => exact nomatch hx
  | _ =>
    rw [List.mem_singleton.mp hx]
    cases n <;> rfl

theorem gone_of_freed {d : WeakStep} {h : Handle} {kind : Kind} (hd : .freed h kind ∈ d.entries) :
    ∃ gone level, d = collected gone level ∧ (h, kind) ∈ gone := by
  cases d with
  | collected gone level =>
    refine ⟨gone, level, rfl, ?_⟩
    simpa [entries, Entry.loss] using hd
  | _ => simp [entries] at hd

theorem reaches_collected {gone : List (Handle × Kind)} {level : Level} {x : Entry} {n : Nat}
    (hx : x ∈ (collected gone level).entries) : x.reaches n = false := by
  rcases List.mem_append.mp hx with hx | hx
  · obtain ⟨k, -, rfl⟩ := List.mem_map.mp hx
    rfl
  · rw [List.mem_singleton.mp hx]
    rfl

def Links (r : Handle) (d : WeakStep) : Prop := ∃ l, d = .linked l ∧ l.record = r

def Renews (d : WeakStep) : Prop := ∃ config, d = .renewed config

def runs (n : Nat) : WeakStep → Nat
  | returned _ => n + 1
  | renewed _ => 0
  | _ => n

end WeakStep

/-- The record is to be finalized on exit at the latest. -/
def Arena.Exits (a : Arena) (h : Handle) : Prop :=
  ∃ c, a.get? h = some c ∧ c.flags.finalizeOnExit = true

def Tally.add (t : Tally) (es : List Entry) : Tally := { t with entries := t.entries ++ es }

namespace Heap

/-- A collection takes no object that an operation keeps, no record of the chain, and nothing
that such a record watches over. -/
structure Collects (heap heap' : Heap) (gone : List (Handle × Kind)) : Prop where
  pins : heap'.pinned = heap.pinned
  chain : ∀ {records}, heap.Chain records → heap'.Chain records
  fields : ∀ {records r}, heap.Chain records → r ∈ records → heap'.fieldsOf r = heap.fieldsOf r
  pinned : ∀ {h}, h ∈ heap.pinned → heap.arena.contains h = true → heap'.arena.contains h = true
  watched : ∀ {records r f k}, heap.Chain records → r ∈ records → heap.fieldsOf r = some f →
    k ∈ f.watched → heap.arena.contains k = true → heap'.arena.contains k = true
  gone : ∀ {h kind}, (h, kind) ∈ gone →
    heap.arena.contains h = true ∧ heap'.arena.contains h = false

/-- A record that was not on the chain is put in front of it. -/
structure Links (heap heap' : Heap) (l : Link) : Prop where
  pins : heap'.pinned = heap.pinned
  contains : ∀ {h}, heap.arena.contains h = true → heap'.arena.contains h = true
  filled : ∃ f, heap'.fieldsOf l.record = some f ∧ f.watched = [l.key, l.value, l.finalizer]
  exits : l.onExit = true → heap'.arena.Exits l.record
  live : l.live = heap'.alive [l.key, l.value, l.finalizer]
  others : ∀ {h}, h ≠ l.record → heap'.fieldsOf h = heap.fieldsOf h
  chain : ∀ {records}, heap.Chain records → l.record ∉ records ∧ heap'.Chain (l.record :: records)

/-- A ready record is taken off the chain, and all its fields are emptied. -/
structure TakesOffChain (heap heap' : Heap) (r : Handle) (f : WeakFields) : Prop where
  ready : heap.arena.Ready r
  filled : heap.fieldsOf r = some f
  emptied : heap'.fieldsOf r = some .empty
  contains : ∀ {h}, heap.arena.contains h = true → heap'.arena.contains h = true
  others : ∀ {h g}, h ≠ r → heap'.fieldsOf h = some g →
    ∃ g', heap.fieldsOf h = some g' ∧ g.watched = g'.watched
  chain : ∀ {records}, heap.Chain records → r ∈ records ∧ heap'.Chain (records.erase r)

/-- The finalizer of a record that was just taken off the chain is called. -/
structure Begins (heap heap' : Heap) (c : Invocation) (f : WeakFields) : Prop
    extends heap.TakesOffChain heap' c.record f where
  key : f.key = c.key
  finalizer : f.finalizer = c.finalizer
  nonempty : c.finalizer ≠ .nil
  fields : c.fields = [.nil, .nil, .nil, .nil]
  listed : ∀ {records}, heap'.Chain records → c.chain = records
  live : c.live = heap'.alive [c.key, c.finalizer]
  pins : heap'.pinned = heap.pinned ++ [c.key, c.finalizer]
  transient : c.transient = heap'.pinned.length

def Becomes (heap heap' : Heap) : WeakStep → Prop
  | .still => heap.PreservesTally heap'
  | .aside => heap.Preserves heap'
  | .collected gone _ => heap.Collects heap' gone
  | .linked l => heap.Links heap' l
  | .dropped r => ∃ f, heap.TakesOffChain heap' r f ∧ f.finalizer = .nil ∧ heap'.pinned = heap.pinned
  | .called c => ∃ f, heap.Begins heap' c f
  | .returned _ => heap.Preserves heap'
  | .cut depth => heap.Preserves heap' ∧ heap'.pinned = heap.pinned.take depth
  | .renewed _ => heap'.Chain []

/-- What a step makes of a heap. -/
structure Performs (heap heap' : Heap) (d : WeakStep) : Prop where
  becomes : heap.Becomes heap' d
  run : heap'.finalizers.run = d.runs heap.finalizers.run
  entries : heap'.journal.ofRecords = heap.journal.ofRecords ++ d.entries

theorem Performs.of_tally {heap heap' : Heap} {d : WeakStep} (hb : heap.Becomes heap' d)
    (htally : heap'.tally = heap.tally.add d.entries) (hruns : ∀ n, d.runs n = n) :
    heap.Performs heap' d :=
  ⟨hb, (congrArg Tally.run htally).trans (hruns _).symm, congrArg Tally.entries htally⟩

end Heap

namespace Heap

/-- A record goes on watching over the same objects, which live on, and it keeps the flags that
its finalization goes by. -/
structure KeepsRecord (heap heap' : Heap) (r : Handle) : Prop where
  watched : ∀ {f}, heap.fieldsOf r = some f →
    ∃ g, heap'.fieldsOf r = some g ∧ g.watched = f.watched
  live : ∀ {f k}, heap.fieldsOf r = some f → k ∈ f.watched → heap.arena.contains k = true →
    heap'.arena.contains k = true
  ready : heap.arena.Ready r → heap'.arena.Ready r
  exits : heap.arena.Exits r → heap'.arena.Exits r

def KeepsRecords (heap heap' : Heap) : Prop :=
  ∀ ⦃records rs r⦄, heap.Chain records → heap'.Chain rs → r ∈ records → r ∈ rs →
    heap.KeepsRecord heap' r

variable {heap mid heap' : Heap} {r : Handle}

theorem KeepsRecord.refl (heap : Heap) (r : Handle) : heap.KeepsRecord heap r :=
  ⟨fun hf => ⟨_, hf, rfl⟩, fun _ _ => id, id, id⟩

theorem KeepsRecord.trans (hfirst : heap.KeepsRecord mid r) (hlast : mid.KeepsRecord heap' r) :
    heap.KeepsRecord heap' r where
  watched hf := by
    obtain ⟨g, hg, hgf⟩ := hfirst.watched hf
    obtain ⟨e, he, heg⟩ := hlast.watched hg
    exact ⟨e, he, heg.trans hgf⟩
  live hf hk hlive := by
    obtain ⟨g, hg, hgf⟩ := hfirst.watched hf
    exact hlast.live hg (hgf ▸ hk) (hfirst.live hf hk hlive)
  ready := hlast.ready ∘ hfirst.ready
  exits := hlast.exits ∘ hfirst.exits

theorem KeepsRecord.of_flags {c d : Cell} (hc : heap.arena.get? r = some c)
    (hd : heap'.arena.get? r = some d) (hflags : c.flags.Lasts d.flags)
    (hwatched : ∀ {f}, heap.fieldsOf r = some f →
      ∃ g, heap'.fieldsOf r = some g ∧ g.watched = f.watched)
    (hlive : ∀ {f k}, heap.fieldsOf r = some f → k ∈ f.watched →
      heap.arena.contains k = true → heap'.arena.contains k = true) : heap.KeepsRecord heap' r where
  watched := hwatched
  live := hlive
  ready := by
    rintro ⟨c', hc', hready⟩
    obtain rfl := Option.some.inj (hc'.symm.trans hc)
    exact ⟨d, hd, hflags.1 hready⟩
  exits := by
    rintro ⟨c', hc', hexits⟩
    obtain rfl := Option.some.inj (hc'.symm.trans hc)
    exact ⟨d, hd, hflags.2 hexits⟩

theorem Preserves.keepsRecords (hkeeps : heap.Preserves heap')
    (hflags : ∀ {h c d}, heap.arena.get? h = some c → heap'.arena.get? h = some d →
      c.flags.Lasts d.flags) : heap.KeepsRecords heap' := by
  intro records rs r hc _ hr _
  obtain ⟨-, f, hf⟩ := hc.strung.fields_of_mem hr
  obtain ⟨c, hcell, -⟩ := Option.bind_eq_some_iff.mp hf
  obtain ⟨d, hd, -⟩ := hkeeps.kept hcell
  exact .of_flags hcell hd (hflags hcell hd)
    (fun hf => ⟨_, hkeeps.fieldsOf_eq_some hf, rfl⟩) fun _ _ => hkeeps.contains

theorem PreservesFlags.keepsRecords (hpreservesFlags : heap.PreservesFlags heap') : heap.KeepsRecords heap' :=
  hpreservesFlags.toPreserves.keepsRecords hpreservesFlags.flags

theorem KeepsRecords.of_arena (harena : heap'.arena = heap.arena) : heap.KeepsRecords heap' := by
  intro records rs r _ _ _ _
  have hfields : heap'.fieldsOf r = heap.fieldsOf r := by rw [fieldsOf, harena, fieldsOf]
  exact ⟨fun hf => ⟨_, hfields.trans hf, rfl⟩, fun _ _ => harena ▸ id, harena ▸ id, harena ▸ id⟩

theorem KeepsRecords.of_nil (hc : heap'.Chain []) : heap.KeepsRecords heap' := by
  intro records rs r _ hrs _ hr
  rw [hrs.unique hc] at hr
  exact absurd hr List.not_mem_nil

end Heap

abbrev WeakRun := List (WeakStep × Heap)

def Heap.Follows : Heap → WeakRun → Heap → Prop
  | heap, [], heap' => heap' = heap
  | heap, (d, mid) :: rest, heap' => heap.Performs mid d ∧ mid.Follows rest heap'

def Heap.KeepsRecordsThroughout : Heap → WeakRun → Prop
  | _, [] => True
  | heap, (_, mid) :: rest => heap.KeepsRecords mid ∧ mid.KeepsRecordsThroughout rest

namespace WeakRun

variable {heap mid heap' : Heap} {t t' p : WeakRun} {n : Nat}

def Above (n : Nat) (t : WeakRun) : Prop := ∀ e ∈ t, ∀ x ∈ e.1.entries, x.reaches n = false

def KeepsPinnedBelow (n : Nat) (heap : Heap) (t : WeakRun) : Prop :=
  ∀ p, p <+: t → Above n p → ∀ e ∈ p, e.2.pinned.take n = heap.pinned.take n

def entries (t : WeakRun) : List Entry := t.flatMap fun e => e.1.entries

theorem follows_append :
    heap.Follows (t ++ t') heap' ↔ ∃ mid, heap.Follows t mid ∧ mid.Follows t' heap' := by
  induction t generalizing heap with
  | nil => exact ⟨fun h => ⟨heap, rfl, h⟩, fun ⟨_, rfl, h⟩ => h⟩
  | cons e t ih =>
    obtain ⟨d, first⟩ := e
    constructor
    · rintro ⟨hd, hrest⟩
      obtain ⟨mid, hmid, hlast⟩ := ih.mp hrest
      exact ⟨mid, ⟨hd, hmid⟩, hlast⟩
    · rintro ⟨mid, ⟨hd, hmid⟩, hlast⟩
      exact ⟨hd, ih.mpr ⟨mid, hmid, hlast⟩⟩

theorem keepsRecordsThroughout_append (hg : heap.KeepsRecordsThroughout t) (hf : heap.Follows t mid) (hg' : mid.KeepsRecordsThroughout t') :
    heap.KeepsRecordsThroughout (t ++ t') := by
  induction t generalizing heap with
  | nil =>
    obtain rfl : mid = heap := hf
    exact hg'
  | cons e t ih => exact ⟨hg.1, ih hg.2 hf.2⟩

theorem follows_end (hf : heap.Follows t heap') : (t = [] ∧ heap' = heap) ∨ ∃ d, (d, heap') ∈ t := by
  induction t generalizing heap with
  | nil => exact .inl ⟨rfl, hf⟩
  | cons e t ih =>
    obtain ⟨d, first⟩ := e
    obtain ⟨-, hrest⟩ := hf
    rcases ih hrest with ⟨rfl, rfl⟩ | ⟨d', hd'⟩
    · exact .inr ⟨d, List.mem_cons_self⟩
    · exact .inr ⟨d', List.mem_cons_of_mem _ hd'⟩

theorem Above.not_renews {d : WeakStep} (ha : Above n t) (he : (d, mid) ∈ t) : ¬ d.Renews := by
  rintro ⟨config, rfl⟩
  exact nomatch ha _ he _ (List.mem_singleton_self (Entry.opened config))

theorem Above.le_of_cut {depth : Nat} (ha : Above n t) (he : (.cut depth, mid) ∈ t) : n ≤ depth :=
  Nat.le_of_not_lt (of_decide_eq_false (ha _ he _ (List.mem_singleton_self (Entry.left depth))))

theorem Above.left (ha : Above n (t ++ t')) : Above n t :=
  fun e he => ha e (List.mem_append_left _ he)

theorem Above.right (ha : Above n (t ++ t')) : Above n t' :=
  fun e he => ha e (List.mem_append_right _ he)

namespace KeepsPinnedBelow

theorem nil : KeepsPinnedBelow n heap [] := by
  intro p hp _ e he
  rw [List.prefix_nil.mp hp] at he
  exact nomatch he

theorem final (hs : KeepsPinnedBelow n heap t) (hf : heap.Follows t heap') (ha : Above n t) :
    heap'.pinned.take n = heap.pinned.take n := by
  rcases follows_end hf with ⟨-, rfl⟩ | ⟨d, hd⟩
  · rfl
  · exact hs t (List.prefix_refl t) ha _ hd

theorem append (hs : KeepsPinnedBelow n heap t) (hf : heap.Follows t mid)
    (hs' : Above n t → KeepsPinnedBelow n mid t') : KeepsPinnedBelow n heap (t ++ t') := by
  intro p hp ha e he
  obtain ⟨rest, hsplit⟩ := hp
  rcases List.append_eq_append_iff.mp hsplit with ⟨back, rfl, -⟩ | ⟨p', rfl, rfl⟩
  · exact hs p (List.prefix_append p back) ha e he
  · have hp' := List.prefix_append p' rest
    rcases List.mem_append.mp he with he | he
    · exact hs t (List.prefix_refl t) ha.left e he
    · exact (hs' ha.left p' hp' ha.right e he).trans (hs.final hf ha.left)

theorem single {d : WeakStep} (hd : Above n [(d, heap')] → heap'.pinned.take n = heap.pinned.take n) :
    KeepsPinnedBelow n heap [(d, heap')] := by
  intro p hp ha e he
  rcases List.prefix_cons_iff.mp hp with rfl | ⟨p', rfl, hp'⟩
  · exact nomatch he
  · rw [List.prefix_nil.mp hp'] at ha he
    obtain rfl := List.mem_singleton.mp he
    exact hd ha

end KeepsPinnedBelow

theorem entries_single {d : WeakStep} : entries [(d, heap)] = d.entries := List.append_nil _

theorem entries_append : (t ++ t').entries = t.entries ++ t'.entries := List.flatMap_append

theorem ofRecords_of_follows (hf : heap.Follows t heap') :
    heap'.journal.ofRecords = heap.journal.ofRecords ++ t.entries := by
  induction t generalizing heap with
  | nil =>
    obtain rfl : heap' = heap := hf
    exact (List.append_nil _).symm
  | cons e t ih =>
    obtain ⟨hd, hrest⟩ := hf
    rw [ih hrest, hd.entries, List.append_assoc]
    rfl

end WeakRun

namespace Heap.Performs

variable {heap heap' : Heap} {d : WeakStep} {h : Handle}

theorem contains (hd : heap.Performs heap' d) (hsame : ¬ d.Renews) (hpin : h ∈ heap.pinned)
    (hlive : heap.arena.contains h = true) : heap'.arena.contains h = true := by
  obtain ⟨hd, -, -⟩ := hd
  cases d with
  | still =>
    have hstill : heap.PreservesTally heap' := hd
    exact hstill.contains hlive
  | aside =>
    have hkeeps : heap.Preserves heap' := hd
    exact hkeeps.contains hlive
  | collected gone level =>
    have hcollects : heap.Collects heap' gone := hd
    exact hcollects.pinned hpin hlive
  | linked l =>
    have hlinks : heap.Links heap' l := hd
    exact hlinks.contains hlive
  | dropped =>
    obtain ⟨f, htakesOffChain, -⟩ := hd
    exact htakesOffChain.contains hlive
  | called =>
    obtain ⟨f, hbegins⟩ := hd
    exact hbegins.contains hlive
  | returned =>
    have hkeeps : heap.Preserves heap' := hd
    exact hkeeps.contains hlive
  | cut => exact hd.1.contains hlive
  | renewed config => exact absurd ⟨config, rfl⟩ hsame

end Heap.Performs

theorem WeakRun.contains_of_runsOnlyGrow {heap heap' : Heap} {t : WeakRun} {n : Nat} {h : Handle}
    (hf : heap.Follows t heap') (hrunsOnlyGrow : ∀ e ∈ t, e.2.pinned.take n = heap.pinned.take n)
    (ha : t.Above n) (hpin : h ∈ heap.pinned.take n) (hlive : heap.arena.contains h = true) :
    ∀ e ∈ t, e.2.arena.contains h = true := by
  induction t generalizing heap with
  | nil => exact fun _ he => absurd he List.not_mem_nil
  | cons e t ih =>
    obtain ⟨d, mid⟩ := e
    obtain ⟨hd, hrest⟩ := hf
    have hmid : mid.arena.contains h = true :=
      hd.contains (ha.not_renews List.mem_cons_self) (List.mem_of_mem_take hpin) hlive
    have hsame : mid.pinned.take n = heap.pinned.take n := hrunsOnlyGrow _ List.mem_cons_self
    intro e he
    rcases List.mem_cons.mp he with rfl | he
    · exact hmid
    · refine ih hrest (fun e he => ?_) (fun e he => ha e (List.mem_cons_of_mem _ he))
        (hsame ▸ hpin) hmid e he
      rw [hsame]
      exact hrunsOnlyGrow e (List.mem_cons_of_mem _ he)

theorem WeakRun.mem_takeWhile_entries {t : WeakRun} {p : Entry → Bool} {x : Entry}
    (hx : x ∈ (entries t).takeWhile p) : ∃ front d mid back, t = front ++ (d, mid) :: back ∧
      x ∈ d.entries ∧ ∀ e ∈ front, ∀ y ∈ e.1.entries, p y = true := by
  induction t with
  | nil => exact nomatch hx
  | cons e t ih =>
    obtain ⟨d, mid⟩ := e
    have hnone : ∀ e ∈ ([] : WeakRun), ∀ y ∈ e.1.entries, p y = true := fun _ he => nomatch he
    change x ∈ (d.entries ++ entries t).takeWhile p at hx
    rw [List.takeWhile_append] at hx
    split at hx
    · rename_i hlength
      have hall : ∀ y ∈ d.entries, p y = true :=
        List.takeWhile_eq_self_iff.mp ((List.takeWhile_prefix p).eq_of_length hlength)
      rcases List.mem_append.mp hx with hx | hx
      · exact ⟨[], d, mid, t, rfl, hx, hnone⟩
      · obtain ⟨front, d', mid', back, rfl, hd, hfront⟩ := ih hx
        refine ⟨(d, mid) :: front, d', mid', back, rfl, hd, fun y hy => ?_⟩
        rcases List.mem_cons.mp hy with rfl | hy
        · exact hall
        · exact hfront y hy
    · exact ⟨[], d, mid, t, rfl, (List.takeWhile_prefix p).subset hx, hnone⟩

theorem WeakRun.freed_notMem {heap heap' : Heap} {t : WeakRun} {n : Nat} {h : Handle} {kind : Kind}
    (hf : heap.Follows t heap') (hrunsOnlyGrow : t.KeepsPinnedBelow n heap) (hpin : h ∈ heap.pinned.take n)
    (hlive : heap.arena.contains h = true) :
    .freed h kind ∉ (entries t).takeWhile fun e => !e.reaches n := by
  intro hfreed
  obtain ⟨front, d, mid, back, rfl, hmem, hfront⟩ := mem_takeWhile_entries hfreed
  obtain ⟨before, hbefore, hperforms, -⟩ := follows_append.mp hf
  obtain ⟨gone, level, rfl, hgone⟩ := WeakStep.gone_of_freed hmem
  have hcollects : before.Collects mid gone := hperforms.becomes
  have habove : Above n (front ++ [(.collected gone level, mid)]) := by
    intro e he x hx
    rcases List.mem_append.mp he with he | he
    · exact (Bool.not_eq_eq_eq_not ..).mp (hfront e he x hx)
    · obtain rfl := List.mem_singleton.mp he
      exact WeakStep.reaches_collected hx
  have hprefix : front ++ [(.collected gone level, mid)] <+:
      front ++ (.collected gone level, mid) :: back := ⟨back, (List.append_cons _ _ _).symm⟩
  have hthere : before.Follows [(.collected gone level, mid)] mid := ⟨hperforms, rfl⟩
  have hkept := contains_of_runsOnlyGrow (follows_append.mpr ⟨before, hbefore, hthere⟩)
    (hrunsOnlyGrow _ hprefix habove) habove hpin hlive _ (List.mem_append_right _ (List.mem_singleton_self _))
  exact Bool.false_ne_true ((hcollects.gone hgone).2.symm.trans hkept)

variable {heap mid heap' start stop : Heap} {t t' : WeakRun} {c : Invocation} {d : WeakStep}

/-- The run of a computation that leads from one heap to the other: whatever was kept before
stays kept in between, and every finalizer that was called returned. If none was running before,
none is running after. The records on the chain are kept all along. -/
structure WeakRun.Leads (t : WeakRun) (heap heap' : Heap) : Prop where
  follows : heap.Follows t heap'
  runsOnlyGrow : ∀ n ≤ heap.pinned.length, t.KeepsPinnedBelow n heap
  completed : Entry.Completed t.entries
  balanced : Entry.Balanced t.entries
  rests : heap.finalizers.running = false → heap'.finalizers.running = false
  keepsRecordsThroughout : heap.KeepsRecordsThroughout t

def Heap.Evolves (heap heap' : Heap) : Prop := ∃ t : WeakRun, t.Leads heap heap'

theorem WeakRun.KeepsPinnedBelow.length_le {n : Nat} (hn : n ≤ heap.pinned.length)
    (hsame : mid.pinned.take n = heap.pinned.take n) : n ≤ mid.pinned.length := by
  have hlength := congrArg List.length hsame
  rw [List.length_take, List.length_take] at hlength
  omega

namespace WeakRun.Leads

theorem nil : Leads [] heap heap := ⟨rfl, fun _ _ => .nil, .nil, .nil, id, trivial⟩

theorem append (ht : Leads t heap mid) (ht' : Leads t' mid heap') : Leads (t ++ t') heap heap' where
  follows := follows_append.mpr ⟨mid, ht.follows, ht'.follows⟩
  runsOnlyGrow n hn := (ht.runsOnlyGrow n hn).append ht.follows fun ha =>
    ht'.runsOnlyGrow n (KeepsPinnedBelow.length_le hn ((ht.runsOnlyGrow n hn).final ht.follows ha))
  completed := by
    rw [entries_append]
    exact ht.completed.append ht'.completed
  balanced := by
    rw [entries_append]
    exact ht.balanced.append ht'.balanced
  rests h := ht'.rests (ht.rests h)
  keepsRecordsThroughout := keepsRecordsThroughout_append ht.keepsRecordsThroughout ht.follows ht'.keepsRecordsThroughout

theorem single (hd : heap.Performs heap' d) (hcall : ∀ c, d ≠ .called c)
    (hreturn : ∀ depth, d ≠ .returned depth)
    (hrests : heap.finalizers.running = false → heap'.finalizers.running = false)
    (hpins : ∀ n ≤ heap.pinned.length, Above n [(d, heap')] →
      heap'.pinned.take n = heap.pinned.take n) (hkeepsRecords : heap.KeepsRecords heap') :
    Leads [(d, heap')] heap heap' where
  follows := ⟨hd, rfl⟩
  runsOnlyGrow n hn := .single (hpins n hn)
  completed := by
    refine .of_uncalled fun c hc => ?_
    rw [entries_single] at hc
    exact absurd (WeakStep.nest_of_mem hcall hreturn hc 0) (by simp [Entry.nest])
  balanced := by
    rw [entries_single]
    exact .of_plain fun x hx n => WeakStep.nest_of_mem hcall hreturn hx n
  rests := hrests
  keepsRecordsThroughout := ⟨hkeepsRecords, trivial⟩

end WeakRun.Leads

theorem Heap.running_of_tally {es : List Entry} (htally : heap'.tally = heap.tally.add es)
    (h : heap.finalizers.running = false) : heap'.finalizers.running = false :=
  (congrArg Tally.running htally).trans h

namespace Heap.Evolves

theorem refl (heap : Heap) : heap.Evolves heap := ⟨[], .nil⟩

theorem trans (hfirst : heap.Evolves mid) (hlast : mid.Evolves heap') : heap.Evolves heap' := by
  obtain ⟨t, ht⟩ := hfirst
  obtain ⟨t', ht'⟩ := hlast
  exact ⟨t ++ t', ht.append ht'⟩

theorem of_weakStep (hb : heap.Becomes heap' d) (htally : heap'.tally = heap.tally.add d.entries)
    (hruns : ∀ n, d.runs n = n) (hcall : ∀ c, d ≠ .called c)
    (hreturn : ∀ depth, d ≠ .returned depth)
    (hpins : ∀ n ≤ heap.pinned.length, WeakRun.Above n [(d, heap')] →
      heap'.pinned.take n = heap.pinned.take n) (hkeepsRecords : heap.KeepsRecords heap') : heap.Evolves heap' :=
  ⟨_, .single (.of_tally hb htally hruns) hcall hreturn (running_of_tally htally) hpins hkeepsRecords⟩

theorem of_preservesFlags (hpreservesFlags : heap.PreservesFlags heap') : heap.Evolves heap' := by
  refine of_weakStep (d := .still) hpreservesFlags.toPreservesTally ?_ (fun _ => rfl) nofun nofun
    (fun n _ _ => by rw [pinned, pinned, hpreservesFlags.transient]) hpreservesFlags.keepsRecords
  rw [hpreservesFlags.tally, Tally.add, WeakStep.entries, List.append_nil]

theorem of_collects {gone : List (Handle × Kind)} {level : Level}
    (hcollects : heap.Collects heap' gone)
    (htally : heap'.tally = heap.tally.add (gone.map .loss ++ [.collected level]))
    (hkeepsRecords : heap.KeepsRecords heap') : heap.Evolves heap' :=
  of_weakStep (d := .collected gone level) hcollects htally (fun _ => rfl) nofun nofun
    (fun n _ _ => by rw [hcollects.pins]) hkeepsRecords

theorem of_links {l : Link} (hlinks : heap.Links heap' l)
    (htally : heap'.tally = heap.tally.add [.linked l]) (hkeepsRecords : heap.KeepsRecords heap') :
    heap.Evolves heap' :=
  of_weakStep (d := .linked l) hlinks htally (fun _ => rfl) nofun nofun
    (fun n _ _ => by rw [hlinks.pins]) hkeepsRecords

theorem of_drops {r : Handle} {f : WeakFields} (htakesOffChain : heap.TakesOffChain heap' r f)
    (hnil : f.finalizer = .nil) (hpins : heap'.pinned = heap.pinned)
    (htally : heap'.tally = heap.tally.add [.unlinked r true]) (hkeepsRecords : heap.KeepsRecords heap') :
    heap.Evolves heap' :=
  of_weakStep (d := .dropped r) ⟨f, htakesOffChain, hnil, hpins⟩ htally (fun _ => rfl) nofun nofun
    (fun n _ _ => by rw [hpins]) hkeepsRecords

theorem of_cut {depth : Nat} (hkeeps : heap.Preserves heap')
    (hpins : heap'.pinned = heap.pinned.take depth)
    (htally : heap'.tally = heap.tally.add [.left depth]) (hkeepsRecords : heap.KeepsRecords heap') :
    heap.Evolves heap' := by
  refine of_weakStep (d := .cut depth) ⟨hkeeps, hpins⟩ htally (fun _ => rfl) nofun nofun
    (fun n _ ha => ?_) hkeepsRecords
  rw [hpins, List.take_take, Nat.min_eq_left (ha.le_of_cut List.mem_cons_self)]

theorem of_renewed {config : Config} (hchain : heap'.Chain [])
    (htally : heap'.tally = ⟨0, false, heap.tally.entries ++ [.opened config]⟩) :
    heap.Evolves heap' :=
  ⟨_, .single (d := .renewed config)
    ⟨hchain, congrArg Tally.run htally, congrArg Tally.entries htally⟩ nofun nofun
    (fun _ => congrArg Tally.running htally)
    (fun _ _ ha => absurd ⟨config, rfl⟩ (ha.not_renews List.mem_cons_self)) (.of_nil hchain)⟩

theorem of_between {opened : Heap} {hs : List Handle} (hopen : heap.Performs opened .aside)
    (hopened : opened.pinned = heap.pinned ++ hs) (hact : opened.Evolves stop)
    (hclose : stop.Performs heap' .aside) (hfirst : opened.arena = heap.arena)
    (hlast : heap'.arena = stop.arena) (hclosed : heap'.pinned.take heap.pinned.length =
      stop.pinned.take heap.pinned.length)
    (hrests : (opened.finalizers.running = false → stop.finalizers.running = false) →
      heap.finalizers.running = false → heap'.finalizers.running = false) :
    heap.Evolves heap' := by
  obtain ⟨t, ht⟩ := hact
  have hfront : ∀ n ≤ heap.pinned.length, opened.pinned.take n = heap.pinned.take n := by
    intro n hn
    rw [hopened, List.take_append_of_le_length hn]
  have hentries : WeakRun.entries ((.aside, opened) :: (t ++ [(.aside, heap')])) = t.entries := by
    change [] ++ WeakRun.entries (t ++ [(.aside, heap')]) = t.entries
    rw [WeakRun.entries_append, WeakRun.entries_single]
    exact List.append_nil _
  refine ⟨(.aside, opened) :: (t ++ [(.aside, heap')]), ?_, ?_, hentries ▸ ht.completed,
    hentries ▸ ht.balanced, hrests ht.rests,
    .of_arena hfirst, WeakRun.keepsRecordsThroughout_append ht.keepsRecordsThroughout ht.follows ⟨.of_arena hlast, trivial⟩⟩
  · exact ⟨hopen, WeakRun.follows_append.mpr ⟨stop, ht.follows, hclose, rfl⟩⟩
  · intro n hn
    have hfirst : WeakRun.KeepsPinnedBelow n heap [(.aside, opened)] := .single fun _ => hfront n hn
    have hthere : heap.Follows [(.aside, opened)] opened := ⟨hopen, rfl⟩
    refine hfirst.append hthere fun _ => ?_
    have hn' : n ≤ opened.pinned.length := WeakRun.KeepsPinnedBelow.length_le hn (hfront n hn)
    refine (ht.runsOnlyGrow n hn').append ht.follows fun _ => .single fun _ => ?_
    have hcut := congrArg (List.take n) hclosed
    rwa [List.take_take, List.take_take, Nat.min_eq_left hn] at hcut

theorem of_called (hcall : heap.Performs start (.called c)) (hbody : start.Evolves stop)
    (hreturn : stop.Performs heap' (.returned c.transient)) (hfirst : heap.KeepsRecords start)
    (hlast : stop.KeepsRecords heap') (hpins : heap'.pinned = stop.pinned.take heap.pinned.length)
    (hrunning : start.finalizers.running = heap.finalizers.running)
    (hrunning' : heap'.finalizers.running = stop.finalizers.running) : heap.Evolves heap' := by
  obtain ⟨t, ht⟩ := hbody
  obtain ⟨⟨f, hbegins⟩, -, -⟩ := id hcall
  have hfront : ∀ n ≤ heap.pinned.length, start.pinned.take n = heap.pinned.take n := by
    intro n hn
    rw [hbegins.pins, List.take_append_of_le_length hn]
  have hentries : WeakRun.entries ((.called c, start) :: (t ++ [(.returned c.transient, heap')])) =
      [.unlinked c.record true, .called c] ++ t.entries ++ [.left c.transient, .returned] := by
    change [.unlinked c.record true, .called c] ++ WeakRun.entries (t ++ [(.returned _, heap')]) = _
    rw [WeakRun.entries_append, WeakRun.entries_single, List.append_assoc]
    rfl
  refine ⟨(.called c, start) :: (t ++ [(.returned c.transient, heap')]), ?_, ?_, ?_,
    hentries ▸ ht.balanced.called, fun h => hrunning'.trans (ht.rests (hrunning.trans h)), hfirst,
    WeakRun.keepsRecordsThroughout_append ht.keepsRecordsThroughout ht.follows ⟨hlast, trivial⟩⟩
  · exact ⟨hcall, WeakRun.follows_append.mpr ⟨stop, ht.follows, hreturn, rfl⟩⟩
  · intro n hn
    have hfirst : WeakRun.KeepsPinnedBelow n heap [(.called c, start)] := .single fun _ => hfront n hn
    have hthere : heap.Follows [(.called c, start)] start := ⟨hcall, rfl⟩
    refine hfirst.append hthere fun _ => ?_
    have hn' : n ≤ start.pinned.length := WeakRun.KeepsPinnedBelow.length_le hn (hfront n hn)
    refine (ht.runsOnlyGrow n hn').append ht.follows fun _ => .single fun _ => ?_
    rw [hpins, List.take_take, Nat.min_eq_left hn]
  · rw [hentries, List.append_assoc]
    intro front c' rest hsplit
    rcases split_append hsplit with ⟨later, hfirst, rfl⟩ | ⟨middle, -, hlater⟩
    · obtain ⟨rfl, rfl⟩ : c' = c ∧ later = [] := by
        rcases front with _ | ⟨_, _ | ⟨_, front⟩⟩ <;> simp_all
      refine ⟨t.entries ++ [.left c'.transient], [], by simp, ?_, fun h hh kind hfreed => ?_⟩
      · rw [List.foldlM_append, ht.balanced 0]
        rfl
      · rw [hbegins.live, Heap.alive, List.mem_filter] at hh
        rw [hbegins.transient] at hfreed
        have hpin : h ∈ start.pinned.take start.pinned.length := by
          rw [List.take_length, hbegins.pins]
          exact List.mem_append_right _ hh.1
        have hmem : .freed h kind ∈ t.entries.takeWhile fun e => !e.reaches start.pinned.length := by
          rw [List.takeWhile_append] at hfreed
          split at hfreed
          · rename_i hall
            rw [(List.takeWhile_prefix _).eq_of_length hall]
            refine (List.mem_append.mp hfreed).resolve_right fun hlast => ?_
            exact nomatch List.mem_singleton.mp ((List.takeWhile_prefix _).subset hlast)
          · exact hfreed
        exact WeakRun.freed_notMem ht.follows (ht.runsOnlyGrow _ (Nat.le_refl _)) hpin hh.2 hmem
    · refine (ht.completed.append (.of_uncalled fun c hc => ?_)) hlater
      simp at hc

end Heap.Evolves

end ManagedHeap
