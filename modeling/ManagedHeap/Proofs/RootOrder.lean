import ManagedHeap.Proofs.NeededObjects

/-!
# The order of the roots does not matter

The symbol table, the registry of tasks and the remembered list are visited in some order.
A collection does the same for every order.
-/

namespace ManagedHeap

namespace PendingObjects

variable {p q : PendingObjects} {h : Handle}

theorem get?_of_mem {u : TaskUse} (hp : (p.entries.map Prod.fst).Nodup)
    (hm : (h, u) ∈ p.entries) : p.get? h = some u := by
  obtain ⟨entries, released⟩ := p
  simp only [get?] at hp hm ⊢
  induction entries with
  | nil => exact absurd hm List.not_mem_nil
  | cons e es ih =>
    rw [List.map_cons, List.nodup_cons] at hp
    rw [List.find?_cons]
    rcases List.mem_cons.mp hm with rfl | hm
    · simp
    · have hne : (e.1 == h) = false := by
        refine beq_eq_false_iff_ne.mpr ?_
        rintro rfl
        exact hp.1 (List.mem_map.mpr ⟨_, hm, rfl⟩)
      rw [hne]
      exact ih hp.2 hm

theorem mem_of_get? {u : TaskUse} (hu : p.get? h = some u) : (h, u) ∈ p.entries := by
  obtain ⟨e, he, rfl⟩ := Option.map_eq_some_iff.mp hu
  have hkey : e.1 = h := by simpa using List.find?_some he
  exact hkey ▸ List.mem_of_find?_eq_some he

theorem get?_perm (hp : (p.entries.map Prod.fst).Nodup) (hpq : p.entries.Perm q.entries) :
    q.get? h = p.get? h := by
  have hq : (q.entries.map Prod.fst).Nodup := (hpq.map Prod.fst).nodup_iff.mp hp
  cases hu : p.get? h with
  | some u => exact get?_of_mem hq (hpq.mem_iff.mp (mem_of_get? hu))
  | none =>
    cases hv : q.get? h with
    | none => rfl
    | some v =>
      rw [get?_of_mem hp (hpq.mem_iff.mpr (mem_of_get? hv))] at hu
      exact nomatch hu

end PendingObjects

/-- The same tasks, perhaps with the registry in another order. -/
structure Tasks.Alike (t u : Tasks) : Prop where
  scheduler : u.scheduler = t.scheduler
  entries : t.registry.entries.Perm u.registry.entries

namespace Tasks.Alike

variable {t u : Tasks} {h : Handle}

theorem use (hp : (t.registry.entries.map Prod.fst).Nodup) (htu : t.Alike u) :
    u.registry.use h = t.registry.use h := by
  unfold PendingObjects.use
  rw [PendingObjects.get?_perm hp htu.entries]

theorem isPending (hp : (t.registry.entries.map Prod.fst).Nodup) (htu : t.Alike u) :
    u.isPending h = t.isPending h := by
  unfold Tasks.isPending PendingObjects.isPending
  rw [htu.scheduler, htu.use hp]

theorem isInUse (hp : (t.registry.entries.map Prod.fst).Nodup) (htu : t.Alike u) :
    u.isInUse h = t.isInUse h := by
  unfold Tasks.isInUse PendingObjects.isInUse
  rw [htu.scheduler, htu.use hp]

theorem held (htu : t.Alike u) : t.held.Perm u.held := by
  unfold Tasks.held
  rw [htu.scheduler]
  split
  · exact .refl _
  · exact (htu.entries.filter _).map _
  · exact (htu.entries.filter _).map _

theorem releaseCached (htu : t.Alike u) : t.releaseCached.Alike u.releaseCached := by
  unfold Tasks.releaseCached
  rw [htu.scheduler]
  split
  · exact htu
  · exact htu
  · exact ⟨rfl, htu.entries.filter _⟩

theorem await (htu : t.Alike u) :
    ((t.awaitOutput h).awaitInput h).Alike ((u.awaitOutput h).awaitInput h) := by
  obtain ⟨kind, p⟩ := t
  obtain ⟨_, q⟩ := u
  obtain ⟨rfl, hentries⟩ := htu
  rename_i kind
  cases kind with
  | none => exact ⟨rfl, hentries⟩
  | registry => exact ⟨rfl, (hentries.map _).map _⟩
  | minimal => exact ⟨rfl, (hentries.map _).map _⟩

theorem awaitAll (htu : t.Alike u) (hs : List Handle) : (t.awaitAll hs).Alike (u.awaitAll hs) := by
  induction hs generalizing t u with
  | nil => exact htu
  | cons h hs ih => exact ih htu.await

end Tasks.Alike

namespace PendingObjects

theorem settle_eq (p : PendingObjects) (h : Handle) :
    (p.settleOutputs h).settleInputs h = p.modify h fun _ => {} := by
  simp only [settleOutputs, settleInputs, modify, List.map_map]
  congr 1
  refine List.map_congr_left fun e _ => ?_
  by_cases he : e.1 = h <;> simp [he]

theorem settle_comm (p : PendingObjects) (h k : Handle) :
    (p.modify h fun _ => {}).modify k (fun _ => {}) =
      (p.modify k fun _ => {}).modify h fun _ => {} := by
  simp only [modify, List.map_map]
  congr 1
  refine List.map_congr_left fun e _ => ?_
  obtain ⟨x, u⟩ := e
  by_cases hh : x = h
  · subst hh
    by_cases hk : x = k <;> simp [hk]
  · by_cases hk : x = k
    · subst hk
      simp [hh]
    · simp [hh, hk]

end PendingObjects

theorem Tasks.await_comm (t : Tasks) (h k : Handle) :
    (((t.awaitOutput h).awaitInput h).awaitOutput k).awaitInput k =
      (((t.awaitOutput k).awaitInput k).awaitOutput h).awaitInput h := by
  obtain ⟨kind, p⟩ := t
  have hsettle : (((p.settleOutputs h).settleInputs h).settleOutputs k).settleInputs k =
      (((p.settleOutputs k).settleInputs k).settleOutputs h).settleInputs h := by
    simp only [PendingObjects.settle_eq]
    exact p.settle_comm h k
  cases kind with
  | none => rfl
  | registry => exact congrArg (Tasks.mk .registry) hsettle
  | minimal => exact congrArg (Tasks.mk .minimal) hsettle

theorem Tasks.awaitAll_perm (t : Tasks) {hs ks : List Handle} (hp : hs.Perm ks) :
    t.awaitAll hs = t.awaitAll ks := by
  unfold awaitAll
  exact hp.foldl_eq' (fun h _ k _ t => t.await_comm h k) t

/-- The same heap, with what a collection starts from in another order. -/
structure Heap.Reordered (heap other : Heap) : Prop where
  rest : ∃ roots protect symbols tasks remembered,
    other = { heap with roots, protect, symbols, tasks, remembered }
  roots : heap.roots.handles.Perm other.roots.handles
  protect : heap.protect.slots.toList.Perm other.protect.slots.toList
  symbols : heap.symbols.entries.Perm other.symbols.entries
  tasks : heap.tasks.Alike other.tasks
  remembered : heap.remembered.toList.Perm other.remembered.toList

namespace Heap.Reordered

variable {heap other : Heap} {level : Level} {records : List Handle} {h : Handle}

theorem arena (hr : heap.Reordered other) : other.arena = heap.arena := by
  obtain ⟨_, _, _, _, _, hrest⟩ := hr.rest
  rw [hrest]

theorem weak (hr : heap.Reordered other) : other.weak = heap.weak := by
  obtain ⟨_, _, _, _, _, hrest⟩ := hr.rest
  rw [hrest]

theorem config (hr : heap.Reordered other) : other.config = heap.config := by
  obtain ⟨_, _, _, _, _, hrest⟩ := hr.rest
  rw [hrest]

theorem strings (hr : heap.Reordered other) : other.strings = heap.strings := by
  obtain ⟨_, _, _, _, _, hrest⟩ := hr.rest
  rw [hrest]

theorem quietTasks (hr : heap.Reordered other) (level : Level) :
    (heap.quietTasks level).Alike (other.quietTasks level) := by
  have hreleased := hr.tasks.releaseCached
  unfold Heap.quietTasks
  split
  · rw [hr.arena, ← Tasks.awaitAll_perm _ (hreleased.held.filter _)]
    exact hreleased.awaitAll _
  · exact hreleased

theorem rootList (hr : heap.Reordered other) : heap.rootList.Perm other.rootList :=
  (hr.roots.append hr.protect).append (hr.symbols.map _)

theorem start (hr : heap.Reordered other) :
    heap.Start level records h ↔ other.Start level records h := by
  have hscan : other.scan level = heap.scan level := by rw [Heap.scan, Heap.scan, hr.config]
  unfold Heap.Start Scan.Seed
  rw [hr.rootList.mem_iff, (hr.quietTasks level).held.mem_iff, hscan, hr.arena]
  simp only [hr.remembered.mem_iff]

theorem scan (hr : heap.Reordered other) : other.scan level = heap.scan level := by
  rw [Heap.scan, Heap.scan, hr.config]

theorem lingers (hr : heap.Reordered other) :
    heap.Lingers level records h ↔ other.Lingers level records h := by
  unfold Heap.Lingers
  rw [hr.scan, hr.arena]
  exact ⟨.congr (.refl _ _) fun _ => hr.start, .congr (.refl _ _) fun _ => hr.start.symm⟩

theorem ripens (hr : heap.Reordered other) :
    heap.Ripens level records h ↔ other.Ripens level records h := by
  unfold Heap.Ripens
  rw [hr.scan, hr.arena]
  exact or_congr_right (and_congr_right fun _ =>
    ⟨.congr (.refl _ _) fun _ => hr.start, .congr (.refl _ _) fun _ => hr.start.symm⟩)

theorem keeps {c : Cell} (hr : heap.Reordered other) :
    heap.Keeps level records h c ↔ other.Keeps level records h c := by
  unfold Heap.Keeps
  rw [hr.lingers]

theorem sound (hr : heap.Reordered other) (hs : heap.Sound) : other.Sound := by
  obtain ⟨roots, protect, symbols, tasks, remembered, rfl⟩ := hr.rest
  refine { hs with once := ?_, listed := ?_, registered := ?_ }
  · exact hr.remembered.nodup_iff.mp hs.once
  · intro h
    rw [← hs.listed, ← Array.mem_toList_iff, ← hr.remembered.mem_iff, Array.mem_toList_iff]
  · exact (hr.tasks.entries.map Prod.fst).nodup_iff.mp hs.registered

end Heap.Reordered

theorem Cell.header_of_lasting {c d : Cell} (hl : d.lasting = c.lasting)
    (hgeneration : d.header.generation = c.header.generation)
    (hmarked : d.flags.marked = c.flags.marked) (htask : d.flags.task = c.flags.task)
    (hremembered : d.flags.remembered = c.flags.remembered)
    (hready : d.flags.readyToFinalize = c.flags.readyToFinalize) : d.header = c.header := by
  have hheader := congrArg Cell.header hl
  obtain ⟨⟨kind, generation, flags, refcount⟩, _, _⟩ := c
  obtain ⟨⟨kind', generation', flags', refcount'⟩, _, _⟩ := d
  obtain ⟨⟩ := flags
  obtain ⟨⟩ := flags'
  simp_all [lasting, Cell.flags, Flags.task]

/-- Two heaps hold the same objects, apart from look-up caches and chain links, and the
same free cells in the same order. -/
structure Heap.SameObjects (heap other : Heap) : Prop where
  live : ∀ h, other.arena.contains h = heap.arena.contains h
  cell : ∀ {h c d}, heap.arena.get? h = some c → other.arena.get? h = some d →
    d.header = c.header ∧ d.attached = c.attached ∧ d.payload.forgetting = c.payload.forgetting
  free : ∀ n, other.arena.freeList n = heap.arena.freeList n

namespace Collected

open Arena

variable {level : Level} {records : List Handle} {heap heap' other other' : Heap} {o p : Outcome}
  {h : Handle}

theorem live_reordered (hcol : Collected level records heap heap' o)
    (hcol' : Collected level records other other' p) (hr : heap.Reordered other) :
    other'.arena.contains h = heap'.arena.contains h := by
  have hlive : ∀ {a b a' b' : Heap} {q q' : Outcome}, Collected level records a a' q →
      Collected level records b b' q' → a.arena = b.arena →
      (∀ c, a.Keeps level records h c → b.Keeps level records h c) →
      a'.arena.contains h = true → b'.arena.contains h = true := by
    intro a b a' b' q q' ha hb hsame hkeeps hlive
    obtain ⟨d, hd⟩ := contains_iff.mp hlive
    obtain ⟨c, hc, hk⟩ := ha.came hd
    rw [hsame] at hc
    exact contains_iff.mpr (hb.stayed hc (hkeeps c hk))
  refine Bool.eq_iff_iff.mpr ⟨?_, ?_⟩
  · exact hlive hcol' hcol hr.arena fun c => hr.keeps.mpr
  · exact hlive hcol hcol' hr.arena.symm fun c => hr.keeps.mp

theorem generation_reordered {x y : Cell} (hcol : Collected level records heap heap' o)
    (hcol' : Collected level records other other' p) (hr : heap.Reordered other)
    (hx : heap'.arena.get? h = some x) (hy : other'.arena.get? h = some y) :
    y.header.generation = x.header.generation := by
  obtain ⟨c, hc, -⟩ := hcol.came hx
  rw [(hcol.same hc hx).generation]
  rw [← hr.arena] at hc
  rw [(hcol'.same hc hy).generation]

theorem younger_reordered {x y : Cell} (hcol : Collected level records heap heap' o)
    (hcol' : Collected level records other other' p) (hr : heap.Reordered other)
    (hedges : y.edges true = x.edges true)
    (hgeneration : y.header.generation = x.header.generation) :
    HeapM.pointsYounger other'.arena y = HeapM.pointsYounger heap'.arena x := by
  unfold HeapM.pointsYounger
  rw [hedges, hgeneration]
  refine congrArg (List.any (x.edges true)) (funext fun k => ?_)
  have hlive := hcol.live_reordered hcol' hr (h := k)
  unfold generationBelow
  cases hx : heap'.arena.get? k with
  | none =>
    cases hy : other'.arena.get? k with
    | none => rfl
    | some y =>
      rw [contains_of_get? hy] at hlive
      obtain ⟨x, hx'⟩ := contains_iff.mp hlive.symm
      rw [hx] at hx'
      exact nomatch hx'
  | some x =>
    rw [contains_of_get? hx] at hlive
    obtain ⟨y, hy⟩ := contains_iff.mp hlive
    simp only [hy, hcol.generation_reordered hcol' hr hx hy]

theorem cell_reordered {x y : Cell} (hcol : Collected level records heap heap' o)
    (hcol' : Collected level records other other' p) (hr : heap.Reordered other)
    (hs : heap.Sound) (hx : heap'.arena.get? h = some x) (hy : other'.arena.get? h = some y) :
    y.header = x.header ∧ y.attached = x.attached ∧
      y.payload.forgetting = x.payload.forgetting := by
  obtain ⟨c, hc, -⟩ := hcol.came hx
  have hc' : other.arena.get? h = some c := by rw [hr.arena, hc]
  have hcx := hcol.same hc hx
  have hcy := hcol'.same hc' hy
  have hlasting : y.lasting = x.lasting := hcy.lasting.trans hcx.lasting.symm
  have hgeneration := hcol.generation_reordered hcol' hr hx hy
  have hregistered := Heap.quietTasks_registered level hs.registered
  have htasks := hr.quietTasks level
  refine ⟨Cell.header_of_lasting hlasting hgeneration (hcy.unmarked.trans hcx.unmarked.symm) ?_ ?_ ?_,
    Cell.attached_of_lasting hlasting, Cell.forgetting_of_lasting hlasting⟩
  · rw [hcol.task hc hx, hcol'.task hc' hy]
    unfold Marking.Traces.taskFlags
    rw [htasks.isPending hregistered, htasks.isInUse hregistered]
    simp only [htasks.held.mem_iff]
  · refine Bool.eq_iff_iff.mpr ?_
    rw [hcol.remembered hc hx, hcol'.remembered hc' hy, hcol.younger_reordered hcol' hr
      (Cell.edges_of_lasting hlasting true) hgeneration]
  · refine Bool.eq_iff_iff.mpr ?_
    rw [hcol.ready hx, hcol'.ready hy, hr.ripens]

open Classical in
theorem reordered (hcol : Collected level records heap heap' o)
    (hcol' : Collected level records other other' p) (hr : heap.Reordered other)
    (hs : heap.Sound) : heap'.SameObjects other' ∧
      p.freed = o.freed ∧ p.marked = o.marked ∧ p.newlyReady = o.newlyReady := by
  have hlive := fun k => hcol.live_reordered hcol' hr (h := k)
  refine ⟨⟨hlive, hcol.cell_reordered hcol' hr hs, ?_⟩, ?_, ?_, ?_⟩
  · intro n
    rw [hcol.free, hcol'.free, hr.arena]
    simp only [hlive]
  · have hget : ∀ g, p.freed.get g = o.freed.get g := by
      intro g
      rw [hcol.freed, hcol'.freed, hr.arena]
      simp only [hlive]
    have hparts : ∀ q : PerGeneration Nat, q = ⟨q.get .young, q.get .middle, q.get .old⟩ :=
      fun _ => rfl
    rw [hparts p.freed, hparts o.freed, hget, hget, hget]
  · rw [hcol.marked, hcol'.marked, hr.arena]
    refine List.countP_congr fun h _ => ?_
    rw [decide_eq_true_iff, decide_eq_true_iff, hr.lingers]
  · have hreadies : heap.arena.readies + p.newlyReady = heap.arena.readies + o.newlyReady := by
      have hnewly := hcol'.newly
      rw [hr.arena] at hnewly
      rw [hcol.newly, hnewly]
      refine List.countP_congr fun h _ => ?_
      rw [decide_eq_true_iff, decide_eq_true_iff, hr.ripens]
    exact Nat.add_left_cancel hreadies

end Collected

end ManagedHeap
