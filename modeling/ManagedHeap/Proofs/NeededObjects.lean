import ManagedHeap.Proofs.ReachedObjects

/-!
# A full collection keeps just what is needed

At the full level everything but the permanent objects is covered, and all names are
followed. What the marking retains is then the least set that holds the roots, is closed
under edges, and holds what the records with live keys refer to.
-/

namespace ManagedHeap

namespace Heap

/-- The object is permanent. -/
def PermanentAt (heap : Heap) (h : Handle) : Prop :=
  ∃ c, heap.arena.get? h = some c ∧ c.flags.permanent = true

/-- The least set of live objects that holds the roots, is closed under edges, and holds the
value and the finalizer of every record of the chain that is not ready and whose key is
permanent or in the set. -/
inductive Needed (heap : Heap) (tasks : Tasks) (records : List Handle) : Handle → Prop
  | root {h : Handle} {c : Cell} : heap.Root tasks h → heap.arena.get? h = some c →
      Needed heap tasks records h
  | edge {h k : Handle} {c d : Cell} : Needed heap tasks records h →
      heap.arena.get? h = some c → c.flags.permanent = false → k ∈ c.edges true →
      heap.arena.get? k = some d → Needed heap tasks records k
  | value {r k : Handle} {f : WeakFields} {d : Cell} : r ∈ records → heap.arena.Record r f →
      ¬ heap.arena.Ready r → Needed heap tasks records f.key →
      (k = f.value ∨ k = f.finalizer) → heap.arena.get? k = some d → Needed heap tasks records k
  | permanent {r k : Handle} {f : WeakFields} {d : Cell} : r ∈ records →
      heap.arena.Record r f → ¬ heap.arena.Ready r → heap.PermanentAt f.key →
      (k = f.value ∨ k = f.finalizer) → heap.arena.get? k = some d → Needed heap tasks records k

/-- The fields of the records that are ready after a collection. -/
def ReadyField (heap heap' : Heap) (records : List Handle) (k : Handle) : Prop :=
  ∃ r ∈ records, heap'.arena.Ready r ∧
    ∃ f, heap.arena.Record r f ∧ k ∈ [f.key, f.value, f.finalizer]

end Heap

theorem Level.covers_full (g : Generation) : Level.covers .full g = true :=
  decide_eq_true (generation_index_le g)

namespace Heap

section Full

open Arena

variable {heap heap' : Heap} {records : List Handle} {h k : Handle} {c : Cell} {o : Outcome}

theorem covered_full (hc : heap.arena.get? h = some c) :
    heap.arena.Covered (heap.scan .full) h ↔ c.flags.permanent = false := by
  have hspares : (heap.scan .full).spares c.header = c.flags.permanent := by
    simp only [Scan.spares, Heap.scan, Level.covers_full, Bool.not_true, Bool.or_false,
      Cell.flags]
  constructor
  · rintro ⟨d, hd, hcovered⟩
    rw [hc, Option.some.injEq] at hd
    rw [← hspares, hd, hcovered]
  · intro hperm
    exact ⟨c, hc, hspares.trans hperm⟩

theorem spared_full : heap.arena.Spared (heap.scan .full) h ↔ heap.PermanentAt h := by
  constructor
  · rintro ⟨c, hc, hspares⟩
    refine ⟨c, hc, ?_⟩
    by_contra hperm
    exact not_covered_of_spared ⟨c, hc, hspares⟩ ((covered_full hc).mpr (by simpa using hperm))
  · rintro ⟨c, hc, hperm⟩
    refine ⟨c, hc, ?_⟩
    by_contra hspares
    have hcovered : heap.arena.Covered (heap.scan .full) h := ⟨c, hc, by simpa using hspares⟩
    rw [covered_full hc, hperm] at hcovered
    exact nomatch hcovered

theorem withNames_full (hs : heap.Sound) : (heap.scan .full).withNames = true :=
  decide_eq_true hs.names

theorem not_permanentAt (hc : heap.arena.get? h = some c) (hperm : c.flags.permanent = false) :
    ¬ heap.PermanentAt h := by
  rintro ⟨d, hd, hpermd⟩
  rw [hc, Option.some.injEq] at hd
  rw [← hd, hperm] at hpermd
  exact nomatch hpermd

theorem root_of_start (hchain : heap.arena.weakRecords heap.weak = .ok records)
    (hstart : heap.Start .full records h) : heap.Root (heap.quietTasks .full) h := by
  rcases hstart with hroot | hheld | hrecord | ⟨r, -, c, -, hout, -⟩
  · rcases List.mem_append.mp hroot with hroot | hsymbol
    · rcases List.mem_append.mp hroot with hroot | hprotected
      · exact .inl hroot
      · exact .inr (.inl hprotected)
    · exact .inr (.inr (.inl hsymbol))
  · exact .inr (.inr (.inr (.inl hheld)))
  · exact .inr (.inr (.inr (.inr ⟨records, hchain, hrecord⟩)))
  · rw [show (heap.scan .full).level = .full from rfl, Level.covers_full] at hout
    exact nomatch hout

theorem needed_of_retains (hs : heap.Sound)
    (hchain : heap.arena.weakRecords heap.weak = .ok records)
    (hr : heap.Retains .full records h) : heap.Needed (heap.quietTasks .full) records h := by
  induction hr with
  | seed hstart hcovered =>
    obtain ⟨c, hc, -⟩ := hcovered
    exact .root (root_of_start hchain hstart) hc
  | edge hr hc hk hcovered ih =>
    obtain ⟨d, hd, -⟩ := hcovered
    rw [withNames_full hs] at hk
    exact .edge ih hc ((covered_full hc).mp (Retained.covered hr)) hk hd
  | value hmem hf hnot _ hk hcovered ih =>
    obtain ⟨d, hd, -⟩ := hcovered
    exact .value hmem hf hnot ih hk hd
  | spared hmem hf hnot hkey hk hcovered =>
    obtain ⟨d, hd, -⟩ := hcovered
    exact .permanent hmem hf hnot (spared_full.mp hkey) hk hd

theorem permanent_or_covered (hc : heap.arena.get? h = some c) :
    heap.PermanentAt h ∨ heap.arena.Covered (heap.scan .full) h := by
  cases hperm : c.flags.permanent with
  | true => exact .inl ⟨c, hc, hperm⟩
  | false => exact .inr ((covered_full hc).mpr hperm)

theorem retains_of_needed (hs : heap.Sound)
    (hchain : heap.arena.weakRecords heap.weak = .ok records)
    (hn : heap.Needed (heap.quietTasks .full) records h) :
    heap.PermanentAt h ∨ heap.Retains .full records h := by
  induction hn with
  | root hroot hc => exact (permanent_or_covered hc).imp_right (.seed (hroot.start hchain))
  | edge _ hc hperm hk hd ih =>
    have hr := ih.resolve_left (not_permanentAt hc hperm)
    refine (permanent_or_covered hd).imp_right fun hcovered => .edge hr hc ?_ hcovered
    rw [withNames_full hs]
    exact hk
  | value hmem hf hnot _ hk hd ih =>
    refine (permanent_or_covered hd).imp_right fun hcovered => ?_
    rcases ih with hkey | hkey
    · exact .spared hmem hf hnot (spared_full.mpr hkey) hk hcovered
    · exact .value hmem hf hnot hkey hk hcovered
  | permanent hmem hf hnot hkey hk hd =>
    exact (permanent_or_covered hd).imp_right (.spared hmem hf hnot (spared_full.mpr hkey) hk)

theorem key_alive_iff (hs : heap.Sound)
    (hchain : heap.arena.weakRecords heap.weak = .ok records) :
    (heap.Retains .full records h ∨ heap.arena.Spared (heap.scan .full) h) ↔
      (heap.Needed (heap.quietTasks .full) records h ∨ heap.PermanentAt h) := by
  constructor
  · rintro (hr | hspared)
    · exact .inl (needed_of_retains hs hchain hr)
    · exact .inr (spared_full.mp hspared)
  · rintro (hn | hperm)
    · exact (retains_of_needed hs hchain hn).symm.imp_right spared_full.mpr
    · exact .inr (spared_full.mpr hperm)

end Full

end Heap

namespace Collected

open Arena

variable {level : Level} {records : List Handle} {heap heap' : Heap} {o : Outcome}
  {h k : Handle} {c : Cell}

theorem record_survives (hcol : Collected level records heap heap' o) (hmem : h ∈ records)
    (hc : heap.arena.get? h = some c) : ∃ d, heap'.arena.get? h = some d :=
  hcol.stayed hc (keeps_of_start hc (.inr (.inr (.inl hmem))))

theorem ready_iff (hcol : Collected level records heap heap' o) (hmem : h ∈ records)
    (hc : heap.arena.get? h = some c) : heap'.arena.Ready h ↔
      ReadyAfter (heap.scan level) heap.arena (heap.Start level records) records h := by
  obtain ⟨d, hd⟩ := hcol.record_survives hmem hc
  have hready := hcol.ready hd
  constructor
  · rintro ⟨e, he, hflag⟩
    rw [hd, Option.some.injEq] at he
    subst he
    rcases hready.mp hflag with hr | ⟨-, hr⟩
    · exact .inl hr
    · exact hr
  · intro hr
    exact ⟨d, hd, hready.mpr (.inr ⟨hmem, hr⟩)⟩

theorem readied_iff {f : WeakFields} (hcol : Collected level records heap heap' o)
    (hmem : h ∈ records) (hf : heap.arena.Record h f) (hnot : ¬ heap.arena.Ready h) :
    heap'.arena.Ready h ↔
      ¬ (heap.Retains level records f.key ∨ heap.arena.Spared (heap.scan level) f.key) := by
  obtain ⟨c, hc, -⟩ := id hf
  rw [hcol.ready_iff hmem hc]
  constructor
  · rintro (hr | ⟨g, hg, hdead⟩)
    · exact absurd hr hnot
    · exact hf.unique hg ▸ hdead
  · intro hdead
    exact .inr ⟨f, hf, hdead⟩

theorem needed_of_lingers (hcol : Collected .full records heap heap' o) (hs : heap.Sound)
    (hl : heap.Lingers .full records h) :
    heap.Needed (heap.quietTasks .full) records h ∨
      heap.ReachedFrom (heap.ReadyField heap' records) h := by
  induction hl with
  | retained hr => exact .inl (Heap.needed_of_retains hs hcol.chain hr)
  | field hmem hafter hf hk hcovered =>
    obtain ⟨d, hd, -⟩ := hcovered
    obtain ⟨c, hc, -⟩ := id hf
    exact .inr (.start ⟨_, hmem, (hcol.ready_iff hmem hc).mpr hafter, _, hf, hk⟩ hd)
  | edge hl hc hk hcovered ih =>
    obtain ⟨d, hd, -⟩ := hcovered
    have hperm := (Heap.covered_full hc).mp hl.covered
    rw [Heap.withNames_full hs] at hk
    exact ih.imp (.edge · hc hperm hk hd) (.edge · hc hperm hk hd)

theorem lingers_of_reached (hcol : Collected .full records heap heap' o) (hs : heap.Sound)
    (hr : heap.ReachedFrom (heap.ReadyField heap' records) h) :
    heap.PermanentAt h ∨ heap.Lingers .full records h := by
  induction hr with
  | start hfield hd =>
    obtain ⟨r, hmem, hready, f, hf, hk⟩ := hfield
    obtain ⟨c, hc, -⟩ := id hf
    exact (Heap.permanent_or_covered hd).imp_right
      (.field hmem ((hcol.ready_iff hmem hc).mp hready) hf hk)
  | edge _ hc hperm hk hd ih =>
    have hl := ih.resolve_left (Heap.not_permanentAt hc hperm)
    refine (Heap.permanent_or_covered hd).imp_right (.edge hl hc ?_)
    rw [Heap.withNames_full hs]
    exact hk

theorem survives_iff (hcol : Collected .full records heap heap' o) (hs : heap.Sound) :
    heap'.arena.contains h = true ↔ ∃ c, heap.arena.get? h = some c ∧
      (c.flags.permanent = true ∨ heap.Needed (heap.quietTasks .full) records h ∨
        heap.ReachedFrom (heap.ReadyField heap' records) h ∨ c.IsName) := by
  rw [contains_iff]
  constructor
  · rintro ⟨d, hd⟩
    obtain ⟨c, hc, hout | hl | hname⟩ := hcol.came hd
    · refine ⟨c, hc, .inl ?_⟩
      by_contra hperm
      have hlt := Level.lt_of_not_sweeps (get?_eq_some.mp hc).2 (by simpa using hperm) hout
      exact absurd (Level.generation_index_le c.header.generation) (Nat.not_le.mpr hlt)
    · exact ⟨c, hc, .inr ((needed_of_lingers hcol hs hl).imp_right .inl)⟩
    · exact ⟨c, hc, .inr (.inr (.inr hname))⟩
  · rintro ⟨c, hc, hperm | hneeded | hreached | hname⟩
    · obtain ⟨d, hd, -⟩ := hcol.permanent hc hperm
      exact ⟨d, hd⟩
    · rcases Heap.retains_of_needed hs hcol.chain hneeded with ⟨e, he, hperm⟩ | hr
      · obtain ⟨d, hd, -⟩ := hcol.permanent he hperm
        exact ⟨d, hd⟩
      · exact hcol.stayed hc (.inr (.inl (.retained hr)))
    · rcases lingers_of_reached hcol hs hreached with ⟨e, he, hperm⟩ | hl
      · obtain ⟨d, hd, -⟩ := hcol.permanent he hperm
        exact ⟨d, hd⟩
      · exact hcol.stayed hc (.inr (.inl hl))
    · exact hcol.stayed hc (.inr (.inr hname))

end Collected

end ManagedHeap
