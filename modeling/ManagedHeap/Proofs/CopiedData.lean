import ManagedHeap.Proofs.QuietConstructors
import ManagedHeap.Proofs.CopyInvariant

/-!
# What a copy is read from, and what is copied at once

Data, vectors of strings and closures are copied in one piece: a new object gets the payload of
the original, and the references in it are counted.
-/

namespace ManagedHeap

namespace HeapM

variable {heap heap' : Heap} {h car cdr tag value : Handle} {c : Cell} {index : Nat} {u : PUnit}

theorem run_awaitOutput (hrun : (awaitOutput h).run heap = .ok (u, heap')) :
    ∃ tasks counters, heap' = { heap with tasks, counters } := by
  simp only [awaitOutput, run_bind, run_get] at hrun
  obtain ⟨_, _, ⟨rfl, rfl⟩, hrun⟩ := hrun
  split at hrun
  · exact ⟨_, _, (run_modify.mp hrun).symm⟩
  · obtain ⟨-, rfl⟩ := run_pure.mp hrun
    exact ⟨_, _, rfl⟩

theorem run_closureParts {c : Cell} {parts : Handle × Handle × Handle}
    (hc : heap.arena.get? h = some c)
    (hrun : (closureParts h).run heap = .ok (parts, heap')) :
    c.payload = .closure parts.1 parts.2.1 parts.2.2 := by
  simp only [closureParts, run_bind, run_payload] at hrun
  obtain ⟨_, _, ⟨d, hd, rfl, rfl⟩, hrun⟩ := hrun
  rw [hc, Option.some.injEq] at hd
  subst hd
  cases hp : c.payload <;> simp only [hp] at hrun
  case closure =>
    obtain ⟨rfl, -⟩ := run_pure.mp hrun
    rfl
  all_goals exact (run_wrongKind.mp hrun).elim

theorem run_reprotect (hrun : (reprotect h index).run heap = .ok (u, heap')) :
    heap' = { heap with protect :=
      { heap.protect with slots := heap.protect.slots.setIfInBounds index h } } := by
  simp only [reprotect, onProtect, StateT.run, ProtectStack.reprotect] at hrun
  split at hrun
  · rename_i protect hmap
    split at hmap
    · simp only [Except.map, Except.ok.injEq, Prod.mk.injEq] at hmap hrun
      rw [← hrun.2, ← hmap.2]
    · cases hmap
  · cases hrun

theorem run_pairFields (hc : heap.arena.get? h = some c) (hp : c.payload = .pair car cdr tag)
    {fields : Handle × Handle × Handle} (hrun : (pairFields h).run heap = .ok (fields, heap')) :
    fields = (car, cdr, tag) := by
  simp only [pairFields, run_bind, run_payload] at hrun
  obtain ⟨_, _, ⟨d, hd, rfl, -⟩, hrun⟩ := hrun
  rw [hc, Option.some.injEq] at hd
  subst hd
  rw [hp] at hrun
  exact (run_pure.mp hrun).1.symm

theorem run_car_pair (hc : heap.arena.get? h = some c) (hp : c.payload = .pair car cdr tag)
    (hrun : (HeapM.car h).run heap = .ok (value, heap')) : value = car := by
  obtain ⟨fields, _, hfields, hrun⟩ := run_bind.mp hrun
  rw [run_pairFields hc hp hfields] at hrun
  exact (run_pure.mp hrun).1.symm

theorem run_cdr_pair (hc : heap.arena.get? h = some c) (hp : c.payload = .pair car cdr tag)
    (hrun : (HeapM.cdr h).run heap = .ok (value, heap')) : value = cdr := by
  obtain ⟨fields, _, hfields, hrun⟩ := run_bind.mp hrun
  rw [run_pairFields hc hp hfields] at hrun
  exact (run_pure.mp hrun).1.symm

theorem run_tag_pair (hc : heap.arena.get? h = some c) (hp : c.payload = .pair car cdr tag)
    (hrun : (HeapM.tag h).run heap = .ok (value, heap')) : value = tag := by
  obtain ⟨fields, _, hfields, hrun⟩ := run_bind.mp hrun
  rw [run_pairFields hc hp hfields] at hrun
  exact (run_pure.mp hrun).1.symm

end HeapM

def Cell.classed (flags : Flags) : Cell → Cell := Cell.mapFlags fun fs =>
  { fs with object := fs.object || flags.object, s4Object := fs.s4Object || flags.s4Object }

theorem Cell.seen_classed (flags : Flags) (c : Cell) :
    (c.classed flags).seen = (c.seen.classed flags).seen :=
  seen_mapFlags (f := fun fs => { fs with
    object := fs.object || flags.object, s4Object := fs.s4Object || flags.s4Object })
    (fun _ => rfl) (fun _ => rfl) c

def Heap.Repeats (heap : Heap) (h r : Handle) (heap' : Heap) : Prop :=
  ∃ c kept, heap.arena.get? h = some c ∧ c.payload.Plain ∧
    (∀ k ∈ kept, k = h ∨ k ∈ c.payload.children true) ∧
    heap.Fills heap' c.kind c.payload.length c.payload kept (c.payload.children true) r

theorem Heap.Repeats.closure {heap heap' : Heap} {h r formals body env : Handle} {c : Cell}
    (hc : heap.arena.get? h = some c) (hkind : c.kind = .closure)
    (hp : c.payload = .closure formals body env) (hf : heap.Fills heap' .closure 0
      (.closure formals body env) [formals, body, env] [formals, body, env] r) :
    heap.Repeats h r heap' := by
  refine ⟨c, [formals, body, env], hc, hp ▸ ⟨nofun, nofun⟩, ?_, ?_⟩
  · simp [hp, Payload.children]
  · rw [hkind, hp]
    exact hf

namespace HostM

variable {ω : Type} {fuel : Nat}

theorem Quietly.stepBound : Quietly (stepBound (.mute fuel : Host ω)) fun heap _ heap' =>
    heap' = heap := by
  refine (bind (reads .walkBound) fun _ => pure).conseq ?_
  rintro heap _ heap' - ⟨_, _, -, ⟨-, rfl⟩, -, rfl⟩
  rfl

theorem quietly_copyStrings {h : Handle} : Attempt.Quietly (copyStrings (.mute fuel : Host ω) h)
    fun heap r heap' => heap.Repeats h r heap' := by
  refine Attempt.QuietlyFrom.quietly ((Attempt.QuietlyFrom.reads_bind .payload fun p =>
    (?_ : Attempt.QuietlyFrom _ _ fun heap r heap' => (HeapM.payload h).run heap = .ok (p, heap) →
      heap.Repeats h r heap')).conseq ?_)
  · cases p
    case handles elements =>
      refine (Attempt.QuietlyFrom.reads_bind .kind fun k => quietly_allocate_bind ?_ fun copy =>
        .bind (countReferences_writes _) fun _ => .bind (setPayload_writes copy _) fun _ =>
        .pure).conseq ?_
      · rintro state heap r heap' ⟨hs, ⟨-, hread⟩, hkind⟩ hrun
        obtain ⟨c, hc, hp, -⟩ := HeapM.run_payload.mp hread
        obtain ⟨d, hd, rfl, -⟩ := HeapM.run_kind.mp hkind
        rw [hc, Option.some.injEq] at hd
        subst hd
        have hsuits := (hs.proper hc).suits
        rw [hp] at hsuits
        refine Attempt.Triple.bind (allocate_fresh (Host.mute_safe fuel)) (fun copy =>
          .bind (.lift (HeapM.countReferences_fresh elements.toList)) fun _ =>
          .bind (.lift (HeapM.setPayload_counted ⟨hsuits, nofun, ?_⟩)) fun _ => .pure fun _ => id)
          state heap r heap' hs hrun
        exact fun k hk => .inl hk
      · rintro heap r heap' hs - ⟨k, hkind, copy, mid, hmid, hprovides, _, next, ⟨hcount, ⟨es, hes⟩, hroomy⟩,
          _, _, ⟨hfill, hlives⟩, rfl, rfl⟩ hread
        obtain ⟨c, hc, hp, -⟩ := HeapM.run_payload.mp hread
        obtain ⟨d, hd, rfl, -⟩ := HeapM.run_kind.mp hkind
        rw [hc, Option.some.injEq] at hd
        subst hd
        have hsuits := (hs.proper hc).suits
        refine ⟨c, [h], hc, by rw [hp]; exact ⟨nofun, nofun⟩, by simp, ?_⟩
        rw [hp] at hsuits ⊢
        refine ⟨mid, hmid, hprovides, hfill.control.trans hcount.control, ?_, fun hlength => ?_⟩
        · rw [hfill.graph, hcount.graph]
          exact (Graph.Counts.countAll elements.toList).edited (Cell.visible_payload _)
        · obtain ⟨fs, hfs⟩ := hlives (hroomy _ _ (hprovides.roomy hsuits hlength))
          exact ⟨es ++ fs, hes.trans hfs⟩
    all_goals exact (Attempt.Quietly.liftHost (.lift (.of_reads .wrongKind) fun _ _ _ _ hrun =>
      (HeapM.run_wrongKind.mp hrun).elim)).start
  · rintro heap r heap' - - ⟨p, hread, hlast⟩
    exact hlast hread

theorem quietly_copyData {h : Handle} {data : Kind}
    (hdata : data ∈ [.charString, .logicalVector, .integerVector, .realVector, .rawVector]) :
    Attempt.QuietlyFrom (fun heap => (HeapM.kind h).run heap = .ok (data, heap))
      (copyData (.mute fuel : Host ω) h) fun heap r heap' => heap.Repeats h r heap' := by
  refine (Attempt.QuietlyFrom.reads_bind .payload fun p => .reads_bind .kind fun k =>
    quietly_allocate_bind ?_ fun copy => .bind (setPayload_writes copy p) fun _ => .pure).conseq ?_
  · rintro state heap r heap' ⟨hs, ⟨hdatum, hread⟩, hkind⟩ hrun
    obtain ⟨c, hc, rfl, -⟩ := HeapM.run_payload.mp hread
    obtain ⟨d, hd, rfl, -⟩ := HeapM.run_kind.mp hkind
    obtain ⟨e, he, rfl, -⟩ := HeapM.run_kind.mp hdatum
    rw [hc, Option.some.injEq] at hd he
    subst hd he
    exact Attempt.Triple.bind (allocate_fresh (Host.mute_safe fuel)) (fun copy =>
      .bind (.lift HeapM.setPayload_filled) fun _ => .pure fun heap hfilled =>
        HeapM.countReferences_filled (Payload.fits_of_data (hs.proper hc).suits hdata
          (hs.proper hc).suits) heap ⟨⟩ heap hfilled rfl) state heap r heap' hs hrun
  · rintro heap r heap' hs hdatum ⟨p, hread, k, hkind, copy, mid, hmid, hprovides, _, _, ⟨hfill, hlives⟩,
      rfl, rfl⟩
    obtain ⟨c, hc, rfl, -⟩ := HeapM.run_payload.mp hread
    obtain ⟨d, hd, rfl, -⟩ := HeapM.run_kind.mp hkind
    obtain ⟨e, he, rfl, -⟩ := HeapM.run_kind.mp hdatum
    rw [hc, Option.some.injEq] at hd he
    subst hd he
    have hsuits := (hs.proper hc).suits
    have hplain : c.payload.Plain := Payload.suits_plain hsuits
      (fun hsame => by simp [hsame] at hdata) fun hsame => by simp [hsame] at hdata
    refine ⟨c, [h], hc, hplain, by simp, mid, hmid, hprovides, hfill.control, ?_, fun hlength =>
      hlives (hprovides.roomy hsuits hlength)⟩
    rw [hfill.graph, Payload.children_of_data hsuits hdata]
    exact .refl

end HostM

end ManagedHeap
