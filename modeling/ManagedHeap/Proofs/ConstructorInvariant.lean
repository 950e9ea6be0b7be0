import ManagedHeap.Proofs.HostInvariant

/-!
# Constructors keep the invariant

A constructor writes the slots of an object that is still young, so it needs no barrier.
It counts a reference for each slot, so what it wrote there is alive.
-/

namespace ManagedHeap

def Heap.Filled (heap : Heap) (kind : Kind) (payload : Payload) (h : Handle) : Prop :=
  ∃ mid : Heap, mid.Sound ∧ mid.Fresh kind h ∧
    heap = { mid with arena := mid.arena.setCell h fun c => { c with payload } }

/-- What a constructor may write into an object of this kind, given the handles that it
counts. -/
structure Payload.Fits (p : Payload) (kind : Kind) (slots : List Handle) : Prop where
  suits : p.suits kind = true
  symbol : ∀ {name value internal lastEnv}, p ≠ .symbol name value internal lastEnv
  children : ∀ k ∈ p.children true, k ∈ slots ∨ k = .nil ∨ k = .unbound

theorem Heap.Sound.fill {heap : Heap} {kind : Kind} {payload : Payload} {slots : List Handle}
    {h : Handle} (hs : heap.Sound) (hfresh : heap.Fresh kind h) (hfits : payload.Fits kind slots)
    (hlive : ∀ k ∈ slots, heap.arena.contains k = true) :
    ({ heap with arena := heap.arena.setCell h fun c => { c with payload } } : Heap).Sound := by
  obtain ⟨c, hc, hheader⟩ := hfresh
  have hkind : c.kind = kind := congrArg Header.kind hheader
  have hyoung : c.header.generation = .young := congrArg Header.generation hheader
  refine hs.adjust hc (.payload ?_ ?_ ?_) rfl
  · rw [hkind]
    exact fun _ => hfits.suits
  · intro name value internal lastEnv hp
    exact absurd hp hfits.symbol
  · intro k hk
    refine .inr ⟨.inl hyoung, ?_⟩
    rcases hfits.children k hk with hslot | rfl | rfl
    · exact hlive k hslot
    · obtain ⟨d, hd, -⟩ := hs.nilLive
      exact Arena.contains_of_get? hd
    · obtain ⟨d, hd, -⟩ := hs.unboundLive
      exact Arena.contains_of_get? hd

namespace HeapM

open Arena

variable {heap heap' : Heap} {h : Handle} {kind : Kind} {payload : Payload}
  {slots : List Handle}

theorem setPayload_filled :
    Triple (fun heap => heap.Sound ∧ heap.Fresh kind h) (HostM.setPayload h payload)
      fun _ heap => heap.Filled kind payload h := by
  rintro heap u heap' ⟨hs, hfresh⟩ hrun
  obtain ⟨-, rfl⟩ := run_updateCell.mp hrun
  exact ⟨heap, hs, hfresh, rfl⟩

theorem countReferences_filled (hfits : payload.Fits kind slots) :
    Triple (fun heap => heap.Filled kind payload h) (HostM.countReferences slots)
      fun _ => Heap.Sound := by
  rintro heap u heap' ⟨mid, hs, hfresh, rfl⟩ hrun
  refine Safe.countReferences slots _ _ _ (hs.fill hfresh hfits ?_) hrun
  intro k hk
  have hlive := run_countReferences hrun k hk
  rwa [contains_setCell (a := mid.arena) (h := h) (f := fun c => { c with payload })
    fun _ => rfl] at hlive

theorem contains_countReferences {hs : List Handle} {u : PUnit} {k : Handle}
    (hrun : (HostM.countReferences hs).run heap = .ok (u, heap')) :
    heap'.arena.contains k = heap.arena.contains k := by
  induction hs generalizing heap with
  | nil => rw [(run_pure.mp hrun).2]
  | cons h hs ih =>
    simp only [HostM.countReferences, incrementRefCount, run_bind, run_updateCell] at hrun
    obtain ⟨_, _, ⟨-, rfl⟩, hrun⟩ := hrun
    exact (ih hrun).trans (contains_setCell (f := Cell.mapRefCount .increment) fun _ => rfl)

theorem incrementRefCount_fresh {k : Handle} :
    Triple (fun heap => heap.Sound ∧ heap.Fresh kind h) (incrementRefCount k)
      fun _ heap => heap.Sound ∧ heap.Fresh kind h := by
  rintro heap u heap' ⟨hs, c, hc, hheader⟩ hrun
  refine ⟨Safe.incrementRefCount _ _ _ hs hrun, ?_⟩
  obtain ⟨-, rfl⟩ := run_updateCell.mp hrun
  by_cases hh : h = k
  · subst hh
    refine ⟨_, get?_setCell_self hc (get?_eq_some.mp hc).2, ?_⟩
    exact congrArg (fun header : Header =>
      { header with refcount := c.header.refcount.increment }) hheader
  · exact ⟨c, (get?_setCell_ne hh).trans hc, hheader⟩

theorem countReferences_fresh (hs : List Handle) :
    Triple (fun heap => heap.Sound ∧ heap.Fresh kind h) (HostM.countReferences hs)
      fun _ heap => (heap.Sound ∧ heap.Fresh kind h) ∧
        ∀ k ∈ hs, heap.arena.contains k = true := by
  induction hs with
  | nil => exact .pure fun heap hs => ⟨hs, nofun⟩
  | cons k ks ih =>
    intro heap u heap' hs hrun
    have hsame : ∀ {x}, heap'.arena.contains x = heap.arena.contains x :=
      contains_countReferences hrun
    obtain ⟨_, mid, hfirst, hrest⟩ := run_bind.mp hrun
    refine ⟨(ih _ _ _ (incrementRefCount_fresh _ _ _ hs hfirst) hrest).1, ?_⟩
    intro x hx
    rw [hsame]
    exact run_countReferences hrun x hx

theorem setPayload_counted (hfits : payload.Fits kind slots) :
    Triple (fun heap => (heap.Sound ∧ heap.Fresh kind h) ∧
        ∀ k ∈ slots, heap.arena.contains k = true) (HostM.setPayload h payload)
      fun _ => Heap.Sound := by
  rintro heap u heap' ⟨⟨hs, hfresh⟩, hlive⟩ hrun
  obtain ⟨-, rfl⟩ := run_updateCell.mp hrun
  exact hs.fill hfresh hfits hlive

theorem linkWeakRef_safe {key value finalizer : Handle} {onExit : Bool} :
    Triple (fun heap => heap.Sound ∧ heap.Fresh .weakRef h)
      (linkWeakRef h key value finalizer onExit) fun _ => Heap.Sound := by
  refine .bind (.get (Q := fun _ heap => heap.Sound ∧ heap.RecordAt h) ?_) fun heap => ?_
  · rintro heap ⟨hs, c, hc, hheader⟩
    refine ⟨hs, c, hc, ?_⟩
    have hsuits := (hs.proper hc).suits
    rwa [show c.kind = .weakRef from congrArg Header.kind hheader] at hsuits
  · refine .bind fill_record fun _ => ?_
    have hend : Safe (pushRecord h key value finalizer onExit) :=
      .modify (fun _ => rfl) (fun _ => rfl) (fun _ => rfl) (fun _ => rfl) fun _ => rfl
    dsimp only
    split
    · refine Safe.bind (Safe.updateCell fun _ _ _ _ => ?_) fun _ => hend
      exact ⟨.header rfl rfl rfl rfl rfl rfl rfl rfl id, rfl⟩
    · exact hend

theorem cacheString_cached {bytes : Bytes} {encoding : Encoding} {hash : UInt32} {ascii : Bool} :
    Triple (fun heap => heap.Sound ∧ heap.Fresh .charString h)
      (cacheString h bytes encoding hash ascii)
      fun _ heap => heap.Sound ∧ ∃ c, heap.arena.get? h = some c ∧ c.flags.cached = true := by
  rintro heap u heap' ⟨hs, c, hc, hheader⟩ hrun
  refine hs.cacheString hc (congrArg Header.kind hheader) ?_ ?_ hrun
  · exact congrArg (fun header : Header => header.flags.cached) hheader
  · exact congrArg (fun header : Header => header.flags.permanent) hheader

theorem run_searchChain {bytes : Bytes} {encoding : Encoding} {hash : UInt32}
    {cursor found : Handle} {fuel : Nat} {hs : List Handle} (hl : Linked heap.arena cursor hs)
    (hrun : (searchChain bytes encoding hash cursor fuel).run heap = .ok (some found, heap')) :
    found ∈ hs := by
  induction fuel generalizing cursor hs with
  | zero => exact (run_throw.mp hrun).elim
  | succ fuel ih =>
    unfold searchChain at hrun
    rcases run_ite.mp hrun with ⟨-, hrun⟩ | ⟨hne, hrun⟩
    · cases (run_pure.mp hrun).1
    · simp only [run_bind, run_cell] at hrun
      obtain ⟨c, _, ⟨hc, rfl⟩, hrun⟩ := hrun
      have hcursor : cursor ≠ .nil := by
        rintro rfl
        exact hne rfl
      obtain ⟨d, rest, rfl, hd, hrest⟩ := hl.of_ne_nil hcursor
      rw [hc, Option.some.injEq] at hd
      subst hd
      have hfurther : (searchChain bytes encoding hash c.attrib fuel).run heap =
          .ok (some found, heap') → found ∈ cursor :: rest :=
        fun hrun => List.mem_cons_of_mem _ (ih hrest hrun)
      cases hp : c.payload
      case charString b e h =>
        simp only [hp] at hrun
        rcases run_ite.mp hrun with ⟨-, hrun⟩ | ⟨-, hrun⟩
        · obtain ⟨hfound, -⟩ := run_pure.mp hrun
          rw [Option.some.injEq] at hfound
          exact hfound ▸ List.mem_cons_self
        · exact hfurther hrun
      all_goals
        simp only [hp] at hrun
        exact hfurther hrun

theorem findCached_cached {bytes : Bytes} {encoding : Encoding} {hash : UInt32} :
    Triple Heap.Sound (findCached bytes encoding hash) fun found heap => heap.Sound ∧
      ∀ h, found = some h → ∃ c, heap.arena.get? h = some c ∧ c.flags.cached = true := by
  intro heap found heap' hs hrun
  obtain rfl := Reads.findCached _ _ _ hrun
  refine ⟨hs, ?_⟩
  rintro h rfl
  simp only [findCached, run_bind, run_get, run_walkBound] at hrun
  obtain ⟨_, _, ⟨rfl, rfl⟩, _, _, ⟨-, rfl⟩, hrun⟩ := hrun
  obtain ⟨on, hon⟩ := hs.chained
  cases hb : heap'.strings.buckets[heap'.strings.bucketOf hash]? with
  | none =>
    have hnil : heap'.strings.head (heap'.strings.bucketOf hash) = .nil := by
      simp [StringCache.head, hb]
    rw [hnil] at hrun
    exact absurd (run_searchChain .nil hrun) List.not_mem_nil
  | some x =>
    have hx : heap'.strings.head (heap'.strings.bucketOf hash) = x := by
      simp [StringCache.head, hb]
    rw [hx] at hrun
    obtain ⟨front, back, hsplit, -⟩ := buckets_split hb
    rw [hsplit] at hon
    obtain ⟨hs', hlinked, -, -⟩ := hon.chain
    exact (hlinked.cached (run_searchChain hlinked hrun)).2

end HeapM

namespace Attempt

variable {ω α β : Type} {x : Attempt ω α} {f : α → Attempt ω β}

def Safe (act : Attempt ω α) : Prop := Triple Heap.Sound act (fun _ => Heap.Sound) Heap.Sound

namespace Safe

theorem bind (hx : Safe x) (hf : ∀ a, Safe (f a)) : Safe (x >>= f) := Triple.bind hx hf

theorem pure {a : α} : Safe (pure a : Attempt ω α) := Triple.pure fun _ => id

theorem throwFault {e : Fault} : Safe (throwThe Fault e : Attempt ω α) := Triple.throwFault

theorem lift {act : HeapM α} (h : act.Safe) : Safe (liftM act : Attempt ω α) := Triple.lift h

theorem reads {act : HeapM α} (h : act.Reads) : Safe (liftM act : Attempt ω α) :=
  lift (.of_reads h)

theorem liftHost {act : HostM ω α} (h : act.Safe) : Safe (liftM act : Attempt ω α) :=
  Triple.liftHost h

theorem run (hx : Safe x) : HostM.Safe x.run := by
  intro state heap r heap' hs hrun
  have hend := hx state heap r heap' hs hrun
  obtain ⟨e | a, state'⟩ := r
  · exact hend
  · exact hend

theorem mk {act : HostM ω (Except HeapError α)} (h : HostM.Safe act) :
    Safe (ExceptT.mk act : Attempt ω α) := by
  refine Triple.mk (HostM.Triple.conseq h (fun _ => id) ?_)
  rintro (e | a) heap h
  · exact h
  · exact h

theorem attempt {act : HeapM (Except HeapError α)} (h : act.Safe) :
    Safe (HostM.attempt act : Attempt ω α) := mk (HostM.Safe.lift h)

theorem protecting (hx : Safe x) : Safe (HostM.protecting x) :=
  mk (HostM.Safe.bind (.reads .protectDepth) fun _ => .bind hx.run fun _ =>
    .bind (.lift .closeScope) fun _ => .pure)

end Safe

end Attempt

namespace HostM

variable {ω : Type} {host : Host ω} {kind : Kind} {payload : Payload} {slots : List Handle}

theorem allocate_fresh (hhost : host.Safe) {length : Nat} {roots : List Handle} :
    Attempt.Triple Heap.Sound (allocate host kind length roots)
      (fun h heap => heap.Sound ∧ heap.Fresh kind h) Heap.Sound := by
  have hspec : Attempt.Triple (fun heap => heap.Sound ∧ heap.KeptStrings [] roots)
      (allocate host kind length roots)
      (fun h heap => heap.Sound ∧ heap.Allocated kind [] h) Heap.Sound := allocate_spec hhost
  exact hspec.conseq (fun _ hs => ⟨hs, nofun⟩) (fun _ _ h => ⟨h.1, h.2.1⟩) fun _ => id

theorem construct_safe (hhost : host.Safe) (hfits : payload.Fits kind slots) :
    Attempt.Safe (construct host kind payload slots) :=
  Attempt.Triple.bind (allocate_fresh hhost) fun _ => .bind (.lift HeapM.setPayload_filled)
    fun _ => .bind (.lift (HeapM.countReferences_filled hfits)) fun _ => .pure fun _ => id

theorem bindAll_safe (hhost : host.Safe) (bindings : List (Handle × Handle)) (frame : Handle) :
    Attempt.Safe (bindAll host frame bindings) := by
  induction bindings generalizing frame with
  | nil => exact .pure
  | cons b rest ih =>
    obtain ⟨name, value⟩ := b
    refine Attempt.Triple.bind (allocate_fresh hhost) fun cell =>
      .bind (.lift HeapM.setPayload_filled) fun _ =>
      .bind (.lift (HeapM.countReferences_filled ?_)) fun _ => ih cell
    exact ⟨rfl, nofun, by simp [Payload.children]⟩

theorem makeEnvironment_safe (hhost : host.Safe) {names values : List Handle} {parent : Handle} :
    Attempt.Safe (makeEnvironment host names values parent) := by
  unfold makeEnvironment
  dsimp only
  split
  · exact Attempt.Triple.bind (Q := fun _ _ => False) (.throw fun _ => id) fun _ => .absurd
  · refine .mk (.withTransient (Attempt.Safe.run ?_))
    refine .bind (bindAll_safe hhost _ .nil) fun frame =>
      Attempt.Triple.bind (allocate_fresh hhost) fun env =>
      .bind (.lift HeapM.setPayload_filled) fun _ =>
      .bind (.lift (HeapM.countReferences_filled ?_)) fun _ => .pure fun _ => id
    exact ⟨rfl, nofun, by simp [Payload.children]⟩

theorem makeWeakRef_safe (hhost : host.Safe) {key value finalizer : Handle} {onExit : Bool} :
    Attempt.Safe (makeWeakRef host key value finalizer onExit) := by
  have hmake : Attempt.Safe (do
      let record ← allocate host .weakRef 0 [key, value, finalizer]
      HeapM.linkWeakRef record key value finalizer onExit
      return record) :=
    Attempt.Triple.bind (allocate_fresh hhost) fun record =>
      .bind (.lift HeapM.linkWeakRef_safe) fun _ => .pure fun _ => id
  unfold makeWeakRef
  dsimp only
  split
  · refine .bind (.reads .kind) fun k => ?_
    split
    · exact Attempt.Triple.bind (Q := fun _ _ => False) (.throw fun _ => id) fun _ => .absurd
    · exact hmake
  · exact hmake

theorem makeNativeFunction_safe (hhost : host.Safe) {routine : Nat} :
    Attempt.Safe (makeNativeFunction host routine) :=
  construct_safe hhost ⟨rfl, nofun, by simp [Payload.children]⟩

theorem registerFinalizer_safe (hhost : host.Safe) {key : Handle} {finalizer : Finalizer}
    {onExit : Bool} : Attempt.Safe (registerFinalizer host key finalizer onExit) := by
  refine .protecting (.bind (.attempt .pushRoot) fun _ => ?_)
  cases finalizer with
  | native routine =>
    exact .bind (makeNativeFunction_safe hhost) fun function =>
      .bind (.attempt .pushRoot) fun _ => makeWeakRef_safe hhost
  | closure h =>
    exact .bind .pure fun function => .bind (.attempt .pushRoot) fun _ => makeWeakRef_safe hhost

theorem internString_cached (hhost : host.Safe) {bytes : Bytes} {encoding : Encoding} :
    Attempt.Triple Heap.Sound (internString host bytes encoding)
      (fun h heap => heap.Sound ∧ ∃ c, heap.arena.get? h = some c ∧ c.flags.cached = true)
      Heap.Sound := by
  refine .bind (.getHeap (Q := fun _ => Heap.Sound) fun _ => id) fun heap =>
    .bind (.lift HeapM.findCached_cached) fun found => ?_
  cases found with
  | some h => exact .pure fun heap hs => ⟨hs.1, hs.2 h rfl⟩
  | none =>
    refine .conseq (P := Heap.Sound) ?_ (fun _ hs => hs.1) (fun _ _ => id) fun _ => id
    exact .bind (allocate_fresh hhost) fun h => .bind (.lift HeapM.cacheString_cached) fun _ =>
      .pure fun _ => id

end HostM

def Payload.named (name : Handle) : Payload → Payload
  | .symbol _ value internal lastEnv => .symbol name value internal lastEnv
  | p => p

def Cell.named (name : Handle) (c : Cell) : Cell :=
  match c.payload with
  | .symbol _ value internal lastEnv => { c with payload := .symbol name value internal lastEnv }
  | _ => c

theorem Cell.named_eq (name : Handle) (c : Cell) :
    c.named name = { c with payload := c.payload.named name } := by
  obtain ⟨header, attrib, payload⟩ := c
  cases payload <;> rfl

theorem Cell.Adjusts.named {a : Arena} {h name : Handle} {c : Cell}
    (hyoung : c.header.generation = .young) (hlive : a.contains name = true)
    (hname : name = h ∨ ∃ n, a.get? name = some n ∧ n.Anchored) :
    c.Adjusts a h (c.named name) := by
  rw [Cell.named_eq]
  refine .payload ?_ ?_ ?_
  · intro hsuits
    cases hp : c.payload <;> rw [hp] at hsuits
    case symbol => cases hk : c.kind <;> rw [hk] at hsuits <;> exact hsuits
    all_goals exact hsuits
  · intro name' value internal lastEnv hq
    cases hp : c.payload
    case symbol =>
      rw [hp] at hq
      injection hq with hsame
      exact .inr (hsame ▸ hname)
    all_goals
      rw [hp] at hq
      exact nomatch hq
  · intro k hk
    cases hp : c.payload
    case symbol =>
      simp only [hp, Payload.named, Payload.children, if_true, List.mem_cons, List.not_mem_nil,
        or_false] at hk ⊢
      rcases hk with rfl | hk
      · exact .inr ⟨.inl hyoung, hlive⟩
      · exact .inl (.inr hk)
    all_goals
      rw [hp] at hk
      exact .inl hk

namespace HeapM

open Arena

variable {heap heap' : Heap}

theorem nameSymbol_safe {sym name : Handle} :
    Triple (fun heap => heap.Sound ∧ heap.Allocated .symbol [name] sym) (nameSymbol sym name)
      fun _ => Heap.Sound := by
  rintro heap u heap' ⟨hs, ⟨c, hc, hheader⟩, hspared⟩ hrun
  let flag : Cell → Cell := fun c =>
    (c.mapFlags fun fs => { fs with symbolName := true }).mapRefCount .increment
  simp only [nameSymbol, run_bind, run_updateCell] at hrun
  obtain ⟨_, mid, ⟨⟨d, hd⟩, hmid⟩, ⟨e, he⟩, hlast⟩ := hrun
  change mid = { heap with arena := heap.arena.setCell name flag } at hmid
  subst hmid
  change heap' = { ({ heap with arena := heap.arena.setCell name flag } : Heap) with
    arena := (heap.arena.setCell name flag).setCell sym (Cell.named name) } at hlast
  have hsound : ({ heap with arena := heap.arena.setCell name flag } : Heap).Sound :=
    hs.adjust hd (.header rfl rfl rfl rfl rfl rfl rfl rfl fun _ => rfl) rfl
  have hself : (heap.arena.setCell name flag).get? name = some (flag d) :=
    get?_setCell_self hd (get?_eq_some.mp hd).2
  have hyoung : e.header.generation = .young := by
    have hfresh : c.header.generation = .young := congrArg Header.generation hheader
    by_cases hsame : sym = name
    · subst hsame
      rw [hself, Option.some.injEq] at he
      rw [hc, Option.some.injEq] at hd
      rw [← he, ← hd]
      exact hfresh
    · rw [get?_setCell_ne hsame, hc, Option.some.injEq] at he
      exact he ▸ hfresh
  rw [hlast]
  refine hsound.adjust he (.named hyoung (contains_of_get? hself) ?_) ?_
  · rcases hspared name List.mem_cons_self d hd with hsame | hold | hcached
    · exact .inl hsame
    · exact .inr ⟨_, hself, .inl hold⟩
    · exact .inr ⟨_, hself, .inr ⟨hcached, rfl⟩⟩
  · rw [Cell.named_eq]
    rfl

end HeapM

namespace HostM

variable {ω : Type} {host : Host ω}

theorem makeSymbol_safe (hhost : host.Safe) {name : Bytes} : Attempt.Safe (do
    let pname ← internString host name (nameEncoding name)
    let sym ← allocate host .symbol 0 [pname]
    HeapM.nameSymbol sym pname
    modifyThe Heap fun heap => { heap with symbols := heap.symbols.insert name sym }
    return sym) := by
  refine Attempt.Triple.bind (internString_cached hhost) fun pname => ?_
  refine .conseq (P := fun heap => heap.Sound ∧ heap.KeptStrings [pname] [pname]) ?_ ?_
    (fun _ _ => id) fun _ => id
  · refine .bind (allocate_spec hhost) fun sym => .bind (.lift HeapM.nameSymbol_safe) fun _ =>
      .bind (.modifyHeap fun heap hs => ?_) fun _ => .pure fun _ => id
    exact hs.aside rfl rfl rfl rfl rfl
  · rintro heap ⟨hs, hcached⟩
    refine ⟨hs, ?_⟩
    intro p hp
    obtain rfl := List.mem_singleton.mp hp
    exact ⟨hp, hcached⟩

theorem internSymbol_safe (hhost : host.Safe) {name : Bytes} :
    Attempt.Safe (internSymbol host name) := by
  refine .bind (.liftHost .getHeap) fun heap => ?_
  cases heap.symbols.find? name with
  | some sym => exact .pure
  | none =>
    dsimp only
    split
    · exact Attempt.Triple.bind (Q := fun _ _ => False) (.throw fun _ => id) fun _ => .absurd
    · exact makeSymbol_safe hhost

theorem defineVar_safe (hhost : host.Safe) {env sym value : Handle} :
    Attempt.Safe (defineVar host env sym value) := by
  refine .bind (.reads .frameBinding) fun found => ?_
  cases found with
  | some cell => exact .lift .setCar
  | none =>
    refine .bind (.reads .envFrame) fun frame => Attempt.Triple.bind (allocate_fresh hhost)
      fun cell => .conseq (P := Heap.Sound) ?_ (fun _ hs => hs.1) (fun _ _ => id) fun _ => id
    exact Attempt.Safe.bind (.lift .setCar) fun _ => .bind (.lift .setCdr) fun _ =>
      .bind (.lift .setTag) fun _ => .lift .setFrame

end HostM

end ManagedHeap
