import ManagedHeap.Proofs.LookupCaches

/-!
# How symbols forget

A collection clears the look-up caches of the symbols of the table and writes into no other
payload, so a symbol outside the table remembers what it remembered. What the symbols of the table
remember is always there: searches keep that, and so does everything else.
-/

namespace ManagedHeap

theorem Level.payload_swept {level : Level} {tasks : Tasks} {h : Handle} {c : Cell}
    (hf : level.frees c = false) : (level.swept tasks h c).payload = c.payload := by
  cases hs : level.sweeps c with
  | false => rw [swept_of_not_sweeps hs]
  | true =>
    have hstays : c.stays = true := by simpa [frees, hs] using hf
    rw [swept_of_stays hs hstays]
    rfl

namespace HeapM

open Arena

variable {heap heap' : Heap} {level : Level} {reason : Reason} {o : Outcome} {h : Handle}

theorem payload_marked {cleared : Arena} {m : Marking} {n : Nat} {e : Cell} (hs : heap.Sound)
    (hbooks : cleared.books = heap.arena.books)
    (hcells : ∀ h, cleared.cellAt? h =
      (heap.arena.cellAt? h).map fun c => if h ∈ heap.symbols.handles then c.cleared else c)
    (hrun : (do MarkM.markRoots (heap.scan level) heap.rootList heap.remembered.toList
                MarkM.markTasks (heap.scan level) (heap.quietTasks level)
                MarkM.resolveWeak (heap.scan level) heap.weak : MarkM Nat).run { arena := cleared } =
      .ok (n, m)) (he : m.arena.get? h = some e) :
    ∃ c, heap.arena.get? h = some c ∧
      e.payload = if h ∈ heap.symbols.handles then c.payload.forgetting else c.payload := by
  have hab : SameBut Cell.cleared heap.arena cleared := cleared_sameBut hbooks hcells
  have hunmarked : ∀ {k}, ¬ cleared.Marks k := by
    intro k hmarks
    obtain ⟨d, hd, hmarked⟩ := hmarks
    obtain ⟨c, hc, hcd⟩ := hab.symm.ofCleared hd
    have hno : d.flags.marked = false := by
      rw [Cell.flags, ← Cell.header_of_cleared hcd]
      exact (hs.proper hc).unmarked
    exact absurd (hno.symm.trans hmarked) Bool.false_ne_true
  obtain ⟨records, mid, -, hdecided, hfinish, -⟩ :=
    MarkM.run_decided (hab.tidy (fun _ => rfl) hs.tidy) hunmarked hrun
  obtain ⟨d, hd, hde⟩ := (MarkM.run_finish hdecided hfinish).alike.symm.core he
  have hpayload : e.payload = d.payload := (Cell.payload_of_core hde).symm
  obtain ⟨hat, hlive⟩ := get?_eq_some.mp hd
  rw [hcells] at hat
  obtain ⟨c, hc, rfl⟩ := Option.map_eq_some_iff.mp hat
  rw [hpayload]
  split
  · rename_i hmem
    rw [if_pos hmem] at hlive
    exact ⟨c, get?_eq_some.mpr ⟨hc, hlive⟩, rfl⟩
  · rename_i hmem
    rw [if_neg hmem] at hlive
    exact ⟨c, get?_eq_some.mpr ⟨hc, hlive⟩, rfl⟩

theorem payload_collect {d : Cell} (hs : heap.Sound)
    (hrun : (collect level reason).run heap = .ok (o, heap')) (hd : heap'.arena.get? h = some d) :
    ∃ c, heap.arena.get? h = some c ∧
      d.payload = if h ∈ heap.symbols.handles then c.payload.forgetting else c.payload := by
  obtain ⟨-, cleared, m, freed, swept, waits, phase, hbooks, hcells, hmark, hsweep, kept, pruned,
    strategy, counters, journal, hprune, rfl, -⟩ := run_collect hrun
  obtain ⟨records, -, htidy, -, -, -, hforth, hback⟩ := run_marked hs hbooks hcells hmark
  obtain ⟨hswept, -⟩ := Swept.all (sweepable_marked hs htidy hforth hback) hsweep
  obtain ⟨arena, rfl, -, -, hpruned⟩ := run_pruneRemembered hprune
  have hd : arena.get? h = some d := hd
  rw [get?_pruned hpruned] at hd
  obtain ⟨x, hx, rfl⟩ := Option.map_eq_some_iff.mp hd
  obtain ⟨e, he, hfrees, hxe⟩ := hswept.get? htidy hx
  obtain ⟨c, hc, hpayload⟩ := payload_marked hs hbooks hcells hmark he
  refine ⟨c, hc, ?_⟩
  rw [← hpayload, ← Level.payload_swept hfrees, ← Cell.payload_of_unlinked hxe]
  split <;> rfl

theorem forgets_collect {sym : Handle} {c : Cell} {e : Handle} (hs : heap.Sound)
    (hrun : (collect level reason).run heap = .ok (o, heap')) (hsym : sym ∈ heap.symbols.handles)
    (hc : heap.arena.get? sym = some c) (he : c.payload.lookup? = some e) :
    ∃ d, heap'.arena.get? sym = some d ∧ d.payload.lookup? = some .nil := by
  obtain ⟨records, hcollected⟩ := collect_collected hs hrun
  have hroot : sym ∈ heap.rootList := List.mem_append.mpr (.inr hsym)
  obtain ⟨d, hd⟩ := hcollected.stayed hc (Collected.keeps_of_start hc (.inl hroot))
  obtain ⟨c', hc', hpayload⟩ := payload_collect hs hrun hd
  obtain rfl := Option.some.inj (hc.symm.trans hc')
  refine ⟨d, hd, ?_⟩
  rw [hpayload, if_pos hsym, Payload.lookup?_forgetting, he]
  rfl

theorem symbols_collect (hs : heap.Sound)
    (hrun : (collect level reason).run heap = .ok (o, heap')) : heap'.symbols = heap.symbols := by
  obtain ⟨records, hcollected⟩ := collect_collected hs hrun
  obtain ⟨_, _, _, _, _, _, _, rfl⟩ := hcollected.rest
  rfl

theorem lookupsLive_collect (hs : heap.Sound)
    (hrun : (collect level reason).run heap = .ok (o, heap')) (hm : heap.LookupsLive) :
    heap'.LookupsLive := by
  intro sym hsym
  rw [symbols_collect hs hrun] at hsym
  obtain ⟨c, e, hc, he, -⟩ := hm sym hsym
  obtain ⟨d, hd, hnil⟩ := forgets_collect hs hrun hsym hc he
  exact ⟨d, .nil, hd, hnil, .inl rfl⟩

theorem Basic.lookupsLive {α : Type} {act : HeapM α} {a : α} {pays : Bool} (hb : act.Basic pays)
    (hs : heap.Sound) (hrun : act.run heap = .ok (a, heap')) (hm : heap.LookupsLive) : heap'.LookupsLive := by
  have hkeepsLookups : KeepsLookups act → heap'.LookupsLive := fun hact => (hact heap a heap' hrun).lookupsLive hm
  cases hb
  case setCar => exact hkeepsLookups .setCar
  case setCdr => exact hkeepsLookups .setCdr
  case setTag => exact hkeepsLookups .setTag
  case setFrame => exact hkeepsLookups .setFrame
  case setAttrib => exact hkeepsLookups .setAttrib
  case setPromiseValue => exact hkeepsLookups .setPromiseValue
  case setSymbolValue => exact hkeepsLookups .setSymbolValue
  case setVectorElt => exact hkeepsLookups .setVectorElt
  case setObjectBit => exact hkeepsLookups .mapFlags
  case addClassBits => exact hkeepsLookups .mapFlags
  case touch => exact hkeepsLookups .touch
  case setRealData => exact hkeepsLookups .setRealData
  case setIntegerData => exact hkeepsLookups .setIntegerData
  case setRawData => exact hkeepsLookups .setRawData
  case incrementRefCount => exact hkeepsLookups .incrementRefCount
  case decrementRefCount => exact hkeepsLookups .decrementRefCount
  case removeVar => exact hkeepsLookups .removeVar
  case flagOnExit records => exact hkeepsLookups (.flagOnExit records)
  case findVar =>
    obtain ⟨fuel, _, hbound, hsearch⟩ := run_bind.mp hrun
    obtain rfl := Reads.walkBound _ _ _ hbound
    exact (keepsLookups_searchEnvironments hs hsearch).lookupsLive hm
  case unlinkWeakRef => exact (keepsLookups_unlinkWeakRef hs hrun).lookupsLive hm
  case collect => exact lookupsLive_collect hs hrun hm
  case allocateFast => exact (keepsLookups_allocateFast hs hrun).lookupsLive hm

end HeapM

namespace Heap

open HeapM

variable {heap mid heap' : Heap}

theorem kind_of_fits {payload : Payload} {kind : Kind} {slots : List Handle}
    (hfits : payload.Fits kind slots) : kind ≠ .symbol ∧ payload.lookup? = none := by
  have hsuits := hfits.suits
  cases hp : payload
  case symbol => exact absurd hp hfits.symbol
  all_goals
    rw [hp] at hsuits
    refine ⟨?_, rfl⟩
    rintro rfl
    cases hsuits

theorem keepsLookups_linkWeakRef {record key value finalizer : Handle} {onExit : Bool} {u : Unit}
    (hs : heap.Sound) (hfresh : heap.Fresh .weakRef record)
    (hrun : (linkWeakRef record key value finalizer onExit).run heap = .ok (u, heap')) :
    heap.KeepsLookups heap' := by
  obtain ⟨c, hc, hnone⟩ := hs.lookup?_fresh hfresh (by decide)
  simp only [linkWeakRef, run_bind, run_get] at hrun
  obtain ⟨_, _, ⟨rfl, rfl⟩, _, mid, hfill, hrun⟩ := hrun
  refine (HeapM.KeepsLookups.rewrite hc hnone rfl hfill).trans ?_
  split at hrun
  · obtain ⟨_, next, hflag, hhead⟩ := run_bind.mp hrun
    obtain rfl := run_modify.mp hhead
    exact (HeapM.KeepsLookups.mapFlags _ _ _ hflag).trans (.aside rfl rfl)
  · obtain rfl := run_modify.mp hrun
    exact .aside rfl rfl

theorem keepsLookups_cacheString {h : Handle} {bytes : Bytes} {encoding : Encoding} {hash : UInt32}
    {ascii : Bool} {u : Unit} (hs : heap.Sound) (hfresh : heap.Fresh .charString h)
    (hrun : (cacheString h bytes encoding hash ascii).run heap = .ok (u, heap')) :
    heap.KeepsLookups heap' := by
  obtain ⟨c, hc, hnone⟩ := hs.lookup?_fresh hfresh (by decide)
  obtain ⟨_, mid, hfill, hrun⟩ := run_bind.mp hrun
  have hfirst : heap.KeepsLookups mid := by
    obtain ⟨-, rfl⟩ := (run_updateCell (f := Cell.interned bytes encoding hash ascii)).mp hfill
    exact .edit hc rfl hnone.symm
  refine hfirst.trans ?_
  have hrest : HeapM.KeepsLookups (do
      if (← get).strings.needsGrowth then growStrings
      linkString h hash
      modifyStrings fun strings => { strings with entries := strings.entries + 1 }) := by
    refine .bind (.of_reads .get) fun now => ?_
    split
    · exact .bind .growStrings fun _ => .bind .linkString fun _ => .modifyStrings
    · exact .bind .linkString fun _ => .modifyStrings
  exact hrest _ _ _ hrun

theorem mem_handles_insert {t : SymbolTable} {name : Bytes} {sym k : Handle}
    (hk : k ∈ (t.insert name sym).handles) : k = sym ∨ k ∈ t.handles := by
  unfold SymbolTable.insert at hk
  split at hk
  · obtain ⟨e, he, rfl⟩ := List.mem_map.mp hk
    obtain ⟨e', he', rfl⟩ := List.mem_map.mp he
    split
    · exact .inl rfl
    · exact .inr (List.mem_map.mpr ⟨e', he', rfl⟩)
  · simp only [SymbolTable.handles, List.map_append, List.mem_append, List.map_cons, List.map_nil,
      List.mem_singleton] at hk
    exact hk.symm

theorem lookupsLive_enter {sym pname : Handle} {name : Bytes} {u : Unit}
    (hsized : heap.Sized .symbol 0 sym) (hrun : (nameSymbol sym pname).run heap = .ok (u, mid))
    (hm : heap.LookupsLive) : { mid with symbols := mid.symbols.insert name sym }.LookupsLive := by
  have hkeepsLookups := HeapM.KeepsLookups.nameSymbol _ _ _ hrun
  obtain ⟨blank, hblank, hc⟩ := hsized
  obtain rfl : Payload.symbol .nil .unbound .nil .nil = blank := Option.some.inj hblank
  have hnew : mid.LookupLive sym := hkeepsLookups.lookupLive ⟨_, .nil, hc, rfl, .inl rfl⟩
  intro k hk
  rcases mem_handles_insert hk with rfl | hk
  · exact hnew
  · exact hkeepsLookups.lookupsLive hm k hk

theorem build_symbols {config : Config} {hash : Bytes → Encoding → UInt32} {heap : Heap}
    (hb : build config hash = .ok heap) : heap.symbols = {} := by
  replace hb := furnish_of_build hb
  simp only [furnish] at hb
  split at hb
  · simp only [except_bind, pure, Except.pure, Except.ok.injEq] at hb
    obtain ⟨_, -, _, -, rfl⟩ := hb
    rfl
  · cases hb

theorem lookupsLive_of_empty (hnone : heap.symbols = {}) : heap.LookupsLive := by
  intro sym hsym
  rw [hnone] at hsym
  exact absurd hsym List.not_mem_nil

theorem Effect.lookupsLive {pays : Bool} (ht : heap.SoundWithHistory) (he : heap.Effect pays heap')
    (hm : heap.LookupsLive) : heap'.LookupsLive := by
  cases he with
  | beside hb => exact (KeepsLookups.beside hb).lookupsLive hm
  | basic hb hrun => exact hb.lookupsLive ht.1 hrun hm
  | take hkind _ hrun => exact (keepsLookups_takeOrGrow ht.1 hkind hrun).lookupsLive hm
  | fill hsized hfits _ hfill hcount =>
    obtain ⟨hkind, hnone⟩ := kind_of_fits hfits
    have hfirst := keepsLookups_setPayload ht.1 hsized.fresh hkind hnone hfill
    exact (hfirst.trans (HeapM.KeepsLookups.countReferences _ _ _ _ hcount)).lookupsLive hm
  | fillCounted hsized hfits _ hcount hfill =>
    obtain ⟨hkind, hnone⟩ := kind_of_fits hfits
    obtain ⟨⟨hs, hfresh⟩, -⟩ := countReferences_fresh _ _ _ _ ⟨ht.1, hsized.fresh⟩ hcount
    have hlast := keepsLookups_setPayload hs hfresh hkind hnone hfill
    exact ((HeapM.KeepsLookups.countReferences _ _ _ _ hcount).trans hlast).lookupsLive hm
  | link hsized hrun => exact (keepsLookups_linkWeakRef ht.1 hsized.fresh hrun).lookupsLive hm
  | cache hsized hrun => exact (keepsLookups_cacheString ht.1 hsized.fresh hrun).lookupsLive hm
  | enter hsized hrun => exact lookupsLive_enter hsized hrun hm
  | renew hbuild =>
    have hnone := build_symbols hbuild
    exact lookupsLive_of_empty hnone

end Heap

open HeapM

theorem HeapM.run_symbolLookupCache {heap heap' : Heap} {sym e : Handle} :
    (symbolLookupCache sym).run heap = .ok (e, heap') ↔
      (∃ c, heap.arena.get? sym = some c ∧ c.payload.lookup? = some e) ∧ heap = heap' := by
  simp only [symbolLookupCache, run_bind, run_payload]
  constructor
  · intro hrun
    obtain ⟨p, _, ⟨c, hc, rfl, rfl⟩, hread⟩ := hrun
    cases hp : c.payload
    case symbol name value internal lastEnv =>
      rw [hp] at hread
      obtain ⟨rfl, rfl⟩ := run_pure.mp hread
      exact ⟨⟨c, hc, congrArg Payload.lookup? hp⟩, rfl⟩
    all_goals
      rw [hp] at hread
      exact (run_wrongKind.mp hread).elim
  · intro hread
    obtain ⟨⟨c, hc, hlookup⟩, rfl⟩ := hread
    refine ⟨c.payload, heap, ⟨c, hc, rfl, rfl⟩, ?_⟩
    cases hp : c.payload
    case symbol name value internal lastEnv =>
      rw [hp] at hlookup
      exact run_pure.mpr ⟨Option.some.inj hlookup, rfl⟩
    all_goals
      rw [hp] at hlookup
      cases hlookup

theorem Session.Reachable.lookupsLive {state : Session.State} {heap : Heap}
    (hr : Session.Reachable state heap) : heap.LookupsLive := by
  obtain ⟨start, ⟨config, hash, fresh, -, hbuild, hstart, -⟩, hcomes⟩ := hr.comes
  have hnone : start.symbols = {} := by
    rw [hstart]
    exact (Heap.build_symbols hbuild :)
  exact hcomes.2.keep Heap.Effect.lookupsLive (Heap.lookupsLive_of_empty hnone)

/-- Between operations a symbol of the table remembers nothing or an environment that is there. A
collection at any level makes it forget, and leaves what other symbols remember as it was. -/
theorem Session.lookups_forgotten {state : Session.State} {heap : Heap}
    (hr : Session.Reachable state heap) :
    (∀ sym ∈ heap.symbols.handles, ∃ e, (symbolLookupCache sym).run heap = .ok (e, heap) ∧
      (e = .nil ∨ (HeapM.kind e).run heap = .ok (.environment, heap))) ∧
    ∀ {level reason o heap'}, (collect level reason).run heap = .ok (o, heap') →
      (∀ sym ∈ heap.symbols.handles, (symbolLookupCache sym).run heap' = .ok (.nil, heap')) ∧
      ∀ sym ∉ heap.symbols.handles, ∀ e, (symbolLookupCache sym).run heap' = .ok (e, heap') →
        (symbolLookupCache sym).run heap = .ok (e, heap) := by
  have hlookupsLive := hr.lookupsLive
  have hs := hr.soundWithHistory.1
  refine ⟨fun sym hsym => ?_, fun {level reason o heap'} hrun => ⟨fun sym hsym => ?_, ?_⟩⟩
  · obtain ⟨c, e, hc, hlookup, he⟩ := hlookupsLive sym hsym
    refine ⟨e, run_symbolLookupCache.mpr ⟨⟨c, hc, hlookup⟩, rfl⟩, he.imp_right fun henv => ?_⟩
    obtain ⟨d, hd, hkind⟩ := henv
    exact run_kind.mpr ⟨d, hd, hkind, rfl⟩
  · obtain ⟨c, e, hc, hlookup, -⟩ := hlookupsLive sym hsym
    obtain ⟨d, hd, hnil⟩ := forgets_collect hs hrun hsym hc hlookup
    exact run_symbolLookupCache.mpr ⟨⟨d, hd, hnil⟩, rfl⟩
  · intro sym hsym e hread
    obtain ⟨⟨d, hd, hlookup⟩, -⟩ := run_symbolLookupCache.mp hread
    obtain ⟨c, hc, hpayload⟩ := payload_collect hs hrun hd
    rw [hpayload, if_neg hsym] at hlookup
    exact run_symbolLookupCache.mpr ⟨⟨c, hc, hlookup⟩, rfl⟩

namespace Session

/-- A symbol of the table and one beside it, both found in an environment that nothing holds. -/
def rememberers : List Step :=
  [.command (.request (.symbol #[120])) (some "x"),
    .command (.request (.allocate .symbol 0 [])) (some "s"),
    .command (.preserve (.register "s")) none,
    .command (.request (.environment [.register "x", .register "s"] [.handle .nil, .handle .nil]
      (.handle .nil))) (some "e"),
    .command (.findVar (.register "e") (.register "x")) none,
    .command (.findVar (.register "e") (.register "s")) none]

/-- A full collection reclaims the environment. The symbol of the table forgets it, the other
symbol still remembers it. -/
theorem lookups_forgotten_beyondTable : ∃ start replies state heap o heap',
    Heap.build { segmentCells := 8 } Heap.mixHash = .ok start ∧
    ((runSteps Session.host rememberers).run {}).run start = .ok ((replies, state), heap) ∧
    (collect .full .requested).run heap = .ok (o, heap') ∧
    (symbolLookupCache ⟨2⟩).run heap' = .ok (.nil, heap') ∧
    (symbolLookupCache ⟨3⟩).run heap = .ok (⟨6⟩, heap) ∧
    (symbolLookupCache ⟨3⟩).run heap' = .ok (⟨6⟩, heap') ∧ heap'.arena.contains ⟨6⟩ = false := by
  obtain ⟨⟨_, ⟨replies, state⟩, heap, o, heap', e, _⟩, hall, htest⟩ := except_of_test
    (x := do
      let start ← Heap.build { segmentCells := 8 } Heap.mixHash
      let first ← ((runSteps Session.host rememberers).run {}).run start
      let last ← (collect .full .requested).run first.2
      let answer ← (symbolLookupCache ⟨3⟩).run last.2
      return (start, first.1, first.2, last.1, last.2, answer))
    (p := fun p : Heap × (List Reply × State) × Heap × Outcome × Heap × Handle × Heap =>
      p.2.2.1.symbols.handles == [⟨2⟩] && p.2.2.2.2.2.1 == ⟨6⟩ &&
        !p.2.2.2.2.1.arena.contains ⟨6⟩) (by decide +kernel)
  simp only [except_bind, pure, Except.pure, Except.ok.injEq, Prod.mk.injEq] at hall
  obtain ⟨start, hbuild, ⟨⟨replies, state⟩, heap⟩, hsteps, ⟨o, heap'⟩, hcollect, ⟨e, after⟩, hread,
    rfl, hfirst, rfl, rfl, rfl, rfl, rfl⟩ := hall
  obtain ⟨rfl, rfl⟩ := Prod.mk.inj hfirst
  simp only [Bool.and_eq_true, beq_iff_eq, Bool.not_eq_true'] at htest
  obtain ⟨⟨htable, rfl⟩, hgone⟩ := htest
  obtain ⟨-, hforgets⟩ := lookups_forgotten (.runSteps (.new rfl hbuild) hsteps)
  obtain ⟨hinside, hbeyond⟩ := hforgets hcollect
  obtain ⟨-, rfl⟩ := run_symbolLookupCache.mp hread
  refine ⟨start, replies, state, heap, o, _, hbuild, hsteps, hcollect, hinside ⟨2⟩ ?_,
    hbeyond ⟨3⟩ ?_ ⟨6⟩ hread, hread, hgone⟩
  · rw [htable]
    decide
  · rw [htable]
    decide

end Session

end ManagedHeap
