import ManagedHeap.Proofs.HeapHistories
import ManagedHeap.Proofs.SessionCacheSteps

/-!
# Interning is unique

Interning looks up, allocates, and enters what it made. A finalizer that the allocation runs
may intern the same bytes in between, and then there are two. As long as no finalizer does, and
none lets go of what operations keep, one string is cached with these bytes in each encoding,
and one symbol is entered under them for good.
-/

namespace ManagedHeap

def CacheRules.aloof (bytes : Bytes) : CacheRules where
  caches _ b _ := b ≠ bytes
  enters _ n _ := n ≠ bytes
  renews := False
  cuts := False

/-- What is done with these bytes where finalizers keep aloof: a string is cached that was not
there, and a symbol is entered that was not there, with its name. -/
def CacheRules.unique (bytes : Bytes) : CacheRules where
  caches heap b e := b = bytes → heap.Lacks b e
  enters heap n sym := n = bytes → heap.symbols.find? n = none ∧ heap.NamesSymbol sym n
  renews := False
  cuts := True

theorem CacheRules.aloof_within (bytes : Bytes) : (aloof bytes).Within (unique bytes) :=
  ⟨fun h he => absurd he h, fun h he => absurd he h, id, nofun⟩

theorem Payload.name?_forgetting (p : Payload) : p.forgetting.name? = p.name? := by
  cases p <;> rfl

namespace Heap

open Arena

variable {r : CacheRules} {pins : List Handle} {heap heap' : Heap} {bytes name : Bytes}
  {encoding : Encoding} {h sym : Handle}

theorem CacheSteps.lacks (hm : heap.CacheSteps (.aloof bytes) pins heap') (hf : heap.CacheExact)
    (hl : heap.Lacks bytes encoding) : heap'.Lacks bytes encoding := by
  induction hm with
  | refl => exact hl
  | @tail mid last hfirst hlast ih =>
    rcases hlast.texts (CacheSteps.cacheExact hfirst hf) with hold | ⟨k, b, e, hr, hnew⟩
    · exact fun h t ht => ih h t (hold h t ht)
    · intro h t ht
      rw [hnew] at ht
      split at ht
      · rw [Option.some.injEq] at ht
        subst ht
        exact fun hsame => hr hsame.1
      · exact ih h t ht

theorem CacheStep.symbols (hm : heap.CacheStep r pins heap') (hf : heap.CacheExact) (hr : ¬ r.renews) :
    heap'.symbols = heap.symbols ∨ ∃ name sym, r.enters heap name sym ∧
      heap' = { heap with symbols := heap.symbols.insert name sym } := by
  cases hm with
  | aside hbeside _ => exact .inl hbeside.symbols
  | edit => exact .inl rfl
  | claim _ _ _ _ hsymbols => exact .inl hsymbols
  | collect hs hrun =>
    obtain ⟨records, hcol⟩ := HeapM.collect_collected hs hrun
    obtain ⟨_, _, _, _, _, _, _, rfl⟩ := hcol.rest
    exact .inl rfl
  | cache hne hblank _ hrun =>
    obtain ⟨length, payload, -, hc⟩ := hblank
    obtain ⟨⟨_, _, _, rfl⟩, -⟩ := (hf.cacheString hne hc (Cell.cached_blank _ _) hrun).2
    exact .inl rfl
  | enter hr => exact .inr ⟨_, _, hr, rfl⟩
  | renew hrenews => exact absurd hrenews hr

theorem CacheSteps.find?_eq_none {s : CacheRules} (hm : heap.CacheSteps ((CacheRules.aloof bytes).caching s) pins heap')
    (hf : heap.CacheExact) (hl : heap.symbols.find? bytes = none) :
    heap'.symbols.find? bytes = none := by
  induction hm with
  | refl => exact hl
  | tail hfirst hlast ih =>
    rcases hlast.symbols (CacheSteps.cacheExact hfirst hf) id with hsame | ⟨n, sym, hr, rfl⟩
    · rw [hsame, ih]
    · exact (SymbolTable.find?_insert ..).trans ((if_neg (Ne.symm hr)).trans ih)

theorem CacheExact.ne_nil {t : Text} (hf : heap.CacheExact) (ht : heap.arena.textAt h = some t) :
    h ≠ .nil := by
  obtain ⟨shelf, hshelf⟩ := hf.shelved
  exact ((hshelf.linked _).cached (hshelf.mem ⟨t, ht⟩ ht)).1

theorem CacheStep.namesSymbol (hm : heap.CacheStep r pins heap') (hf : heap.CacheExact) (hr : ¬ r.renews)
    (hroot : sym ∈ heap.symbols.handles) (hnamesSymbol : heap.NamesSymbol sym name) :
    heap'.NamesSymbol sym name := by
  obtain ⟨pname, c, d, t, hc, hname, hd, hflag, ht, hbytes⟩ := hnamesSymbol
  have htext : heap.arena.textAt pname = some t := (textAt_of_get? hd).trans ht
  have hne : pname ≠ .nil := hf.ne_nil htext
  cases hm with
  | aside hbeside _ =>
    exact ⟨pname, c, d, t, (hbeside.cells _).trans hc, hname, (hbeside.cells _).trans hd, hflag,
      ht, hbytes⟩
  | @edit k e f he hedits =>
    have hlive : (f e).isFree = false := hedits.isFree.trans (get?_eq_some.mp he).2
    have hback : ∀ {g : Handle} {b : Cell}, heap.arena.get? g = some b →
        ∃ b', (heap.arena.setCell k f).get? g = some b' ∧ (b' = b ∨ b.Edits b') := by
      intro g b hb
      by_cases hk : g = k
      · subst hk
        rw [he, Option.some.injEq] at hb
        subst hb
        exact ⟨_, get?_setCell_self he hlive, .inr hedits⟩
      · exact ⟨b, (get?_setCell_ne hk).trans hb, .inl rfl⟩
    obtain ⟨c', hc', hcc⟩ := hback hc
    obtain ⟨d', hd', hdd⟩ := hback hd
    refine ⟨pname, c', d', t, hc', ?_, hd', ?_, ?_, hbytes⟩
    · rcases hcc with rfl | hcc
      · exact hname
      · exact hcc.name hname hne
    · rcases hdd with rfl | hdd
      · exact hflag
      · exact hdd.symbolName hflag
    · have hkept := textAt_congr (placeAt_setCell he hlive hedits.place pname)
      rw [textAt_of_get? hd', htext] at hkept
      exact hkept
  | @claim _ k kind length payload hp hdead hcells =>
    have hback : ∀ {g : Handle} {b : Cell}, heap.arena.get? g = some b →
        heap'.arena.get? g = some b := by
      intro g b hb
      rw [hcells, if_neg, hb]
      rintro rfl
      rw [hdead] at hb
      cases hb
    exact ⟨pname, c, d, t, hback hc, hname, hback hd, hflag, ht, hbytes⟩
  | @collect _ level reason o hs hrun =>
    obtain ⟨records, hcol⟩ := HeapM.collect_collected hs hrun
    have hcached := (Cell.text?_eq_some.mp ht).1
    obtain ⟨c', hc'⟩ := hcol.stayed hc (Collected.keeps_of_start hc (.inl
      (by simp [Heap.rootList, hroot])))
    obtain ⟨d', hd'⟩ := hcol.stayed hd (.inr (.inr ⟨(hs.proper hd).cached hcached, hcached, hflag⟩))
    have hsame := (hcol.same hd hd').lasting
    refine ⟨pname, c', d', t, hc', ?_, hd', (Cell.symbolName_of_lasting hsame).trans hflag,
      (Cell.text?_of_lasting hsame).trans ht, hbytes⟩
    rw [← Payload.name?_forgetting, Cell.forgetting_of_lasting (hcol.same hc hc').lasting,
      Payload.name?_forgetting, hname]
  | @cache _ k b e ascii u hnotNil hblank _ hrun =>
    obtain ⟨length, payload, hpayload, hb⟩ := hblank
    have hstores := (hf.cacheString hnotNil hb (Cell.cached_blank _ _) hrun).2
    have hsym : sym ≠ k := by
      rintro rfl
      rw [hb, Option.some.injEq] at hc
      subst hc
      exact hne (Payload.name?_of_forKind? hpayload hname)
    have hpname : pname ≠ k := by
      rintro rfl
      rw [hb, Option.some.injEq] at hd
      subst hd
      cases (Cell.text?_of_not_cached (Cell.cached_blank _ _)).symm.trans ht
    obtain ⟨c', hc', hcc⟩ := hstores.relinks.unlinked ((get?_setCell_ne hsym).trans hc)
    obtain ⟨d', hd', hdd⟩ := hstores.relinks.unlinked ((get?_setCell_ne hpname).trans hd)
    refine ⟨pname, c', d', t, hc', ?_, hd', ?_, (Cell.text?_of_unlinked hdd).trans ht, hbytes⟩
    · rw [Cell.payload_of_unlinked hcc, hname]
    · rw [Cell.flags, Cell.header_of_unlinked hdd]
      exact hflag
  | enter => exact ⟨pname, c, d, t, hc, hname, hd, hflag, ht, hbytes⟩
  | renew hrenews => exact absurd hrenews hr

/-- One cached string at most has these bytes in each encoding, and the symbol that is entered
under them has them for its name. -/
structure Unique (heap : Heap) (bytes : Bytes) : Prop where
  cacheExact : heap.CacheExact
  once : ∀ {h k t u}, heap.arena.textAt h = some t → heap.arena.textAt k = some u →
    t.bytes = bytes → u.bytes = bytes → t.encoding = u.encoding → h = k
  signed : ∀ {sym}, heap.symbols.find? bytes = some sym → heap.NamesSymbol sym bytes

theorem mem_handles_of_find? {t : SymbolTable} (hfind : t.find? name = some sym) :
    sym ∈ t.handles := by
  obtain ⟨e, he, rfl⟩ := Option.map_eq_some_iff.mp hfind
  exact List.mem_map_of_mem (List.mem_of_find?_eq_some he)

theorem CacheStep.find? (hm : heap.CacheStep (.unique bytes) pins heap') (hf : heap.CacheExact)
    (hfind : heap.symbols.find? bytes = some sym) : heap'.symbols.find? bytes = some sym := by
  rcases hm.symbols hf id with hsame | ⟨n, other, hr, rfl⟩
  · rw [hsame, hfind]
  · have hne : bytes ≠ n := by
      rintro rfl
      rw [(hr rfl).1] at hfind
      exact nomatch hfind
    exact (SymbolTable.find?_insert ..).trans ((if_neg hne).trans hfind)

theorem CacheStep.keeps_unique (hm : heap.CacheStep (.unique bytes) pins heap') (hu : heap.Unique bytes) :
    heap'.Unique bytes := by
  refine ⟨hm.cacheExact hu.cacheExact, fun {h k t u} ht hk htb hub hte => ?_, fun {sym} hfind => ?_⟩
  · rcases hm.texts hu.cacheExact with hold | ⟨g, b, e, hr, hnew⟩
    · exact hu.once (hold h t ht) (hold k u hk) htb hub hte
    · have hother : ∀ {k u}, heap.arena.textAt k = some u → u.bytes = b → u.encoding = e →
          b ≠ bytes := fun hk hb he hsame => hr hsame _ _ hk ⟨hb, he⟩
      rw [hnew] at ht hk
      split at ht
      · rename_i hh
        rw [Option.some.injEq] at ht
        subst hh ht
        split at hk
        · rename_i hk'
          exact hk'.symm
        · exact absurd htb (hother hk (hub.trans htb.symm) hte.symm)
      · split at hk
        · rename_i hk'
          rw [Option.some.injEq] at hk
          subst hk' hk
          exact absurd hub (hother ht (htb.trans hub.symm) hte)
        · exact hu.once ht hk htb hub hte
  · rcases hm.symbols hu.cacheExact id with hsame | ⟨n, other, hr, rfl⟩
    · rw [hsame] at hfind
      exact hm.namesSymbol hu.cacheExact id (mem_handles_of_find? hfind) (hu.signed hfind)
    · change (heap.symbols.insert n other).find? bytes = some sym at hfind
      rw [SymbolTable.find?_insert] at hfind
      split at hfind
      · rename_i hn
        subst hn
        exact Option.some.inj hfind ▸ (hr rfl).2
      · exact hu.signed hfind

theorem CacheSteps.keeps_unique (hm : heap.CacheSteps (.unique bytes) pins heap') (hu : heap.Unique bytes) :
    heap'.Unique bytes := by
  induction hm with
  | refl => exact hu
  | tail _ hlast ih => exact hlast.keeps_unique ih

theorem CacheSteps.find? (hm : heap.CacheSteps (.unique bytes) pins heap') (hf : heap.CacheExact)
    (hfind : heap.symbols.find? bytes = some sym) : heap'.symbols.find? bytes = some sym := by
  induction hm with
  | refl => exact hfind
  | tail hfirst hlast ih => exact hlast.find? (CacheSteps.cacheExact hfirst hf) ih

theorem CacheStep.history (hm : heap.CacheStep r pins heap') (hf : heap.CacheExact) (hr : ¬ r.renews) :
    heap.history <+: heap'.history := by
  cases hm with
  | aside hbeside _ => exact hbeside.history
  | edit => exact List.prefix_refl _
  | claim _ _ _ _ _ _ _ hhistory => exact hhistory
  | collect hs hrun => exact ⟨_, (HeapM.collect_reports hs hrun).history.symm⟩
  | cache hne hblank _ hrun =>
    obtain ⟨length, payload, -, hc⟩ := hblank
    obtain ⟨⟨_, _, _, rfl⟩, -⟩ := (hf.cacheString hne hc (Cell.cached_blank _ _) hrun).2
    exact List.prefix_refl _
  | enter => exact List.prefix_refl _
  | renew hrenews => exact absurd hrenews hr

theorem CacheStep.Reclaims.freed {es : List Entry} (hr : Reclaims h heap heap')
    (hhistory : heap'.history = heap.history ++ es) : ∃ kind, .freed h kind ∈ es := by
  obtain ⟨hs, ⟨level, reason, o, hrun⟩, ⟨c, hc⟩, hd⟩ := hr
  have hreports : heap'.history = heap.history ++ _ := (HeapM.collect_reports hs hrun).history
  obtain rfl := List.append_cancel_left (hhistory.symm.trans hreports)
  have habout : .freed h c.kind ∈ Entry.about h ((heap.losses heap').map .loss) := by
    rw [Act.about_losses hs.tidy, hc, Option.filter_some, if_pos]
    · exact List.mem_singleton_self _
    · rw [Arena.contains, hd]
      rfl
  exact ⟨c.kind, List.mem_append_left _ (List.mem_filter.mp habout |>.1)⟩

theorem CacheSteps.history (hm : heap.CacheSteps r pins heap') (hf : heap.CacheExact) (hr : ¬ r.renews) :
    heap.history <+: heap'.history := by
  induction hm with
  | refl => exact List.prefix_refl _
  | tail hfirst hlast ih => exact ih.trans (hlast.history (CacheSteps.cacheExact hfirst hf) hr)

theorem CacheSteps.textAt {t : Text} {es : List Entry} (hm : heap.CacheSteps r pins heap') (hf : heap.CacheExact)
    (hr : ¬ r.renews) (ht : heap.arena.textAt h = some t)
    (hhistory : heap'.history = heap.history ++ es) (hkept : ∀ kind, .freed h kind ∉ es) :
    heap'.arena.textAt h = some t := by
  induction hm generalizing es with
  | refl => exact ht
  | @tail mid last hfirst hlast ih =>
    have hcacheExact := CacheSteps.cacheExact hfirst hf
    obtain ⟨fs, hfs⟩ := CacheSteps.history hfirst hf hr
    obtain ⟨gs, hgs⟩ := hlast.history hcacheExact hr
    obtain rfl : fs ++ gs = es := by
      rw [← hgs, ← hfs, List.append_assoc] at hhistory
      exact List.append_cancel_left hhistory
    have hmid := ih hfs.symm fun kind hmem => hkept kind (List.mem_append_left _ hmem)
    refine (hlast.textAt hcacheExact hr hmid).resolve_right fun hlost => ?_
    obtain ⟨kind, hfreed⟩ := hlost.freed hgs.symm
    exact hkept kind (List.mem_append_right _ hfreed)

end Heap

namespace HostM

variable {ω : Type} {host : Host ω} {heap heap' : Heap} {bytes : Bytes} {encoding : Encoding}

theorem internString_found {k : Handle} {t : Text} (hf : heap.CacheExact) (ht : heap.arena.Tidy)
    (hk : heap.arena.textAt k = some t) (hbytes : t.bytes = bytes)
    (hencoding : t.encoding = encoding.normalize (bytes.all (· < 128))) :
    Attempt.Triple (· = heap) (internString host bytes encoding) (fun _ => (· = heap))
      fun _ => False := by
  unfold internString
  refine .bind (Q := fun start now => start = heap ∧ now = heap)
    (.liftHost (.getHeap fun _ hs => ⟨hs, hs⟩)) fun start => ?_
  refine .bind (Q := fun found now => now = heap ∧ ∃ g, found = some g) (.lift ?_) fun found => ?_
  · rintro _ found heap' ⟨rfl, rfl⟩ hrun
    obtain ⟨found', hfound, -, hnone⟩ :=
      hf.findCached ht bytes (encoding.normalize (bytes.all (· < 128)))
    rw [hrun, Except.ok.injEq, Prod.mk.injEq] at hfound
    obtain ⟨rfl, rfl⟩ := hfound
    cases found with
    | some g => exact ⟨rfl, g, rfl⟩
    | none => exact absurd ⟨hbytes, hencoding⟩ (hnone rfl k t hk)
  · cases found with
    | some g => exact .pure fun _ h => h.1
    | none => exact .conseq .absurd (fun _ ⟨_, _, hno⟩ => nomatch hno) (fun _ _ => id) fun _ => id

end HostM

namespace Session

open HostM

variable {bytes : Bytes}

/-- A command that a finalizer may give with these bytes interned meanwhile: it interns others,
and neither leaves a scope nor goes on with another heap. -/
def Command.Aloof (bytes : Bytes) : Command → Prop
  | .request (.string b _) => b ≠ bytes
  | .request (.symbol name) => name ≠ bytes
  | .leaveScope _ => False
  | .replaceHeap => False
  | _ => True

/-- Any command but the one to go on with another heap. -/
def Command.Remains : Command → Prop
  | .replaceHeap => False
  | _ => True

theorem Command.Aloof.permitted {c : Command} (hc : c.Aloof bytes) :
    c.Permitted (.aloof bytes) (.aloof bytes) := by
  cases c with
  | request q =>
    cases q with
    | string b encoding => exact fun _ _ _ => hc
    | symbol name => exact ⟨fun _ _ _ => hc, fun _ _ _ _ => hc⟩
    | _ => exact trivial
  | leaveScope => exact hc
  | replaceHeap => exact hc.elim
  | _ => exact trivial

theorem Command.Remains.permitted {c : Command} (hc : c.Remains) :
    c.Permitted (.aloof bytes) (.unique bytes) := by
  have hmay : ∀ {b encoding}, (CacheRules.aloof bytes).MayCache (.unique bytes) b encoding := by
    intro b encoding pins start heap hg hlacks hmoves hsame
    subst hsame
    exact hmoves.lacks hg.cacheExact hlacks
  cases c with
  | request q =>
    cases q with
    | string b encoding => exact fun {_ _ _} hg hlacks hmoves => hmay hg hlacks hmoves
    | symbol name =>
      refine ⟨fun {_ _ _} hg hlacks hmoves => hmay hg hlacks hmoves, ?_⟩
      intro pins start heap sym hg hnone hmoves hnamesSymbol hsame
      subst hsame
      exact ⟨hmoves.find?_eq_none hg.cacheExact hnone, hnamesSymbol id id⟩
    | _ => exact trivial
  | leaveScope => exact trivial
  | replaceHeap => exact hc.elim
  | _ => exact trivial

mutual

theorem Step.Obeys.mono {own own' scripts scripts' : Command → Prop} (ho : ∀ c, own c → own' c)
    (hs : ∀ c, scripts c → scripts' c) :
    ∀ {step : Step}, step.Obeys own scripts → step.Obeys own' scripts'
  | .command c store, h => by
    rw [Step.Obeys] at h ⊢
    exact ho c h
  | .scope steps, h => by
    rw [Step.Obeys] at h ⊢
    exact Obey.mono ho hs h
  | .times n steps, h => by
    rw [Step.Obeys] at h ⊢
    exact Obey.mono ho hs h
  | .setScript routine steps ending, h => by
    rw [Step.Obeys] at h ⊢
    exact Obey.mono hs hs h

theorem Obey.mono {own own' scripts scripts' : Command → Prop} (ho : ∀ c, own c → own' c)
    (hs : ∀ c, scripts c → scripts' c) :
    ∀ {steps : List Step}, Obey own scripts steps → Obey own' scripts' steps
  | [], _ => by
    rw [Obey]
    exact trivial
  | step :: steps, h => by
    rw [Obey] at h ⊢
    exact ⟨Step.Obeys.mono ho hs h.1, Obey.mono ho hs h.2⟩

end

/-- The states of sessions on a new heap that stay with it and set only scripts that keep aloof
from these bytes. -/
inductive Undisturbed (bytes : Bytes) : State → Heap → Prop
  | new {config : Config} {hash : Bytes → Encoding → UInt32} {heap : Heap} :
      config.validate = .ok () → Heap.build config hash = .ok heap → Undisturbed bytes {} heap
  | step {levels : Nat} {step : Step} {reply : Reply} {state state' : State}
      {heap heap' : Heap} : Undisturbed bytes state heap →
      step.Obeys Command.Remains (Command.Aloof bytes) →
      ((runStep (hostWithin levels) step).run state).run heap = .ok ((reply, state'), heap') →
      Undisturbed bytes state' heap'

variable {state state' : State} {heap heap' : Heap} {levels : Nat}

namespace Undisturbed

theorem reachable (hu : Undisturbed bytes state heap) : Reachable state heap := by
  induction hu with
  | new hvalid hbuild => exact .new hvalid hbuild
  | step _ _ hrun ih => exact .step ih hrun

theorem runSteps {steps : List Step} {replies : List Reply} (hu : Undisturbed bytes state heap)
    (hsteps : Obey Command.Remains (Command.Aloof bytes) steps)
    (hrun : ((Session.runSteps (hostWithin levels) steps).run state).run heap =
      .ok ((replies, state'), heap')) : Undisturbed bytes state' heap' := by
  induction steps generalizing state heap replies with
  | nil =>
    rw [Session.runSteps] at hrun
    obtain ⟨hsame, rfl⟩ := run_pure.mp hrun
    obtain ⟨-, rfl⟩ := Prod.mk.inj hsame
    exact hu
  | cons step steps ih =>
    rw [Session.runSteps] at hrun
    rw [Obey] at hsteps
    obtain ⟨reply, mid, between, hfirst, hrest⟩ := run_bindM.mp hrun
    obtain ⟨replies', mid', between', hlater, hlast⟩ := run_bindM.mp hrest
    obtain ⟨hsame, rfl⟩ := run_pure.mp hlast
    obtain ⟨-, rfl⟩ := Prod.mk.inj hsame
    exact ih (.step hu hsteps.1 hfirst) hsteps.2 hlater

theorem invariant (hu : Undisturbed bytes state heap) :
    state.Obeys (Command.Permitted (.aloof bytes) (.aloof bytes)) ∧ heap.Unique bytes := by
  induction hu with
  | new hvalid hbuild =>
    have hnone := Heap.build_textAt hbuild
    refine ⟨nofun, Heap.build_cacheExact (Config.valid_of_ok hvalid) hbuild, fun ht => ?_, fun hfind => ?_⟩
    · exact nomatch (hnone _).symm.trans ht
    · obtain ⟨arena, -, rfl⟩ := Heap.build_eq_ok hbuild
      exact nomatch hfind
  | @step levels step reply state state' heap heap' hbefore hstep hrun ih =>
    have hpermitted : step.Obeys (Command.Permitted (.aloof bytes) (.unique bytes))
        (Command.Permitted (.aloof bytes) (.aloof bytes)) :=
      hstep.mono (fun _ hc => hc.permitted) fun _ hc => hc.permitted
    obtain ⟨hobeys, hmoves, -⟩ := runStep_byCacheSteps (hostWithin_byCacheSteps levels) (CacheRules.aloof_within bytes)
      (fun _ => rfl) hpermitted state heap reply state' heap' ih.1
      ih.2.cacheExact.guards hbefore.reachable.sound hrun
    exact ⟨hobeys, hmoves.keeps_unique ih.2⟩

theorem moves {steps : List Step} {replies : List Reply} (hu : Undisturbed bytes state heap)
    (hsteps : Obey Command.Remains (Command.Aloof bytes) steps)
    (hrun : ((Session.runSteps (hostWithin levels) steps).run state).run heap =
      .ok ((replies, state'), heap')) : heap.CacheSteps (.unique bytes) [] heap' :=
  (runSteps_byCacheSteps (hostWithin_byCacheSteps levels) (CacheRules.aloof_within bytes) (fun _ => rfl)
    (Obey.mono (fun _ hc => hc.permitted) (fun _ hc => hc.permitted) hsteps)
    state heap replies state' heap' hu.invariant.1 hu.invariant.2.cacheExact.guards
    hu.reachable.sound hrun).2.1


end Undisturbed

/-- The command replies with an object. -/
def Gives (c : Command) (state : State) (heap : Heap) (h : Handle) (state' : State)
    (heap' : Heap) : Prop :=
  ∃ levels store, ((runStep (hostWithin levels) (.command c store)).run state).run heap =
    .ok ((.handle h, state'), heap')

/-- Steps lead from one state to the other. They stay with the heap, and scripts that they set
keep aloof from these bytes. -/
def Proceeds (bytes : Bytes) (state : State) (heap : Heap) (state' : State) (heap' : Heap) :
    Prop :=
  ∃ levels steps replies, Obey Command.Remains (Command.Aloof bytes) steps ∧
    ((runSteps (hostWithin levels) steps).run state).run heap = .ok ((replies, state'), heap')

variable {h : Handle} {encoding : Encoding}

namespace Undisturbed

theorem gives {q : Request} (hu : Undisturbed bytes state heap)
    (hg : Gives (.request q) state heap h state' heap') :
    Undisturbed bytes state' heap' ∧ ∃ levels between,
      ((Session.request (hostWithin levels) q).run.run state).run heap =
        .ok ((.ok h, between), heap') := by
  obtain ⟨levels, store, hrun⟩ := hg
  refine ⟨.step hu (by rw [Step.Obeys]; exact trivial) hrun, levels, ?_⟩
  obtain ⟨between, hperform⟩ := runStep_command hrun
  obtain ⟨result, mid, last, hrequest, hreply⟩ := run_bindM.mp hperform
  obtain ⟨hsame, rfl⟩ := run_pure.mp hreply
  obtain ⟨hhandle, rfl⟩ := Prod.mk.inj hsame
  cases result with
  | error e => exact nomatch hhandle
  | ok g =>
    obtain rfl := Reply.handle.inj hhandle
    exact ⟨_, hrequest⟩

theorem gives_string (hu : Undisturbed bytes state heap)
    (hg : Gives (.request (.string bytes encoding)) state heap h state' heap') :
    ∃ t, heap'.arena.textAt h = some t ∧ t.bytes = bytes ∧
      t.encoding = encoding.normalize (bytes.all (· < 128)) := by
  obtain ⟨-, levels, between, hrun⟩ := hu.gives hg
  have hremains : (Command.request (.string bytes encoding)).Remains := trivial
  obtain ⟨-, -, -, ht⟩ := goes_internString (hostWithin_byCacheSteps levels) (CacheRules.aloof_within bytes)
    nofun (fun {_ _ _} hg hl hm => hremains.permitted hg hl hm)
    state heap (.ok h) between heap' hu.invariant.1 hu.invariant.2.cacheExact.guards hu.reachable.sound hrun
  exact ⟨_, ht, rfl, rfl⟩

theorem gives_found {k : Handle} {t : Text} (hu : Undisturbed bytes state heap)
    (hg : Gives (.request (.string bytes encoding)) state heap h state' heap')
    (hk : heap.arena.textAt k = some t) (hbytes : t.bytes = bytes)
    (hencoding : t.encoding = encoding.normalize (bytes.all (· < 128))) : heap' = heap := by
  obtain ⟨-, levels, between, hrun⟩ := hu.gives hg
  exact internString_found hu.invariant.2.cacheExact hu.reachable.sound.tidy hk hbytes hencoding
    state heap _ heap' rfl hrun

theorem gives_symbol (hu : Undisturbed bytes state heap)
    (hg : Gives (.request (.symbol bytes)) state heap h state' heap') :
    heap.CacheSteps (.unique bytes) [] heap' ∧ heap'.symbols.find? bytes = some h := by
  obtain ⟨-, levels, between, hrun⟩ := hu.gives hg
  have hremains : (Command.request (.symbol bytes)).Remains := trivial
  obtain ⟨-, hmoves, -, hfind⟩ := goes_internSymbol (hostWithin_byCacheSteps levels)
    (CacheRules.aloof_within bytes) nofun hremains.permitted.1 hremains.permitted.2
    state heap (.ok h) between heap' hu.invariant.1
    hu.invariant.2.cacheExact.guards hu.reachable.sound hrun
  exact ⟨hmoves, hfind⟩

end Undisturbed

/-- As long as finalizers keep aloof from these bytes, no two cached strings have them in the
same encoding, in no heap that a run leads through. Who interns them twice gets the same string
again if it is still cached with these bytes, and so it is unless the history says that its cell was
given back in between. The symbol is the same in any case, and its name has just these bytes. -/
theorem interning_unique (hu : Undisturbed bytes state heap) :
    (∀ mid, heap.CacheSteps (.unique bytes) [] mid → ∀ h k t u,
      mid.arena.textAt h = some t → mid.arena.textAt k = some u → t.bytes = bytes →
      u.bytes = bytes → t.encoding = u.encoding → h = k) ∧
    (∀ encoding encoding' h h' state₁ state₂ state₃ heap₁ heap₂ heap₃,
      Gives (.request (.string bytes encoding)) state heap h state₁ heap₁ →
      Proceeds bytes state₁ heap₁ state₂ heap₂ →
      Gives (.request (.string bytes encoding')) state₂ heap₂ h' state₃ heap₃ →
      encoding.normalize (bytes.all (· < 128)) = encoding'.normalize (bytes.all (· < 128)) →
      ∃ t es, heap₁.arena.textAt h = some t ∧ heap₂.history = heap₁.history ++ es ∧
        (heap₂.arena.textAt h = some t → h' = h) ∧
        ((∀ kind, .freed h kind ∉ es) → h' = h)) ∧
    ∀ h h' state₁ state₂ state₃ heap₁ heap₂ heap₃,
      Gives (.request (.symbol bytes)) state heap h state₁ heap₁ →
      Proceeds bytes state₁ heap₁ state₂ heap₂ →
      Gives (.request (.symbol bytes)) state₂ heap₂ h' state₃ heap₃ →
      h' = h ∧ heap₃.NamesSymbol h' bytes := by
  refine ⟨fun mid hmoves h k t u => (hmoves.keeps_unique hu.invariant.2).once, ?_, ?_⟩
  · rintro encoding encoding' h h' state₁ state₂ state₃ heap₁ heap₂ heap₃ hfirst
      ⟨levels, steps, replies, hsteps, hrun⟩ hagain hsame
    have hu₁ := (hu.gives hfirst).1
    have hu₂ := hu₁.runSteps hsteps hrun
    obtain ⟨t, ht, hbytes, hencoding⟩ := hu.gives_string hfirst
    have hmoves := hu₁.moves hsteps hrun
    obtain ⟨es, hes⟩ := hmoves.history hu₁.invariant.2.cacheExact id
    have hagain : heap₂.arena.textAt h = some t → h' = h := by
      intro hkept
      obtain ⟨u, hu', hbytes', hencoding'⟩ := hu₂.gives_string hagain
      obtain rfl := hu₂.gives_found hagain hkept hbytes (hencoding.trans hsame)
      exact hu₂.invariant.2.once hu' hkept hbytes' hbytes
        (hencoding'.trans (hsame.symm.trans hencoding.symm))
    exact ⟨t, es, ht, hes.symm, hagain, fun hkept =>
      hagain (hmoves.textAt hu₁.invariant.2.cacheExact id ht hes.symm hkept)⟩
  · rintro h h' state₁ state₂ state₃ heap₁ heap₂ heap₃ hfirst
      ⟨levels, steps, replies, hsteps, hrun⟩ hagain
    have hu₁ := (hu.gives hfirst).1
    have hu₂ := hu₁.runSteps hsteps hrun
    have hfind := (hu₁.moves hsteps hrun).find? hu₁.invariant.2.cacheExact (hu.gives_symbol hfirst).2
    obtain ⟨hmoves, hfind'⟩ := hu₂.gives_symbol hagain
    refine ⟨?_, (hu₂.gives hagain).1.invariant.2.signed hfind'⟩
    have hkept := hmoves.find? hu₂.invariant.2.cacheExact hfind
    exact Option.some.inj (hfind'.symm.trans hkept)

/-- The finalizer of a pair lets go of two strings and interns another one, and no cell is left
before. -/
def otherInterned : List Step :=
  [.setScript 0 [.command (.release (.register "p")) none, .command (.release (.register "q")) none,
      .command (.request (.string #[121] .utf8)) none] .ok,
    .command (.request (.cons (.handle .nil) (.handle .nil))) (some "k"),
    .command (.request (.nativeFinalizer (.register "k") 0 false)) none,
    .command (.request (.string #[97] .utf8)) (some "p"), .command (.preserve (.register "p")) none,
    .command (.request (.string #[98] .utf8)) (some "q"), .command (.preserve (.register "q")) none,
    .command (.request (.string #[99] .utf8)) (some "a"), .command (.preserve (.register "a")) none,
    .command (.request (.string #[100] .utf8)) (some "b"), .command (.preserve (.register "b")) none,
    .command (.request (.string #[101] .utf8)) (some "c"), .command (.preserve (.register "c")) none]

/-- Interning a symbol, which runs the finalizer in the middle. -/
def interned : Command := .request (.symbol #[120])

/-- The symbol that is interned while the finalizer runs is the one that is interned after a
collection. -/
theorem interning_unique_otherInterned : ∃ start replies state mid h state₁ heap₁ replies₂ state₂
    heap₂ h' state₃ heap₃,
    Heap.build { segmentCells := 5, maxCells := some 10 } Heap.mixHash = .ok start ∧
    ((runSteps Session.host otherInterned).run {}).run start = .ok ((replies, state), mid) ∧
    ((runStep Session.host (.command interned none)).run state).run mid =
      .ok ((.handle h, state₁), heap₁) ∧
    mid.finalizers.run = 0 ∧ heap₁.finalizers.run = 1 ∧
    ((runSteps Session.host [.command (.collect .full) none]).run state₁).run heap₁ =
      .ok ((replies₂, state₂), heap₂) ∧
    ((runStep Session.host (.command interned none)).run state₂).run heap₂ =
      .ok ((.handle h', state₃), heap₃) ∧
    h' = h ∧ heap₃.NamesSymbol h' #[120] := by
  obtain ⟨⟨start, zero, one, two, last⟩, hall, htest⟩ := except_of_test
    (x := do
      let start ← Heap.build { segmentCells := 5, maxCells := some 10 } Heap.mixHash
      let zero ← ((runSteps Session.host otherInterned).run {}).run start
      let one ← ((runStep Session.host (.command interned none)).run zero.1.2).run zero.2
      let two ← ((runSteps Session.host [.command (.collect .full) none]).run one.1.2).run one.2
      let last ← ((runStep Session.host (.command interned none)).run two.1.2).run two.2
      return (start, zero, one, two, last))
    (p := fun p : Heap × ((List Reply × State) × Heap) × ((Reply × State) × Heap) ×
        ((List Reply × State) × Heap) × ((Reply × State) × Heap) =>
      (p.2.2.1.1.1.handle?.isSome && p.2.2.2.2.1.1.handle?.isSome) &&
        (p.2.1.2.finalizers.run == 0 && p.2.2.1.2.finalizers.run == 1)) (by decide +kernel)
  simp only [except_bind, pure, Except.pure, Except.ok.injEq, Prod.mk.injEq] at hall
  obtain ⟨start, hbuild, ⟨⟨replies, state⟩, mid⟩, hsteps, ⟨⟨reply, state₁⟩, heap₁⟩, hfirst,
    ⟨⟨replies₂, state₂⟩, heap₂⟩, hcollect, ⟨⟨reply', state₃⟩, heap₃⟩, hagain, rfl, rfl, rfl, rfl,
    rfl⟩ := hall
  dsimp only at htest hsteps hfirst hcollect hagain
  have hu : Undisturbed #[120] state mid :=
    .runSteps (.new rfl hbuild) (by simp [otherInterned, Obey, Step.Obeys, Command.Aloof,
      Command.Remains]) hsteps
  simp only [Bool.and_eq_true, beq_iff_eq] at htest
  obtain ⟨⟨hone, htwo⟩, hbefore, hafter⟩ := htest
  obtain ⟨h, rfl⟩ := Reply.eq_of_isSome_handle? hone
  obtain ⟨h', rfl⟩ := Reply.eq_of_isSome_handle? htwo
  refine ⟨start, replies, state, mid, h, state₁, heap₁, replies₂, state₂, heap₂, h', state₃, heap₃,
    hbuild, hsteps, hfirst, hbefore, hafter, hcollect, hagain, ?_⟩
  exact (interning_unique hu).2.2 h h' _ _ _ _ _ _ ⟨_, _, hfirst⟩
    ⟨_, _, _, by simp [Obey, Step.Obeys, Command.Remains], hcollect⟩ ⟨_, _, hagain⟩

end Session

end ManagedHeap
