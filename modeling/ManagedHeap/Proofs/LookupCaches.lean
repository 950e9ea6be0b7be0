import ManagedHeap.Proofs.SessionEffects

/-!
# What symbols remember

A symbol remembers the environment in which it was found last. Only a search makes it remember
one, and finds that environment alive; a collection, which alone could take it away, makes all
symbols of the table forget. It goes by the table, so a symbol that never got a name remembers an
environment beyond its end.
-/

namespace ManagedHeap

def Payload.lookup? : Payload → Option Handle
  | .symbol _ _ _ lastEnv => some lastEnv
  | _ => none

theorem Payload.lookup?_forgetting (p : Payload) :
    p.forgetting.lookup? = p.lookup?.map fun _ => .nil := by
  cases p <;> rfl

theorem Payload.lookup?_suits {p : Payload} {kind : Kind} {e : Handle} (hp : p.lookup? = some e)
    (hsuits : p.suits kind = true) : kind = .symbol := by
  cases p
  case symbol => cases kind <;> first | rfl | cases hsuits
  all_goals cases hp

namespace Heap

def HasEnv (heap : Heap) (e : Handle) : Prop :=
  ∃ c, heap.arena.get? e = some c ∧ c.kind = .environment

def LookupLive (heap : Heap) (sym : Handle) : Prop :=
  ∃ c e, heap.arena.get? sym = some c ∧ c.payload.lookup? = some e ∧ (e = .nil ∨ heap.HasEnv e)

def LookupsLive (heap : Heap) : Prop := ∀ sym ∈ heap.symbols.handles, heap.LookupLive sym

/-- Nothing dies, and if a symbol remembers another environment then one that is there. -/
structure KeepsLookups (heap heap' : Heap) : Prop where
  symbols : heap'.symbols = heap.symbols
  kept : ∀ {h c}, heap.arena.get? h = some c → ∃ d, heap'.arena.get? h = some d ∧ d.kind = c.kind ∧
    ∀ e, c.payload.lookup? = some e →
      ∃ e', d.payload.lookup? = some e' ∧ (e' = e ∨ heap'.HasEnv e')

namespace KeepsLookups

variable {heap mid heap' : Heap} {h e : Handle} {c : Cell} {f : Cell → Cell}

theorem hasEnv (hh : heap.KeepsLookups heap') (he : heap.HasEnv e) : heap'.HasEnv e := by
  obtain ⟨c, hc, hkind⟩ := he
  obtain ⟨d, hd, hdc, -⟩ := hh.kept hc
  exact ⟨d, hd, hdc.trans hkind⟩

theorem lookupLive (hh : heap.KeepsLookups heap') (hr : heap.LookupLive h) : heap'.LookupLive h := by
  obtain ⟨c, e, hc, hlookup, he⟩ := hr
  obtain ⟨d, hd, -, hkept⟩ := hh.kept hc
  obtain ⟨e', hlookup', rfl | he'⟩ := hkept e hlookup
  · exact ⟨d, e', hd, hlookup', he.imp_right hh.hasEnv⟩
  · exact ⟨d, e', hd, hlookup', .inr he'⟩

theorem lookupsLive (hh : heap.KeepsLookups heap') (hm : heap.LookupsLive) : heap'.LookupsLive := by
  intro sym hsym
  rw [hh.symbols] at hsym
  exact hh.lookupLive (hm sym hsym)

theorem trans (hfirst : heap.KeepsLookups mid) (hlast : mid.KeepsLookups heap') : heap.KeepsLookups heap' where
  symbols := hlast.symbols.trans hfirst.symbols
  kept := by
    intro h c hc
    obtain ⟨d, hd, hdc, hfound⟩ := hfirst.kept hc
    obtain ⟨x, hx, hxd, hfound'⟩ := hlast.kept hd
    refine ⟨x, hx, hxd.trans hdc, fun e he => ?_⟩
    obtain ⟨e', he', hsame⟩ := hfound e he
    obtain ⟨e'', he'', rfl | hthere⟩ := hfound' e' he'
    · exact ⟨e'', he'', hsame.imp_right hlast.hasEnv⟩
    · exact ⟨e'', he'', .inr hthere⟩

theorem of_cells (hsymbols : heap'.symbols = heap.symbols)
    (hcells : ∀ {h c}, heap.arena.get? h = some c → heap'.arena.get? h = some c) :
    heap.KeepsLookups heap' :=
  ⟨hsymbols, fun hc => ⟨_, hcells hc, rfl, fun e he => ⟨e, he, .inl rfl⟩⟩⟩

theorem aside (harena : heap'.arena = heap.arena) (hsymbols : heap'.symbols = heap.symbols) :
    heap.KeepsLookups heap' := of_cells hsymbols fun hc => harena ▸ hc

theorem refl (heap : Heap) : heap.KeepsLookups heap := aside rfl rfl

theorem beside (hb : heap.Besides heap') : heap.KeepsLookups heap' := by
  obtain ⟨-, _, _, _, _, _, _, _, rfl⟩ := hb
  exact aside rfl rfl

theorem setCell (hc : heap.arena.get? h = some c) (hkind : (f c).kind = c.kind)
    (hlookup : ∀ e, c.payload.lookup? = some e →
      ∃ e', (f c).payload.lookup? = some e' ∧ (e' = e ∨ heap.HasEnv e')) :
    heap.KeepsLookups { heap with arena := heap.arena.setCell h f } := by
  have hlive : (f c).isFree = false := by
    rw [Cell.isFree, Header.isFree, show (f c).header.kind = c.header.kind from hkind]
    exact (Arena.get?_eq_some.mp hc).2
  have hself := Arena.get?_setCell_self (a := heap.arena) hc hlive
  have hkinds : ∀ {k d}, heap.arena.get? k = some d →
      ∃ x, (heap.arena.setCell h f).get? k = some x ∧ x.kind = d.kind := by
    intro k d hd
    by_cases hk : k = h
    · subst hk
      obtain rfl := Option.some.inj (hc.symm.trans hd)
      exact ⟨_, hself, hkind⟩
    · exact ⟨d, (Arena.get?_setCell_ne hk).trans hd, rfl⟩
  refine ⟨rfl, fun {k d} hd => ?_⟩
  by_cases hk : k = h
  · subst hk
    obtain rfl := Option.some.inj (hc.symm.trans hd)
    refine ⟨_, hself, hkind, fun e he => ?_⟩
    obtain ⟨e', he', hsame | ⟨x, hx, henv⟩⟩ := hlookup e he
    · exact ⟨e', he', .inl hsame⟩
    · obtain ⟨y, hy, hyx⟩ := hkinds hx
      exact ⟨e', he', .inr ⟨y, hy, hyx.trans henv⟩⟩
  · exact ⟨d, (Arena.get?_setCell_ne hk).trans hd, rfl, fun e he => ⟨e, he, .inl rfl⟩⟩

theorem edit (hc : heap.arena.get? h = some c) (hkind : (f c).kind = c.kind)
    (hlookup : (f c).payload.lookup? = c.payload.lookup?) :
    heap.KeepsLookups { heap with arena := heap.arena.setCell h f } :=
  setCell hc hkind fun e he => ⟨e, hlookup.trans he, .inl rfl⟩

end KeepsLookups

theorem Sound.lookup?_fresh {heap : Heap} {kind : Kind} {h : Handle} (hs : heap.Sound)
    (hfresh : heap.Fresh kind h) (hkind : kind ≠ .symbol) :
    ∃ c, heap.arena.get? h = some c ∧ c.payload.lookup? = none := by
  obtain ⟨c, hc, hheader⟩ := hfresh
  refine ⟨c, hc, ?_⟩
  cases hlookup : c.payload.lookup? with
  | none => rfl
  | some e =>
    have hsymbol := Payload.lookup?_suits hlookup (hs.proper hc).suits
    rw [Cell.kind, hheader] at hsymbol
    exact absurd hsymbol hkind

end Heap

namespace HeapM

variable {α β : Type} {heap heap' : Heap} {x act : HeapM α} {g : α → HeapM β}
  {h value old : Handle} {f : Cell → Cell}

def KeepsLookups (act : HeapM α) : Prop :=
  ∀ heap a heap', act.run heap = .ok (a, heap') → heap.KeepsLookups heap'

namespace KeepsLookups

theorem bind (hx : KeepsLookups x) (hg : ∀ a, KeepsLookups (g a)) : KeepsLookups (x >>= g) := by
  intro heap b heap' hrun
  obtain ⟨a, mid, hfirst, hrest⟩ := run_bind.mp hrun
  exact (hx heap a mid hfirst).trans (hg a mid b heap' hrest)

theorem of_reads (hx : Reads x) : KeepsLookups x := by
  intro heap a heap' hrun
  obtain rfl := hx heap a heap' hrun
  exact .refl heap'

theorem pure {a : α} : KeepsLookups (pure a) := of_reads .pure

theorem throw {e : Fault} : KeepsLookups (throw e : HeapM α) := of_reads .throw

theorem modify {f : Heap → Heap} (harena : ∀ heap, (f heap).arena = heap.arena)
    (hsymbols : ∀ heap, (f heap).symbols = heap.symbols) : KeepsLookups (modify f) := by
  intro heap u heap' hrun
  obtain rfl := run_modify.mp hrun
  exact .aside (harena heap) (hsymbols heap)

theorem modifyStrings {f : StringCache → StringCache} : KeepsLookups (modifyStrings f) :=
  modify (fun _ => rfl) fun _ => rfl

theorem note {e : Event} : KeepsLookups (note e) := modify (fun _ => rfl) fun _ => rfl

theorem updateCell (hkind : ∀ c, (f c).kind = c.kind)
    (hlookup : ∀ c, (f c).payload.lookup? = c.payload.lookup?) : KeepsLookups (updateCell h f) := by
  intro heap u heap' hrun
  obtain ⟨⟨c, hc⟩, rfl⟩ := run_updateCell.mp hrun
  exact .edit hc (hkind c) (hlookup c)

theorem mapFlags {f : Flags → Flags} : KeepsLookups (HeapM.updateCell h (Cell.mapFlags f)) :=
  updateCell (fun _ => rfl) fun _ => rfl

theorem rewrite {c : Cell} {p : Payload} {u : PUnit} (hc : heap.arena.get? h = some c)
    (hcp : c.payload.lookup? = none) (hp : p.lookup? = none)
    (hrun : (HeapM.updateCell h fun c => { c with payload := p }).run heap = .ok (u, heap')) :
    heap.KeepsLookups heap' := by
  obtain ⟨-, rfl⟩ := run_updateCell.mp hrun
  exact .edit hc rfl (hp.trans hcp.symm)

theorem payload_bind {k : Payload → HeapM β} (hk : ∀ p heap c b heap',
      heap.arena.get? h = some c → c.payload = p → (k p).run heap = .ok (b, heap') →
      heap.KeepsLookups heap') : KeepsLookups (payload h >>= k) := by
  intro heap b heap' hrun
  obtain ⟨p, mid, hread, hrest⟩ := run_bind.mp hrun
  obtain ⟨c, hc, hp, rfl⟩ := run_payload.mp hread
  exact hk p heap c b heap' hc hp hrest

theorem noteWrite : KeepsLookups (noteWrite h) := by
  refine bind (updateCell (fun _ => rfl) fun _ => rfl) fun _ => bind (of_reads .cell) fun c => ?_
  dsimp only
  split
  · exact bind mapFlags fun _ => modify (fun _ => rfl) fun _ => rfl
  · exact pure

theorem incrementRefCount : KeepsLookups (incrementRefCount h) := updateCell (fun _ => rfl) fun _ => rfl

theorem decrementRefCount : KeepsLookups (decrementRefCount h) := updateCell (fun _ => rfl) fun _ => rfl

theorem countReferences (hs : List Handle) : KeepsLookups (HostM.countReferences hs) := by
  induction hs with
  | nil => exact pure
  | cons h hs ih => exact bind incrementRefCount fun _ => ih

theorem replaceReference : KeepsLookups (replaceReference old value) := by
  unfold HeapM.replaceReference
  split
  · exact pure
  · refine bind incrementRefCount fun _ => bind (of_reads .isLive) fun live => ?_
    split
    · exact decrementRefCount
    · exact pure

theorem exchange {expected : Shape} {k : Payload → Option (α × Payload)}
    (hk : ∀ p a q, k p = some (a, q) → q.lookup? = p.lookup?) : KeepsLookups (exchange h expected k) := by
  refine bind noteWrite fun _ => payload_bind ?_
  rintro p heap c b heap' hc rfl hrun
  split at hrun
  · rename_i a q hpq
    simp only [run_bind, run_pure, run_updateCell] at hrun
    obtain ⟨_, _, ⟨-, rfl⟩, -, rfl⟩ := hrun
    exact .edit hc rfl (hk _ _ _ hpq)
  · exact (run_wrongKind.mp hrun).elim

theorem swap {expected : Shape} {k : Payload → Option (Handle × Payload)}
    (hk : ∀ p a q, k p = some (a, q) → q.lookup? = p.lookup?) : KeepsLookups (do
      let old ← HeapM.exchange h expected k
      HeapM.replaceReference old value) :=
  bind (exchange hk) fun _ => replaceReference

theorem setCar : KeepsLookups (setCar h value) := swap fun p a q hpq => by cases p <;> cases hpq; rfl

theorem setCdr : KeepsLookups (setCdr h value) := swap fun p a q hpq => by cases p <;> cases hpq; rfl

theorem setTag : KeepsLookups (setTag h value) := swap fun p a q hpq => by cases p <;> cases hpq; rfl

theorem setFrame : KeepsLookups (setFrame h value) := swap fun p a q hpq => by cases p <;> cases hpq; rfl

theorem setSymbolValue : KeepsLookups (setSymbolValue h value) :=
  swap fun p a q hpq => by cases p <;> cases hpq; rfl

theorem setPromiseValue : KeepsLookups (setPromiseValue h value) :=
  bind (exchange fun p a q hpq => by cases p <;> cases hpq; rfl) fun _ =>
    bind replaceReference fun _ => replaceReference

theorem setVectorElt {i : Nat} : KeepsLookups (setVectorElt h i value) := by
  refine bind noteWrite fun _ => bind (of_reads .vectorElt) fun read => ?_
  cases read with
  | error e => exact pure
  | ok old =>
    refine bind (x := HeapM.updateCell h (Cell.putElement i value)) ?_ fun _ =>
      bind replaceReference fun _ => pure
    refine updateCell (fun c => ?_) fun c => ?_ <;> rw [Cell.putElement_eq]
    · rfl
    · cases c.payload <;> rfl

theorem setAttrib : KeepsLookups (setAttrib h value) := by
  have hput : ∀ c : Cell, KeepsLookups (do
      HeapM.updateCell h fun c => { c with attrib := value }
      HeapM.replaceReference c.attrib value) :=
    fun c => bind (updateCell (fun _ => rfl) fun _ => rfl) fun _ => replaceReference
  refine bind (of_reads .flags) fun fs => ?_
  split
  · exact bind throw fun _ => bind noteWrite fun _ => bind (of_reads .cell) hput
  · exact bind noteWrite fun _ => bind (of_reads .cell) hput

theorem touch : KeepsLookups (touch h) := bind noteWrite fun _ => of_reads .length

theorem rewrite_bind {c : Cell} {p : Payload} {b b' : β} (hc : heap.arena.get? h = some c)
    (hcp : c.payload.lookup? = none) (hp : p.lookup? = none)
    (hrun : (do
      HeapM.updateCell h fun c => { c with payload := p }
      return b').run heap = .ok (b, heap')) : heap.KeepsLookups heap' := by
  obtain ⟨_, mid, hupdate, hrest⟩ := run_bind.mp hrun
  obtain ⟨-, rfl⟩ := run_pure.mp hrest
  exact rewrite hc hcp hp hupdate

theorem setRealData {values : Array Float} : KeepsLookups (setRealData h values) := by
  refine bind (updateCell (fun _ => rfl) fun _ => rfl) fun _ => payload_bind ?_
  rintro p heap c b heap' hc hp hrun
  cases p
  case real elements => exact rewrite_bind hc (by rw [hp]; rfl) rfl hrun
  all_goals exact (run_throw.mp hrun).elim

theorem setIntegerData {values : Array Int32} : KeepsLookups (setIntegerData h values) := by
  refine bind (updateCell (fun _ => rfl) fun _ => rfl) fun _ => payload_bind ?_
  rintro p heap c b heap' hc hp hrun
  cases p
  case integer elements | logical elements => exact rewrite_bind hc (by rw [hp]; rfl) rfl hrun
  all_goals exact (run_throw.mp hrun).elim

theorem setRawData {values : Bytes} : KeepsLookups (setRawData h values) := by
  refine bind noteWrite fun _ => payload_bind ?_
  rintro p heap c b heap' hc hp hrun
  cases p
  case raw elements => exact rewrite_bind hc (by rw [hp]; rfl) rfl hrun
  all_goals
    obtain ⟨-, rfl⟩ := run_pure.mp hrun
    exact .refl heap

theorem removeVar {env sym : Handle} : KeepsLookups (removeVar env sym) := by
  refine bind (of_reads .envFrame) fun frame => bind (of_reads .walkBound) fun fuel => ?_
  generalize Handle.nil = previous
  induction fuel generalizing previous frame with
  | zero => exact throw
  | succ fuel ih =>
    unfold HeapM.unbindFrom
    split
    · exact pure
    · refine bind (of_reads .cdr) fun next => bind (of_reads .tag) fun t => ?_
      have hend : KeepsLookups (do
          HeapM.decrementRefCount (← car frame)
          return true) :=
        bind (of_reads .car) fun old => bind decrementRefCount fun _ => pure
      split
      · split
        · exact bind setFrame fun _ => hend
        · exact bind setCdr fun _ => hend
      · exact ih next frame

theorem flagOnExit (records : List Handle) : KeepsLookups (flagOnExit records) := by
  induction records with
  | nil => exact pure
  | cons record records ih => exact bind mapFlags fun _ => ih

theorem linkString {hash : UInt32} : KeepsLookups (linkString h hash) :=
  bind (of_reads .get) fun _ => bind (updateCell (fun _ => rfl) fun _ => rfl) fun _ => modifyStrings

theorem relinkChain (fuel : Nat) (cursor : Handle) : KeepsLookups (relinkChain cursor fuel) := by
  induction fuel generalizing cursor with
  | zero => exact throw
  | succ fuel ih =>
    unfold HeapM.relinkChain
    split
    · exact pure
    · refine bind (of_reads .cell) fun c => bind (of_reads ?_) fun hash =>
        bind linkString fun _ => ih _
      exact fun _ _ _ hrun => (run_cachedHash hrun).symm

theorem growStrings : KeepsLookups growStrings := by
  refine bind (of_reads .get) fun start => bind modifyStrings fun _ =>
    bind (of_reads .walkBound) fun fuel => bind ?_ fun _ => note
  induction start.strings.buckets.toList with
  | nil => exact pure
  | cons head heads ih => exact bind (relinkChain fuel head) fun _ => ih

theorem nameSymbol {sym name : Handle} : KeepsLookups (nameSymbol sym name) := by
  refine bind (updateCell (fun _ => rfl) fun _ => rfl) fun _ => ?_
  refine updateCell (f := Cell.named name) (fun c => ?_) fun c => ?_ <;> rw [Cell.named_eq]
  · rfl
  · cases c.payload <;> rfl

end KeepsLookups

open Arena

theorem hasEnv_of_findVarInFrame {env sym : Handle} {r : Option Handle} (hs : heap.Sound)
    (hrun : (findVarInFrame env sym).run heap = .ok (r, heap')) : heap.HasEnv env := by
  simp only [findVarInFrame, frameBinding, envFrame, run_bind, run_payload] at hrun
  obtain ⟨_, _, ⟨_, _, ⟨p, _, ⟨c, hc, hp, rfl⟩, hframe⟩, -⟩, -⟩ := hrun
  cases p
  case environment frame enclos =>
    have hsuits := (hs.proper hc).suits
    rw [hp] at hsuits
    exact ⟨c, hc, by cases hk : c.kind <;> rw [hk] at hsuits <;> first | rfl | cases hsuits⟩
  all_goals exact (run_wrongKind.mp hframe).elim

theorem keepsLookups_searchEnvironments {sym env : Handle} {fuel : Nat} {r : Option Handle} (hs : heap.Sound)
    (hrun : (searchEnvironments sym env fuel).run heap = .ok (r, heap')) : heap.KeepsLookups heap' := by
  induction fuel generalizing env with
  | zero => exact (run_throw.mp hrun).elim
  | succ fuel ih =>
    unfold searchEnvironments at hrun
    rcases run_ite.mp hrun with ⟨-, hrun⟩ | ⟨-, hrun⟩
    · exact KeepsLookups.bind (.of_reads .symbolValue) (fun _ => .pure) _ _ _ hrun
    · obtain ⟨found, mid, hfind, hrun⟩ := run_bind.mp hrun
      obtain rfl := Reads.findVarInFrame _ _ _ hfind
      cases found with
      | none =>
        obtain ⟨outer, _, houter, hrest⟩ := run_bind.mp hrun
        obtain rfl := Reads.envEnclos _ _ _ houter
        exact ih hrest
      | some value =>
        obtain ⟨_, next, hput, hrun⟩ := run_bind.mp hrun
        obtain ⟨-, rfl⟩ := run_pure.mp hrun
        obtain ⟨⟨c, hc⟩, rfl⟩ := run_updateCell (f := Cell.foundIn env) |>.mp hput
        refine .setCell hc ?_ fun e he => ⟨env, ?_, .inr (hasEnv_of_findVarInFrame hs hfind)⟩
        · rw [Cell.foundIn_eq]
          rfl
        · rw [Cell.foundIn_eq]
          cases hp : c.payload
          case symbol => rfl
          all_goals
            rw [hp] at he
            cases he

theorem keepsLookups_claimCell? {n : NodeClass} {kind : Kind} {payload : Payload} {chunks : Nat}
    {claimed : Option Handle} (hs : heap.Sound) (hkind : kind ≠ .free)
    (hrun : (claimCell? n kind payload chunks).run heap = .ok (claimed, heap')) :
    heap.KeepsLookups heap' := by
  rcases run_claim hrun with ⟨-, rfl⟩ | ⟨h, arena, -, hclaim, rfl⟩
  · exact .refl _
  · obtain ⟨hdead, hcells⟩ := get?_claim hs.tidy hkind hclaim
    refine .of_cells rfl fun {k c} hc => ?_
    have hk : k ≠ h := by
      rintro rfl
      cases hdead.symm.trans hc
    exact (hcells k).trans ((if_neg hk).trans hc)

theorem keepsLookups_takeOrGrow {kind : Kind} {length : Nat} {reserved : Bool} {r : Except Bool Handle}
    (hs : heap.Sound) (hkind : kind ≠ .free)
    (hrun : (takeOrGrow kind length reserved).run heap = .ok (r, heap')) : heap.KeepsLookups heap' := by
  rcases run_take hrun with ⟨-, rfl⟩ | ⟨-, mid, hgrow, payload, claimed, -, hclaim, -⟩
  · exact .refl _
  · rcases hgrow with rfl | ⟨room, hgrow⟩
    · exact keepsLookups_claimCell? hs hkind hclaim
    · have hbeside := (beside_grow hgrow).1
      refine .trans (.of_cells hbeside.symbols fun hc => (hbeside.cells _).trans hc) ?_
      exact keepsLookups_claimCell? (run_grow hs hgrow).1 hkind hclaim

theorem keepsLookups_allocateFast {kind : Kind} {length : Nat} (hs : heap.Sound)
    (hrun : (allocateFast kind length).run heap = .ok (h, heap')) : heap.KeepsLookups heap' := by
  rcases run_fast hrun with ⟨-, rfl⟩ | ⟨hkind, -, payload, claimed, -, hclaim, -⟩
  · exact .refl _
  · exact keepsLookups_claimCell? hs hkind hclaim

theorem keepsLookups_unlinkWeakRef {record hint : Handle} {u : PUnit} (hs : heap.Sound)
    (hrun : (unlinkWeakRef record hint).run heap = .ok (u, heap')) : heap.KeepsLookups heap' := by
  simp only [unlinkWeakRef, run_bind] at hrun
  obtain ⟨fields, _, hfields, previous, _, hprevious, fs, _, hflags, hrun⟩ := hrun
  have hat := chainFields_record _ _ _ hs hfields
  obtain rfl := Reads.chainFields _ _ _ hfields
  obtain rfl := Reads.predecessor _ _ _ hprevious
  obtain rfl := Reads.flags _ _ _ hflags
  have hend : ∀ {mid : Heap}, mid.RecordAt record →
      (clearRecord record fs.readyToFinalize).run mid = .ok (u, heap') → mid.KeepsLookups heap' := by
    rintro mid ⟨c, hc, hsuits⟩ hlast
    obtain ⟨_, next, hempty, hcount⟩ := run_bind.mp hlast
    obtain rfl := run_modify.mp hcount
    obtain ⟨-, rfl⟩ := run_updateCell.mp hempty
    have hnone : c.payload.lookup? = none := by
      cases hp : c.payload
      case symbol =>
        rw [hp] at hsuits
        cases hsuits
      all_goals rfl
    exact (Heap.KeepsLookups.edit (f := Cell.emptied) hc rfl hnone.symm).trans (.aside rfl rfl)
  split at hrun
  · obtain ⟨_, mid, hhead, hrun⟩ := run_bind.mp hrun
    obtain rfl := run_modify.mp hhead
    refine .trans ?_ (hend (by exact hat.2) hrun)
    exact .aside rfl rfl
  · obtain ⟨_, mid, hrelink, hrun⟩ := run_bind.mp hrun
    refine .trans ?_ (hend (relink_record _ _ _ hat hrelink).2 hrun)
    obtain ⟨⟨c, hc⟩, rfl⟩ := run_updateCell (f := Cell.relinked fields.next) |>.mp hrelink
    refine .edit hc ?_ ?_ <;> rw [Cell.relinked_eq]
    · rfl
    · cases c.payload <;> rfl

theorem keepsLookups_setPayload {kind : Kind} {payload : Payload} {u : PUnit} (hs : heap.Sound)
    (hfresh : heap.Fresh kind h) (hkind : kind ≠ .symbol) (hnone : payload.lookup? = none)
    (hrun : (HostM.setPayload h payload).run heap = .ok (u, heap')) : heap.KeepsLookups heap' := by
  obtain ⟨c, hc, hcnone⟩ := hs.lookup?_fresh hfresh hkind
  exact KeepsLookups.rewrite hc hcnone hnone hrun

end HeapM

end ManagedHeap
