import Mathlib.Data.List.Induction
import Mathlib.Data.List.Nodup
import Mathlib.Data.List.TakeWhile
import ManagedHeap.Proofs.HistoryEntries

/-!
# What the history says of weak records

The history tells which records are on the weak chain, whose finalizers were called, and what
happened between the call of a finalizer and its return. Claims about a history are claims about
every split of it: of an entry, given what came before it and what follows.
-/

namespace ManagedHeap

theorem split_append {α : Type} {xs ys front back : List α} {a : α}
    (h : xs ++ ys = front ++ a :: back) :
    (∃ rest, xs = front ++ a :: rest ∧ back = rest ++ ys) ∨
      ∃ middle, front = xs ++ middle ∧ ys = middle ++ a :: back := by
  rcases List.append_eq_append_iff.mp h with ⟨middle, hfront, hys⟩ | ⟨rest, hxs, hback⟩
  · exact .inr ⟨middle, hfront, hys⟩
  · cases rest with
    | nil => exact .inr ⟨[], by simpa using hxs.symm, by simpa using hback.symm⟩
    | cons b rest =>
      rw [List.cons_append, List.cons.injEq] at hback
      obtain ⟨rfl, rfl⟩ := hback
      exact .inl ⟨rest, hxs, rfl⟩

/-- The finalizer that was linked with the record was called on its key. The record was empty by
then, and what had been alive of the two when it was linked still was. -/
structure Link.Calls (l : Link) (c : Invocation) : Prop where
  record : c.record = l.record
  key : c.key = l.key
  finalizer : c.finalizer = l.finalizer
  nonempty : l.finalizer ≠ .nil
  fields : c.fields = [.nil, .nil, .nil, .nil]
  live : ∀ h ∈ l.live, h = l.key ∨ h = l.finalizer → h ∈ c.live

namespace Entry

variable {es fs : List Entry} {e : Entry} {ls : List Link} {l : Link} {r : Handle} {n m : Nat}

/-- The record was put on the chain. -/
def links (r : Handle) : Entry → Bool
  | linked l => l.record == r
  | _ => false

/-- The finalizer of the record was called. -/
def calls (r : Handle) : Entry → Bool
  | called c => c.record == r
  | _ => false

def isCall : Entry → Bool
  | called _ => true
  | _ => false

def isReturn : Entry → Bool
  | returned => true
  | _ => false

/-- What an entry makes of the links on the chain. -/
def relink (ls : List Link) : Entry → List Link
  | opened _ => []
  | linked l => l :: ls
  | unlinked r _ => ls.filter (·.record != r)
  | _ => ls

/-- The links on the chain after these entries, first to last. -/
def chain (es : List Entry) : List Link := es.foldl relink []

theorem chain_append : chain (es ++ fs) = fs.foldl relink (chain es) := List.foldl_append

theorem chain_snoc : chain (es ++ [e]) = relink (chain es) e := chain_append

theorem chain_append_of_plain (hfs : ∀ e ∈ fs, ∀ ls, relink ls e = ls) :
    chain (es ++ fs) = chain es := by
  rw [chain_append]
  generalize chain es = ls
  induction fs generalizing ls with
  | nil => rfl
  | cons e fs ih =>
    rw [List.foldl_cons, hfs e List.mem_cons_self]
    exact ih (fun e he => hfs e (List.mem_cons_of_mem _ he)) ls

theorem mem_foldl_relink (hl : l ∈ fs.foldl relink ls) : l ∈ ls ∨ linked l ∈ fs := by
  induction fs generalizing ls with
  | nil => exact .inl hl
  | cons e fs ih =>
    rcases ih hl with hl | hl
    · cases e
      case opened => exact nomatch hl
      case linked k =>
        rcases List.mem_cons.mp hl with rfl | hl
        · exact .inr List.mem_cons_self
        · exact .inl hl
      case unlinked => exact .inl (List.mem_filter.mp hl).1
      all_goals exact .inl hl
    · exact .inr (List.mem_cons_of_mem _ hl)

theorem record_ne_of_unlinked (hes : ∀ l ∈ chain es, l.record ≠ r)
    (hfs : ∀ e ∈ fs, e.links r = false) : ∀ l ∈ chain (es ++ fs), l.record ≠ r := by
  intro l hl
  rw [chain_append] at hl
  rcases mem_foldl_relink hl with hl | hl
  · exact hes l hl
  · rintro rfl
    exact Bool.false_ne_true ((hfs _ hl).symm.trans (beq_self_eq_true _))

theorem mem_chain_append (hl : l ∈ chain es)
    (hfs : ∀ e ∈ fs, (∀ config, e ≠ opened config) ∧ ∀ ready, e ≠ unlinked l.record ready) :
    l ∈ chain (es ++ fs) := by
  rw [chain_append]
  generalize chain es = ls at hl
  induction fs generalizing ls with
  | nil => exact hl
  | cons e fs ih =>
    refine ih (fun e he => hfs e (List.mem_cons_of_mem _ he)) _ ?_
    obtain ⟨hopened, hunlinked⟩ := hfs e List.mem_cons_self
    cases e
    case opened config => exact absurd rfl (hopened config)
    case linked => exact List.mem_cons_of_mem _ hl
    case unlinked k ready =>
      refine List.mem_filter.mpr ⟨hl, bne_iff_ne.mpr ?_⟩
      rintro rfl
      exact hunlinked ready rfl
    all_goals exact hl

def nest : Nat → Entry → Option Nat
  | n, called _ => some (n + 1)
  | 0, returned => none
  | n + 1, returned => some n
  | n, _ => some n

def Balanced (es : List Entry) : Prop := ∀ n, es.foldlM nest n = some n

namespace Balanced

theorem nil : Balanced [] := fun _ => rfl

theorem append (hes : Balanced es) (hfs : Balanced fs) : Balanced (es ++ fs) := by
  intro n
  rw [List.foldlM_append, hes n]
  exact hfs n

theorem of_plain (h : ∀ e ∈ es, ∀ n, nest n e = some n) : Balanced es := by
  intro n
  induction es with
  | nil => rfl
  | cons e es ih =>
    rw [List.foldlM_cons, h e List.mem_cons_self n]
    exact ih fun e he => h e (List.mem_cons_of_mem _ he)

theorem called {ready : Bool} {c : Invocation} {depth : Nat} (hes : Balanced es) :
    Balanced ([unlinked r ready, called c] ++ es ++ [left depth, returned]) := by
  intro n
  rw [List.append_assoc, List.foldlM_append]
  change (es ++ [left depth, returned]).foldlM nest (n + 1) = some n
  rw [List.foldlM_append, hes (n + 1)]
  rfl

end Balanced

theorem countP_isCall (h : es.foldlM nest n = some m) :
    n + es.countP isCall = m + es.countP isReturn := by
  induction es generalizing n with
  | nil => exact congrArg (· + 0) (Option.some.inj h)
  | cons e es ih =>
    rw [List.foldlM_cons] at h
    cases e
    case called c =>
      rw [List.countP_cons_of_pos rfl, List.countP_cons_of_neg Bool.false_ne_true, ← ih h]
      omega
    case returned =>
      cases n with
      | zero => exact nomatch h
      | succ n =>
        rw [List.countP_cons_of_neg Bool.false_ne_true, List.countP_cons_of_pos rfl]
        have hrest := ih h
        omega
    all_goals
      rw [List.countP_cons_of_neg Bool.false_ne_true, List.countP_cons_of_neg Bool.false_ne_true]
      exact ih h

/-- The entries before the finalizer returns within which so many others are running. -/
def untilReturn : Nat → List Entry → List Entry
  | _, [] => []
  | 0, returned :: _ => []
  | n + 1, returned :: es => returned :: untilReturn n es
  | n, called c :: es => called c :: untilReturn (n + 1) es
  | n, e :: es => e :: untilReturn n es

theorem untilReturn_append (h : es.foldlM nest n = some 0) :
    untilReturn n (es ++ returned :: fs) = es := by
  induction es generalizing n with
  | nil =>
    obtain rfl := Option.some.inj h
    rfl
  | cons e es ih =>
    rw [List.foldlM_cons] at h
    cases e
    case called c =>
      have hrest := ih (n := n + 1) h
      simp only [List.cons_append, untilReturn, hrest]
    case returned =>
      cases n with
      | zero => exact nomatch h
      | succ n =>
        have hrest := ih (n := n) h
        simp only [List.cons_append, untilReturn, hrest]
    all_goals
      have hrest := ih (n := n) h
      simp only [List.cons_append, untilReturn, hrest]

/-- Handles may be given up that were among the first so many: a scope is left that was entered with
fewer, or the heap is exchanged. -/
def reaches (n : Nat) : Entry → Bool
  | opened _ => true
  | left depth => decide (depth < n)
  | _ => false

end Entry

def Invocation.Ends (c : Invocation) (es : List Entry) : Prop :=
  ∃ body later, es = body ++ .returned :: later ∧ body.foldlM Entry.nest 0 = some 0 ∧
    ∀ h ∈ c.live, ∀ kind, .freed h kind ∉ body.takeWhile fun e => !e.reaches c.transient

namespace Invocation.Ends

variable {c : Invocation} {es fs : List Entry}

theorem append (he : c.Ends es) : c.Ends (es ++ fs) := by
  obtain ⟨body, later, rfl, hnest, hlive⟩ := he
  exact ⟨body, later ++ fs, by rw [List.append_assoc, List.cons_append], hnest, hlive⟩

theorem untilReturn (he : c.Ends es) :
    (∃ later, es = Entry.untilReturn 0 es ++ .returned :: later) ∧ ∀ h ∈ c.live, ∀ kind,
      .freed h kind ∉ (Entry.untilReturn 0 es).takeWhile fun e => !e.reaches c.transient := by
  obtain ⟨body, later, rfl, hnest, hlive⟩ := he
  rw [Entry.untilReturn_append hnest]
  exact ⟨⟨later, rfl⟩, hlive⟩

end Invocation.Ends

namespace Entry

variable {es fs : List Entry} {c : Invocation}

def Completed (es : List Entry) : Prop :=
  ∀ ⦃front c rest⦄, es = front ++ called c :: rest → c.Ends rest

namespace Completed

theorem nil : Completed [] := fun _ _ _ h => absurd h (by simp)

theorem of_uncalled (h : ∀ c, called c ∉ es) : Completed es := by
  rintro front c rest rfl
  exact absurd (List.mem_append_right _ List.mem_cons_self) (h c)

theorem append (hes : Completed es) (hfs : Completed fs) : Completed (es ++ fs) := by
  intro front c rest h
  rcases split_append h with ⟨back, rfl, rfl⟩ | ⟨middle, -, hsplit⟩
  · exact (hes rfl).append
  · exact hfs hsplit

end Completed

/-- What a history says of weak records, over every split of it. A record is linked that is off the
chain. One that is taken off it was ready, and its finalizer is called at once, if it has one; a
finalizer is called of a record that was just taken off the chain. -/
structure Orderly (es : List Entry) : Prop where
  linked : ∀ {front l rest}, es = front ++ linked l :: rest → ∀ k ∈ chain front, k.record ≠ l.record
  unlinked : ∀ {front r ready rest}, es = front ++ unlinked r ready :: rest → ready = true ∧
    ∃ l ∈ chain front, l.record = r ∧
      (l.finalizer = .nil ∨ ∃ c later, l.Calls c ∧ rest = called c :: later)
  called : ∀ {front c rest}, es = front ++ called c :: rest → c.chain = (chain front).map Link.record ∧
    ∃ past, front = past ++ [Entry.unlinked c.record true] ∧ ∃ l ∈ chain past, l.Calls c

def Plain : Entry → Prop
  | .linked _ | .unlinked _ _ | .called _ => False
  | _ => True

namespace Orderly

theorem nil : Orderly [] where
  linked h := absurd h (by simp)
  unlinked h := absurd h (by simp)
  called h := absurd h (by simp)

theorem append (hes : Orderly es)
    (hlinked : ∀ {front l rest}, fs = front ++ Entry.linked l :: rest →
      ∀ k ∈ chain (es ++ front), k.record ≠ l.record)
    (hunlinked : ∀ {front r ready rest}, fs = front ++ Entry.unlinked r ready :: rest →
      ready = true ∧ ∃ l ∈ chain (es ++ front), l.record = r ∧
        (l.finalizer = .nil ∨ ∃ c later, l.Calls c ∧ rest = Entry.called c :: later))
    (hcalled : ∀ {front c rest}, fs = front ++ Entry.called c :: rest →
      c.chain = (chain (es ++ front)).map Link.record ∧
      ∃ past, es ++ front = past ++ [Entry.unlinked c.record true] ∧ ∃ l ∈ chain past, l.Calls c) :
    Orderly (es ++ fs) where
  linked h := by
    rcases split_append h with ⟨back, hsplit, -⟩ | ⟨middle, rfl, hsplit⟩
    · exact hes.linked hsplit
    · exact hlinked hsplit
  unlinked h := by
    rcases split_append h with ⟨back, hsplit, rfl⟩ | ⟨middle, rfl, hsplit⟩
    · obtain ⟨hready, l, hl, hr, hnil | ⟨c, later, hc, rfl⟩⟩ := hes.unlinked hsplit
      · exact ⟨hready, l, hl, hr, .inl hnil⟩
      · exact ⟨hready, l, hl, hr, .inr ⟨c, later ++ fs, hc, rfl⟩⟩
    · exact hunlinked hsplit
  called h := by
    rcases split_append h with ⟨back, hsplit, -⟩ | ⟨middle, rfl, hsplit⟩
    · exact hes.called hsplit
    · exact hcalled hsplit

theorem append_plain (hes : Orderly es) (hfs : ∀ e ∈ fs, e.Plain) : Orderly (es ++ fs) := by
  have hmem : ∀ {front e rest}, fs = front ++ e :: rest → e ∈ fs := by
    rintro front e rest rfl
    exact List.mem_append_right _ List.mem_cons_self
  exact hes.append (fun h => (hfs _ (hmem h)).elim) (fun h => (hfs _ (hmem h)).elim)
    fun h => (hfs _ (hmem h)).elim

theorem append_linked {l : Link} (hes : Orderly es) (hl : ∀ k ∈ chain es, k.record ≠ l.record) :
    Orderly (es ++ [Entry.linked l]) := by
  have hsplit : ∀ {front e rest}, [Entry.linked l] = front ++ e :: rest →
      front = [] ∧ e = Entry.linked l := by
    intro front e rest h
    cases front <;> simp_all
  refine hes.append (fun h => ?_) (fun h => ?_) fun h => ?_
  · obtain ⟨rfl, hsame⟩ := hsplit h
    rw [List.append_nil, Entry.linked.inj hsame]
    exact hl
  · exact nomatch (hsplit h).2
  · exact nomatch (hsplit h).2

theorem append_unlinked {l : Link} (hes : Orderly es) (hl : l ∈ chain es)
    (hnil : l.finalizer = .nil) : Orderly (es ++ [Entry.unlinked l.record true]) := by
  have hsplit : ∀ {front e rest}, [Entry.unlinked l.record true] = front ++ e :: rest →
      front = [] ∧ e = Entry.unlinked l.record true := by
    intro front e rest h
    cases front <;> simp_all
  refine hes.append (fun h => ?_) (fun h => ?_) fun h => ?_
  · exact nomatch (hsplit h).2
  · obtain ⟨rfl, hsame⟩ := hsplit h
    obtain ⟨rfl, rfl⟩ := Entry.unlinked.inj hsame
    rw [List.append_nil]
    exact ⟨rfl, l, hl, rfl, .inl hnil⟩
  · exact nomatch (hsplit h).2

theorem append_called {l : Link} {c : Invocation} (hes : Orderly es) (hl : l ∈ chain es)
    (hc : l.Calls c)
    (hchain : c.chain = (chain (es ++ [Entry.unlinked c.record true])).map Link.record) :
    Orderly (es ++ [Entry.unlinked c.record true, Entry.called c]) := by
  have hsplit : ∀ {front e rest}, [Entry.unlinked c.record true, Entry.called c] = front ++ e :: rest →
      (front = [] ∧ e = Entry.unlinked c.record true ∧ rest = [Entry.called c]) ∨
        (front = [Entry.unlinked c.record true] ∧ e = Entry.called c) := by
    intro front e rest h
    rcases front with _ | ⟨_, _ | ⟨_, front⟩⟩ <;> simp_all
  refine hes.append (fun h => ?_) (fun h => ?_) fun h => ?_
  · rcases hsplit h with ⟨-, hsame, -⟩ | ⟨-, hsame⟩ <;> exact nomatch hsame
  · rcases hsplit h with ⟨rfl, hsame, rfl⟩ | ⟨-, hsame⟩
    · obtain ⟨rfl, rfl⟩ := Entry.unlinked.inj hsame
      rw [List.append_nil]
      exact ⟨rfl, l, hl, hc.record.symm, .inr ⟨c, [], hc, rfl⟩⟩
    · exact nomatch hsame
  · rcases hsplit h with ⟨-, hsame, -⟩ | ⟨rfl, hsame⟩
    · exact nomatch hsame
    · obtain rfl := Entry.called.inj hsame
      exact ⟨hchain, es, rfl, l, hl, hc⟩

theorem linked_again {front middle last : List Entry} {c again : Invocation} (hes : Orderly es)
    (h : es = front ++ Entry.called c :: (middle ++ Entry.called again :: last))
    (hsame : again.record = c.record) : ∃ e ∈ middle, e.links c.record = true := by
  obtain ⟨-, past, hpast, -⟩ := hes.called h
  have hsplit : es = (front ++ Entry.called c :: middle) ++ Entry.called again :: last := by
    rw [h, List.append_assoc, List.cons_append]
  obtain ⟨-, before, hbefore, l, hl, hcalls⟩ := hes.called hsplit
  have hoff : ∀ l ∈ chain front, l.record ≠ c.record := by
    intro l hl
    rw [hpast, chain_snoc] at hl
    exact bne_iff_ne.mp (List.mem_filter.mp hl).2
  -- the second call comes right after an entry of its own
  rcases List.eq_nil_or_concat middle with rfl | ⟨rest, e, rfl⟩
  · exact nomatch (List.append_inj' hbefore rfl).2
  · rw [List.concat_eq_append, ← List.cons_append, ← List.append_assoc] at hbefore
    obtain ⟨rfl, -⟩ := List.append_inj' hbefore rfl
    by_contra hnone
    have hunlinked : ∀ x ∈ Entry.called c :: rest, x.links c.record = false := by
      intro x hx
      rcases List.mem_cons.mp hx with rfl | hx
      · rfl
      · refine Bool.eq_false_iff.mpr fun hlinks => hnone ⟨x, ?_, hlinks⟩
        exact List.concat_eq_append ▸ List.mem_append_left _ hx
    exact record_ne_of_unlinked hoff hunlinked l hl (hcalls.record.symm.trans hsame)

theorem nodup_chain (hes : ∀ {front l rest}, es = front ++ Entry.linked l :: rest →
    ∀ k ∈ chain front, k.record ≠ l.record) : ((chain es).map Link.record).Nodup := by
  induction es using List.reverseRecOn with
  | nil => exact List.nodup_nil
  | append_singleton es e ih =>
    have hold := ih fun h => hes (by rw [h, List.append_assoc, List.cons_append])
    rw [chain_snoc]
    cases e
    case opened => exact List.nodup_nil
    case linked l =>
      refine List.nodup_cons.mpr ⟨fun hmem => ?_, hold⟩
      obtain ⟨k, hk, hsame⟩ := List.mem_map.mp hmem
      exact hes rfl k hk hsame
    case unlinked => exact hold.sublist (List.filter_sublist.map _)
    all_goals exact hold

variable {front rest : List Entry} {l : Link}

theorem taken_first (hes : Orderly es) (h : es = front ++ Entry.linked l :: rest)
    (hsame : ∀ config, Entry.opened config ∉ rest)
    (htaken : ∃ ready, Entry.unlinked l.record ready ∈ rest) :
    ∃ middle ready last, rest = middle ++ Entry.unlinked l.record ready :: last ∧
      l ∈ chain (front ++ Entry.linked l :: middle) ∧
      ∀ e ∈ middle, e.links l.record = false ∧ ∀ ready, e ≠ Entry.unlinked l.record ready := by
  obtain ⟨ready, middle, last, rfl, hnot⟩ :
      ∃ ready middle last, rest = middle ++ Entry.unlinked l.record ready :: last ∧
        ∀ e ∈ middle, ∀ ready, e ≠ Entry.unlinked l.record ready := by
    clear h hsame
    induction rest with
    | nil =>
      obtain ⟨_, hmem⟩ := htaken
      exact nomatch hmem
    | cons e rest ih =>
      by_cases he : ∃ ready, e = Entry.unlinked l.record ready
      · obtain ⟨ready, rfl⟩ := he
        exact ⟨ready, [], rest, rfl, nofun⟩
      · obtain ⟨ready, hmem⟩ := htaken
        have hrest := (List.mem_cons.mp hmem).resolve_left fun h => he ⟨ready, h.symm⟩
        obtain ⟨first, middle, last, rfl, hmiddle⟩ := ih ⟨ready, hrest⟩
        refine ⟨first, e :: middle, last, rfl, fun x hx ready hsame => ?_⟩
        rcases List.mem_cons.mp hx with rfl | hx
        · exact he ⟨ready, hsame⟩
        · exact hmiddle x hx ready hsame
  have hstays : ∀ p, p <+: middle → l ∈ chain (front ++ Entry.linked l :: p) := by
    rintro p ⟨q, rfl⟩
    rw [← List.singleton_append, ← List.append_assoc]
    refine mem_chain_append (chain_snoc ▸ List.mem_cons_self) fun e he => ⟨?_, ?_⟩
    · rintro config rfl
      exact hsame config (List.mem_append_left _ (List.mem_append_left _ he))
    · exact hnot e (List.mem_append_left _ he)
  refine ⟨middle, ready, last, rfl, hstays middle (List.prefix_refl _), fun e he => ⟨?_, hnot e he⟩⟩
  -- it cannot be linked while it is on the chain
  refine Bool.eq_false_iff.mpr fun hlinks => ?_
  obtain ⟨p, q, rfl⟩ := List.append_of_mem he
  cases e
  case linked k =>
    have hsplit : es = (front ++ Entry.linked l :: p) ++ Entry.linked k ::
        (q ++ Entry.unlinked l.record ready :: last) := by
      rw [h]
      simp
    exact hes.linked hsplit l (hstays p (List.prefix_append _ _)) (beq_iff_eq.mp hlinks).symm
  all_goals exact nomatch hlinks

theorem not_calls {middle last : List Entry} (hes : Orderly es)
    (h : es = front ++ Entry.linked l :: (middle ++ last))
    (hnot : ∀ e ∈ middle, ∀ ready, e ≠ Entry.unlinked l.record ready) :
    middle.filter (Entry.calls l.record) = [] := by
  refine List.filter_eq_nil_iff.mpr fun e he hcalls => ?_
  obtain ⟨p, q, rfl⟩ := List.append_of_mem he
  cases e
  case called c =>
    have hrecord : c.record = l.record := beq_iff_eq.mp hcalls
    have hsplit : es = (front ++ Entry.linked l :: p) ++ Entry.called c :: (q ++ last) := by
      rw [h]
      simp
    obtain ⟨-, past, hpast, -⟩ := hes.called hsplit
    rcases List.eq_nil_or_concat p with rfl | ⟨p, e, rfl⟩
    · exact nomatch (List.append_inj' hpast rfl).2
    · rw [List.concat_eq_append, ← List.cons_append, ← List.append_assoc] at hpast
      obtain ⟨-, hlast⟩ := List.append_inj' hpast rfl
      exact hnot e (by simp) true (hrecord ▸ List.singleton_inj.mp hlast)
  all_goals exact nomatch hcalls

theorem calls_once (hes : Orderly es) (h : es = front ++ Entry.linked l :: rest)
    (hsame : ∀ config, Entry.opened config ∉ rest)
    (htaken : ∃ ready, Entry.unlinked l.record ready ∈ rest) (hfinalizer : l.finalizer ≠ .nil) :
    ∃ c, l.Calls c ∧
      (rest.takeWhile fun e => !e.links l.record).filter (Entry.calls l.record) = [.called c] := by
  obtain ⟨middle, ready, last, rfl, hmem, hmiddle⟩ := hes.taken_first h hsame htaken
  have hsplit : es = (front ++ Entry.linked l :: middle) ++ Entry.unlinked l.record ready :: last := by
    rw [h, List.append_assoc, List.cons_append]
  obtain ⟨-, k, hk, hrecord, hcalled⟩ := hes.unlinked hsplit
  have honce : ((chain (front ++ Entry.linked l :: middle)).map Link.record).Nodup :=
    nodup_chain fun hfront => hes.linked (by rw [hsplit, hfront, List.append_assoc, List.cons_append])
  obtain rfl : k = l := List.inj_on_of_nodup_map honce hk hmem hrecord
  obtain ⟨c, last, hc, rfl⟩ := hcalled.resolve_left hfinalizer
  have hbefore : middle.filter (Entry.calls k.record) = [] := hes.not_calls h fun e he => (hmiddle e he).2
  have hafter : (last.takeWhile fun e => !e.links k.record).filter (Entry.calls k.record) = [] := by
    refine List.filter_eq_nil_iff.mpr fun e he hcalls => ?_
    have hlast := (last.takeWhile_append_dropWhile (p := fun e => !e.links k.record)).symm
    obtain ⟨p, q, hpq⟩ := List.append_of_mem he
    rw [hpq, List.append_assoc, List.cons_append] at hlast
    cases e
    case called again =>
      have hfirst : es = (front ++ Entry.linked k :: middle ++ [Entry.unlinked k.record ready]) ++
          Entry.called c :: (p ++ Entry.called again ::
            (q ++ last.dropWhile fun e => !e.links k.record)) := by
        rw [hsplit, ← hlast, ← List.append_cons]
      obtain ⟨x, hx, hlinks⟩ := hes.linked_again hfirst
        ((beq_iff_eq.mp hcalls).trans hc.record.symm)
      have hpass := List.mem_takeWhile_imp (hpq ▸ List.mem_append_left _ hx)
      rw [hc.record] at hlinks
      rw [hlinks] at hpass
      exact Bool.false_ne_true hpass
    all_goals exact nomatch hcalls
  have hpass : ∀ e ∈ middle, (!e.links k.record) = true := by
    intro e he
    rw [(hmiddle e he).1, Bool.not_false]
  have hcalls : Entry.calls k.record (.called c) = true := beq_iff_eq.mpr hc.record
  refine ⟨c, hc, ?_⟩
  rw [List.takeWhile_append_of_pos hpass, List.filter_append, hbefore, List.nil_append,
    List.takeWhile_cons_of_pos rfl, List.takeWhile_cons_of_pos rfl, List.filter_cons_of_neg
    Bool.false_ne_true, List.filter_cons_of_pos hcalls, hafter]

end Orderly

end Entry

end ManagedHeap
