import ManagedHeap.Heap.Basic

/-!
# Entries of the history

The journal keeps a history of what happened to the objects and to the weak records. The cells of
the arena and the weak chain are each told by a part of it.
-/

namespace ManagedHeap

namespace Entry

def isClaim : Entry → Bool
  | claimed _ _ => true
  | _ => false

/-- A reclaimed object. -/
def loss (gone : Handle × Kind) : Entry := freed gone.1 gone.2

/-- The cell that is claimed or given back. -/
def cell? : Entry → Option Handle
  | claimed h _ | freed h _ => some h
  | _ => none

/-- The entry is about a cell, a collection, or a new heap. -/
def ofCells : Entry → Bool
  | opened _ | claimed _ _ | freed _ _ | collected _ => true
  | _ => false

/-- The entries since the last heap was opened. -/
def sinceOpened (es : List Entry) : List Entry :=
  es.foldl (fun past e => match e with
    | opened _ => []
    | e => past ++ [e]) []

/-- The claims of a cell and when it was given back. -/
def about (h : Handle) (es : List Entry) : List Entry := es.filter fun e => e.cell? == some h

variable {h : Handle} {e : Entry} {es fs : List Entry}

theorem sinceOpened_opened {config : Config} : sinceOpened (es ++ [opened config]) = [] := by
  rw [sinceOpened, List.foldl_append]
  rfl

theorem sinceOpened_append (hf : ∀ e ∈ fs, ∀ config, e ≠ opened config) :
    sinceOpened (es ++ fs) = sinceOpened es ++ fs := by
  rw [sinceOpened, List.foldl_append, ← sinceOpened]
  generalize sinceOpened es = past
  induction fs generalizing past with
  | nil => exact (List.append_nil past).symm
  | cons e fs ih =>
    have hstep : ∀ past : List Entry, [e].foldl (fun past e => match e with
        | opened _ => []
        | e => past ++ [e]) past = past ++ [e] := by
      intro past
      cases e with
      | opened config => exact absurd rfl (hf _ List.mem_cons_self config)
      | _ => rfl
    rw [← List.singleton_append, List.foldl_append, hstep,
      ih (fun e he => hf e (List.mem_cons_of_mem _ he)), List.append_assoc]

theorem filter_collected {p : Entry → Bool} {gone : List (Handle × Kind)} {level : Level}
    (hloss : ∀ x, p (loss x) = true) (hlevel : p (collected level) = true) :
    (gone.map loss ++ [collected level]).filter p = gone.map loss ++ [collected level] := by
  refine List.filter_eq_self.mpr fun e he => ?_
  rcases List.mem_append.mp he with he | he
  · obtain ⟨x, -, rfl⟩ := List.mem_map.mp he
    exact hloss x
  · rw [List.mem_singleton.mp he, hlevel]

theorem about_append : about h (es ++ fs) = about h es ++ about h fs := List.filter_append ..

@[simp]
theorem about_nil : about h [] = [] := rfl

theorem about_cons : about h (e :: es) =
    if e.cell? = some h then e :: about h es else about h es := by
  simp only [about, List.filter_cons, beq_iff_eq]

end Entry

namespace Journal

variable {j : Journal} {e : Entry}

/-- What happened to the cells. -/
def ofCells (j : Journal) : List Entry := j.history.toList.filter Entry.ofCells

/-- What happened beside allocations. -/
def ofRecords (j : Journal) : List Entry := j.history.toList.filter fun e => !e.isClaim

theorem ofCells_congr {j' : Journal} (hh : j'.history = j.history) : j'.ofCells = j.ofCells := by
  rw [ofCells, hh, ofCells]

theorem ofRecords_congr {j' : Journal} (hh : j'.history = j.history) :
    j'.ofRecords = j.ofRecords := by
  rw [ofRecords, hh, ofRecords]

theorem ofCells_append {j' j'' : Journal} (hh : j''.history = j.history ++ j'.history) :
    j''.ofCells = j.ofCells ++ j'.ofCells := by
  rw [ofCells, hh, Array.toList_append, List.filter_append, ofCells, ofCells]

theorem ofRecords_append {j' j'' : Journal} (hh : j''.history = j.history ++ j'.history) :
    j''.ofRecords = j.ofRecords ++ j'.ofRecords := by
  rw [ofRecords, hh, Array.toList_append, List.filter_append, ofRecords, ofRecords]

theorem toList_record : (j.record e).history.toList = j.history.toList ++ [e] :=
  Array.toList_push

theorem ofCells_record : (j.record e).ofCells = j.ofCells ++ if e.ofCells then [e] else [] := by
  rw [ofCells, ofCells, toList_record, List.filter_append, List.filter_cons, List.filter_nil]

theorem ofRecords_record :
    (j.record e).ofRecords = j.ofRecords ++ if e.isClaim then [] else [e] := by
  rw [ofRecords, ofRecords, toList_record, List.filter_append, List.filter_cons, List.filter_nil]
  cases e.isClaim <;> rfl

theorem ofCells_record_aside (he : e.ofCells = false) : (j.record e).ofCells = j.ofCells := by
  rw [ofCells_record, he, if_neg Bool.false_ne_true, List.append_nil]

theorem ofRecords_record_claim (he : e.isClaim = true) : (j.record e).ofRecords = j.ofRecords := by
  rw [ofRecords_record, if_pos he, List.append_nil]

end Journal

/-- What a journal has on top of another one: the objects of which the observer has heard, if there
is one, and the entries of the history. -/
structure Journal.Reports (j j' : Journal) (gone : List (Handle × Kind)) (es : List Entry) :
    Prop where
  observing : j'.observing = j.observing
  freed : j'.freed.toList = j.freed.toList ++ if j.observing then gone else []
  history : j'.history.toList = j.history.toList ++ es

namespace Journal.Reports

variable {j mid j' : Journal} {gone gone' : List (Handle × Kind)} {es es' : List Entry}

theorem refl (j : Journal) : j.Reports j [] [] where
  observing := rfl
  freed := by rw [ite_self, List.append_nil]
  history := (List.append_nil _).symm

theorem trans (hfirst : j.Reports mid gone es) (hlast : mid.Reports j' gone' es') :
    j.Reports j' (gone ++ gone') (es ++ es') where
  observing := hlast.observing.trans hfirst.observing
  freed := by
    rw [hlast.freed, hfirst.freed, hfirst.observing, List.append_assoc]
    split
    · rfl
    · rw [List.append_nil]
  history := by rw [hlast.history, hfirst.history, List.append_assoc]

theorem record (j : Journal) (e : Entry) : j.Reports (j.record e) [] [e] where
  observing := rfl
  freed := by rw [ite_self, List.append_nil]; rfl
  history := toList_record

theorem noteFreed (j : Journal) (h : Handle) (k : Kind) :
    j.Reports (j.noteFreed h k) [(h, k)] [.freed h k] := by
  unfold Journal.noteFreed
  cases hwatch : j.observing with
  | false =>
    rw [if_neg (by rw [Journal.record, hwatch]; exact Bool.false_ne_true)]
    exact ⟨rfl, by rw [hwatch]; exact (List.append_nil _).symm, toList_record⟩
  | true =>
    rw [if_pos (by rw [Journal.record, hwatch])]
    exact ⟨rfl, by rw [hwatch]; exact Array.toList_push, toList_record⟩

theorem ofCells (hr : j.Reports j' gone es) : j'.ofCells = j.ofCells ++ es.filter Entry.ofCells := by
  rw [Journal.ofCells, hr.history, List.filter_append, Journal.ofCells]

theorem ofRecords (hr : j.Reports j' gone es) :
    j'.ofRecords = j.ofRecords ++ es.filter fun e => !e.isClaim := by
  rw [Journal.ofRecords, hr.history, List.filter_append, Journal.ofRecords]

end Journal.Reports

/-- Everything that has happened to a heap, oldest first. -/
def Heap.history (heap : Heap) : List Entry := heap.journal.history.toList

end ManagedHeap
