import Mathlib.Data.List.Perm.Subperm
import ManagedHeap.Proofs.StringChains

/-!
# Shelves of the string cache

The chain of a bucket visits just the cached strings whose stored hash selects it, so a
look-up that goes along one chain misses no string, and a string that is taken out is
found. The proofs follow the three places that write a link: caching, growing, evicting.
-/

namespace ManagedHeap

/-- What a cached string is looked up by, and the hash that it was stored with. -/
structure Text where
  bytes : Bytes
  encoding : Encoding
  hash : UInt32
deriving DecidableEq

namespace Cell

/-- The text of a cached string. -/
def text? (c : Cell) : Option Text :=
  match c.payload with
  | .charString bytes encoding hash =>
    if c.flags.cached then some ⟨bytes, encoding, hash⟩ else none
  | _ => none

variable {c d : Cell} {t : Text}

theorem text?_eq_some : c.text? = some t ↔
    c.flags.cached = true ∧ c.payload = .charString t.bytes t.encoding t.hash := by
  obtain ⟨bytes, encoding, hash⟩ := t
  unfold text?
  split
  · rename_i b e h hp
    cases hcached : c.flags.cached <;> simp [hp]
  · rename_i hp
    simp only [reduceCtorEq, false_iff, not_and]
    exact fun _ he => hp _ _ _ he

theorem text?_congr (hflags : d.flags.cached = c.flags.cached) (hpayload : d.payload = c.payload) :
    d.text? = c.text? := by
  unfold text?
  rw [hpayload, hflags]

theorem text?_of_unlinked (he : d.unlinked = c.unlinked) : d.text? = c.text? :=
  text?_congr (congrArg (fun h : Header => h.flags.cached) (header_of_unlinked he))
    (payload_of_unlinked he)

theorem text?_interned (bytes : Bytes) (encoding : Encoding) (hash : UInt32) (ascii : Bool)
    (c : Cell) : (c.interned bytes encoding hash ascii).text? = some ⟨bytes, encoding, hash⟩ :=
  rfl

theorem text?_of_not_cached (hc : c.flags.cached = false) : c.text? = none := by
  unfold text?
  split
  · rw [hc]
    rfl
  · rfl

end Cell

namespace Arena

/-- The text of the cached string that a handle names. -/
def textAt (a : Arena) (h : Handle) : Option Text := (a.get? h).bind Cell.text?

def shows (a : Arena) (t : Text) (h : Handle) : Bool := a.textAt h == some t

variable {a b : Arena} {h k : Handle} {t : Text} {c : Cell} {f : Cell → Cell}

theorem textAt_eq_some :
    a.textAt h = some t ↔ ∃ c, a.get? h = some c ∧ c.text? = some t := Option.bind_eq_some_iff

theorem shows_iff : a.shows t h = true ↔ a.textAt h = some t := beq_iff_eq

theorem textAt_of_get? (hc : a.get? h = some c) : a.textAt h = c.text? := by
  rw [textAt, hc, Option.bind_some]

theorem textAt_setCell_ne (hk : k ≠ h) : (a.setCell h f).textAt k = a.textAt k := by
  rw [textAt, textAt, get?_setCell_ne hk]

theorem textAt_setCell (hfree : ∀ c, (f c).isFree = c.isFree) (hf : ∀ c, (f c).text? = c.text?) :
    (a.setCell h f).textAt k = a.textAt k := by
  rw [textAt, textAt, get?_setCell hfree]
  split
  · cases a.get? k with
    | none => rfl
    | some c => exact hf c
  · rfl

theorem textAt_link (x : Handle) :
    (a.setCell h fun c => { c with attrib := x }).textAt k = a.textAt k :=
  textAt_setCell (fun _ => rfl) fun _ => rfl

theorem SameBut.textAt (hr : Relinks a b) (h : Handle) : b.textAt h = a.textAt h := by
  have hforth : ∀ {a b : Arena} {t}, Relinks a b → a.textAt h = some t → b.textAt h = some t := by
    intro a b t hr ht
    obtain ⟨c, hc, hct⟩ := textAt_eq_some.mp ht
    obtain ⟨d, hd, hdc⟩ := hr.unlinked hc
    exact textAt_eq_some.mpr ⟨d, hd, (Cell.text?_of_unlinked hdc).trans hct⟩
  exact Option.ext fun t => ⟨hforth hr.symm, hforth hr⟩

theorem length_positions (ht : a.Tidy) : a.positions.length = a.capacity := by
  have hcolumn : ∀ i ∈ List.range a.segments.size, ((List.range
      (a.segments[i]?.map (·.cells.size) |>.getD 0)).map (Handle.pack i)).length =
        a.segmentCells := by
    intro i hi
    have hlt := List.mem_range.mp hi
    have hs : a.segments[i]? = some a.segments[i] := Array.getElem?_eq_getElem hlt
    rw [hs, Option.map_some, Option.getD_some, List.length_map, List.length_range,
      ht.sized i _ hs]
  rw [positions, List.length_flatMap, List.map_congr_left hcolumn, List.map_const',
    List.sum_replicate_nat, List.length_range, capacity]

theorem length_le_capacity (ht : a.Tidy) {hs : List Handle} (honce : hs.Nodup)
    (hlive : ∀ h ∈ hs, ∃ c, a.get? h = some c) : hs.length ≤ a.capacity := by
  rw [← length_positions ht]
  refine (List.subperm_of_subset honce ?_).length_le
  intro h hh
  obtain ⟨c, hc⟩ := hlive h hh
  exact (mem_positions ht).mpr ⟨c, (get?_eq_some.mp hc).1⟩

end Arena

namespace Linked

variable {a : Arena} {x h : Handle} {hs : List Handle}

theorem from_mem (hl : Linked a x hs) (hh : h ∈ hs) :
    ∃ front rest, hs = front ++ h :: rest ∧ Linked a h (h :: rest) := by
  induction hl with
  | nil => exact absurd hh List.not_mem_nil
  | @cons x c rest hne hc hcached hrest ih =>
    rcases List.mem_cons.mp hh with rfl | hh
    · exact ⟨[], rest, rfl, .cons hne hc hcached hrest⟩
    · obtain ⟨front, tail, rfl, htail⟩ := ih hh
      exact ⟨x :: front, tail, rfl, htail⟩

theorem nodup (hl : Linked a x hs) : hs.Nodup := by
  induction hl with
  | nil => exact List.nodup_nil
  | @cons x c rest hne hc hcached hrest ih =>
    refine List.nodup_cons.mpr ⟨fun hx => ?_, ih⟩
    obtain ⟨front, tail, rfl, htail⟩ := hrest.from_mem hx
    have hsame := (Linked.cons hne hc hcached hrest).unique htail
    have hlength := congrArg List.length hsame
    simp only [List.length_cons, List.length_append] at hlength
    omega

theorem length_le (hl : Linked a x hs) (ht : a.Tidy) : hs.length ≤ a.capacity :=
  Arena.length_le_capacity ht hl.nodup fun h hh => by
    obtain ⟨-, c, hc, -⟩ := hl.cached hh
    exact ⟨c, hc⟩

end Linked

namespace StringCache

variable {c : StringCache} {i j : Nat} {h : Handle}

theorem bucketOf_lt (hc : 0 < c.buckets.size) (hash : UInt32) : c.bucketOf hash < c.buckets.size :=
  Nat.mod_lt _ hc

theorem head_setHead (hi : i < c.buckets.size) :
    (c.setHead i h).head j = if j = i then h else c.head j := by
  simp only [head, setHead, Array.getElem?_setIfInBounds]
  by_cases hj : i = j
  · subst hj
    simp [hi]
  · simp [hj, Ne.symm hj]

theorem size_setHead : (c.setHead i h).buckets.size = c.buckets.size := Array.size_setIfInBounds

theorem toList_buckets (c : StringCache) :
    c.buckets.toList = (List.range c.buckets.size).map c.head := by
  refine List.ext_getElem? fun i => ?_
  by_cases hi : i < c.buckets.size
  · simp [head, hi]
  · simp [Nat.le_of_not_lt hi]

end StringCache

/-- The chain of each bucket visits just the strings `on` the shelves whose stored hash
selects the bucket. -/
structure Shelved (a : Arena) (c : StringCache) (shelf : Nat → List Handle)
    (on : Handle → Prop) : Prop where
  room : 0 < c.buckets.size
  texts : ∀ {h}, on h → ∃ t, a.textAt h = some t
  linked : ∀ i, Linked a (c.head i) (shelf i)
  placed : ∀ {i h}, h ∈ shelf i ↔ on h ∧ ∃ t, a.textAt h = some t ∧ c.bucketOf t.hash = i

namespace Shelved

variable {a b : Arena} {c d : StringCache} {shelf : Nat → List Handle} {on : Handle → Prop}
  {h : Handle} {t : Text} {i j : Nat}

theorem apart (hs : Shelved a c shelf on) (hi : h ∈ shelf i) (hj : h ∈ shelf j) : i = j := by
  obtain ⟨-, t, ht, rfl⟩ := hs.placed.mp hi
  obtain ⟨-, t', ht', rfl⟩ := hs.placed.mp hj
  rw [ht, Option.some.injEq] at ht'
  rw [ht']

theorem mem (hs : Shelved a c shelf on) (hh : on h) (ht : a.textAt h = some t) :
    h ∈ shelf (c.bucketOf t.hash) := hs.placed.mpr ⟨hh, t, ht, rfl⟩

theorem congr (hs : Shelved a c shelf on) (hhead : ∀ i, d.head i = c.head i)
    (hsize : d.buckets.size = c.buckets.size)
    (hkeep : ∀ h, on h → ∀ e, a.get? h = some e →
      ∃ e', b.get? h = some e' ∧ e'.text? = e.text? ∧ e'.attrib = e.attrib) :
    Shelved b d shelf on := by
  have htext : ∀ {h}, on h → b.textAt h = a.textAt h := by
    intro h hh
    obtain ⟨t, ht⟩ := hs.texts hh
    obtain ⟨e, he, -⟩ := Arena.textAt_eq_some.mp ht
    obtain ⟨e', he', hsame, -⟩ := hkeep h hh e he
    rw [Arena.textAt_of_get? he', hsame, Arena.textAt_of_get? he]
  refine ⟨hsize ▸ hs.room, fun hh => ?_, fun i => ?_, fun {i h} => ?_⟩
  · rw [htext hh]
    exact hs.texts hh
  · rw [hhead]
    refine (hs.linked i).congr ?_
    intro h hh e he _
    obtain ⟨hon, t, ht, -⟩ := hs.placed.mp hh
    obtain ⟨e', he', hsame, hlink⟩ := hkeep h hon e he
    rw [Arena.textAt_of_get? he, ← hsame] at ht
    exact ⟨e', he', (Cell.text?_eq_some.mp ht).1, hlink⟩
  · rw [hs.placed]
    simp only [StringCache.bucketOf, hsize]
    exact and_congr_right fun hh => by rw [htext hh]

theorem setCell {f : Cell → Cell} (hs : Shelved a c shelf on) (hh : ¬ on h) :
    Shelved (a.setCell h f) c shelf on := by
  refine hs.congr (fun _ => rfl) rfl ?_
  intro k hk e he
  have hne : k ≠ h := fun heq => hh (heq ▸ hk)
  exact ⟨e, (Arena.get?_setCell_ne hne).trans he, rfl, rfl⟩

theorem on_congr {on' : Handle → Prop} (hs : Shelved a c shelf on) (hon : ∀ h, on' h ↔ on h) :
    Shelved a c shelf on' := by
  obtain rfl : on' = on := funext fun h => propext (hon h)
  exact hs

theorem chained (hs : Shelved a c shelf on) : Chained a c.buckets.toList on := by
  refine ⟨(List.range c.buckets.size).map fun i => (c.head i, shelf i), ?_, ?_, ?_, ?_⟩
  · rw [c.toList_buckets, List.map_map]
    rfl
  · intro p hp
    obtain ⟨i, -, rfl⟩ := List.mem_map.mp hp
    exact hs.linked i
  · rw [List.flatMap_map]
    refine List.nodup_flatMap.mpr ⟨fun i _ => (hs.linked i).nodup, ?_⟩
    refine List.nodup_range.imp_of_mem ?_
    intro i j _ _ hij h hi hj
    exact hij (hs.apart hi hj)
  · intro h
    simp only [List.flatMap_map, List.mem_flatMap, List.mem_range]
    constructor
    · intro hh
      obtain ⟨t, ht⟩ := hs.texts hh
      exact ⟨_, c.bucketOf_lt hs.room t.hash, hs.mem hh ht⟩
    · rintro ⟨i, -, hi⟩
      exact (hs.placed.mp hi).1

theorem empty (hroom : 0 < c.buckets.size) (hnil : ∀ i, c.head i = .nil) :
    Shelved a c (fun _ => []) fun _ => False :=
  ⟨hroom, fun hh => hh.elim, fun i => hnil i ▸ .nil,
    ⟨fun hh => absurd hh List.not_mem_nil, fun hh => hh.1.elim⟩⟩

theorem put {e : Cell} (hs : Shelved a c shelf on) (hne : h ≠ .nil) (he : a.get? h = some e)
    (ht : e.text? = some t) (hh : ¬ on h) :
    Shelved (a.setCell h fun c' => { c' with attrib := c.head (c.bucketOf t.hash) })
      (c.setHead (c.bucketOf t.hash) h)
      (fun i => if i = c.bucketOf t.hash then h :: shelf i else shelf i)
      fun k => k = h ∨ on k := by
  have hlt := c.bucketOf_lt hs.room t.hash
  have hset := hs.setCell (f := fun c' => { c' with attrib := c.head (c.bucketOf t.hash) }) hh
  have htext : a.textAt h = some t := (Arena.textAt_of_get? he).trans ht
  have hsame : ∀ hash, (c.setHead (c.bucketOf t.hash) h).bucketOf hash = c.bucketOf hash :=
    fun hash => congrArg (hash.toNat % ·) c.size_setHead
  refine ⟨c.size_setHead.symm ▸ hs.room, ?_, fun i => ?_, fun {i k} => ?_⟩
  · rintro k (rfl | hk)
    · exact ⟨t, (Arena.textAt_link _).trans htext⟩
    · exact hset.texts hk
  · rw [StringCache.head_setHead hlt]
    by_cases hi : i = c.bucketOf t.hash
    · rw [if_pos hi, if_pos hi]
      exact .cons hne (Arena.get?_setCell_self he (Arena.get?_eq_some.mp he).2)
        (Cell.text?_eq_some.mp ht).1 (hi ▸ hset.linked i)
    · rw [if_neg hi, if_neg hi]
      exact hset.linked i
  · rw [Arena.textAt_link]
    simp only [hsame]
    have hplaced := @hs.placed i k
    by_cases hk : k = h
    · subst hk
      have hout : k ∉ shelf i := fun hmem => hh (hs.placed.mp hmem).1
      by_cases hi : i = c.bucketOf t.hash
      · simp [hi, htext]
      · simp [hi, hout, htext, Ne.symm hi]
    · by_cases hi : i = c.bucketOf t.hash
      · rw [if_pos hi, List.mem_cons, hplaced]
        simp only [hk, false_or]
      · rw [if_neg hi, hplaced]
        simp only [hk, false_or]

theorem remove (hs : Shelved a c shelf on) (hsize : d.buckets.size = c.buckets.size)
    (htext : ∀ k, b.textAt k = a.textAt k)
    (hlinked : ∀ i, Linked b (d.head i) ((shelf i).erase h)) :
    Shelved b d (fun i => (shelf i).erase h) fun k => on k ∧ k ≠ h := by
  refine ⟨hsize ▸ hs.room, fun hk => ?_, hlinked, fun {i k} => ?_⟩
  · rw [htext]
    exact hs.texts hk.1
  · rw [(hs.linked i).nodup.mem_erase_iff, hs.placed, htext]
    simp only [StringCache.bucketOf, hsize]
    tauto

end Shelved

end ManagedHeap
