/-!
# Handles

A handle names a heap cell by segment and offset, packed into one 32-bit word
with twelve bits of offset. Packing keeps the low bits of both parts, so it
inverts `segment` and `offset` exactly on parts that fit.
-/

namespace ManagedHeap

def offsetBits : Nat := 12

def maxSegmentCells : Nat := 4096

def maxSegments : Nat := 1048574

/-- A compressed reference to a heap cell. -/
structure Handle where
  bits : UInt32
deriving DecidableEq, Repr, Inhabited

namespace Handle

def pack (segment offset : Nat) : Handle :=
  ⟨UInt32.ofNat (segment * 4096 + offset % 4096)⟩

def segment (h : Handle) : Nat := h.bits.toNat / 4096

def offset (h : Handle) : Nat := h.bits.toNat % 4096

def nil : Handle := pack 0 0

def unbound : Handle := pack 0 1

def noObject : Handle := ⟨4294967295⟩

def isNil (h : Handle) : Bool := h == nil

def isNoObject (h : Handle) : Bool := h == noObject

def order (a b : Handle) : Ordering := compare a.bits.toNat b.bits.toNat

def text (h : Handle) : String :=
  if h.isNoObject then "Handle(NO_OBJECT)"
  else if h.isNil then "Handle(NIL)"
  else s!"Handle({h.segment}:{h.offset})"

theorem segment_pack {s o : Nat} (hs : s < 1048576) : (pack s o).segment = s := by
  have ho : o % 4096 < 4096 := Nat.mod_lt _ (by decide)
  simp only [pack, segment, UInt32.toNat_ofNat']
  omega

theorem offset_pack (s o : Nat) : (pack s o).offset = o % 4096 := by
  have ho : o % 4096 < 4096 := Nat.mod_lt _ (by decide)
  simp only [pack, offset, UInt32.toNat_ofNat']
  omega

theorem pack_segment_offset (h : Handle) : pack h.segment h.offset = h := by
  obtain ⟨b⟩ := h
  have hb := b.toNat_lt
  have : b.toNat / 4096 * 4096 + b.toNat % 4096 % 4096 = b.toNat := by omega
  simp only [pack, segment, offset, this, UInt32.ofNat_toNat]

theorem eq_of_parts {h k : Handle} (hs : h.segment = k.segment)
    (ho : h.offset = k.offset) : h = k := by
  rw [← pack_segment_offset h, hs, ho, pack_segment_offset]

end Handle

end ManagedHeap
