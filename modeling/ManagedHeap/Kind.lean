/-!
# Object kinds

The kinds of heap objects, the encodings of character strings, and the size
classes that decide which segments serve a request.
-/

namespace ManagedHeap

inductive Kind
  | free | nil | symbol | pair | language | closure | environment | promise | charString
  | logicalVector | integerVector | realVector | rawVector | stringVector | list | expression
  | byteCode | externalPtr | weakRef | nativeFunction
deriving DecidableEq, Repr, Inhabited

namespace Kind

def all : List Kind :=
  [free, nil, symbol, pair, language, closure, environment, promise, charString,
    logicalVector, integerVector, realVector, rawVector, stringVector, list, expression,
    byteCode, externalPtr, weakRef, nativeFunction]

def name : Kind → String
  | free => "Free"
  | nil => "Nil"
  | symbol => "Symbol"
  | pair => "Pair"
  | language => "Language"
  | closure => "Closure"
  | environment => "Environment"
  | promise => "Promise"
  | charString => "CharString"
  | logicalVector => "LogicalVector"
  | integerVector => "IntegerVector"
  | realVector => "RealVector"
  | rawVector => "RawVector"
  | stringVector => "StringVector"
  | list => "List"
  | expression => "Expression"
  | byteCode => "ByteCode"
  | externalPtr => "ExternalPtr"
  | weakRef => "WeakRef"
  | nativeFunction => "NativeFunction"

def ofName? (text : String) : Option Kind := all.find? (·.name == text)

def number (k : Kind) : Nat := k.ctorIdx

/-- The length of the payload is chosen when the object is allocated. -/
def isVector : Kind → Bool
  | charString | logicalVector | integerVector | realVector | rawVector
  | stringVector | list | expression => true
  | _ => false

def holdsHandles : Kind → Bool
  | stringVector | list | expression => true
  | _ => false

def isPairLike : Kind → Bool
  | pair | language => true
  | _ => false

/-- Free cells and the empty object are never allocated on request. -/
def isAllocatable : Kind → Bool
  | free | nil => false
  | _ => true

def elementSize : Kind → Nat
  | charString | rawVector => 1
  | logicalVector | integerVector => 4
  | realVector => 8
  | stringVector | list | expression => 4
  | _ => 0

end Kind

def chunkBytes : Nat := 8

def wordMax : Nat := 18446744073709551615

def vectorChunks (kind : Kind) (length : Nat) : Nat :=
  (min (length * kind.elementSize) wordMax + 7) / chunkBytes

theorem vectorChunks_of_not_vector {kind : Kind} (length : Nat) (h : kind.isVector = false) :
    vectorChunks kind length = 0 := by
  have : kind.elementSize = 0 := by cases kind <;> simp_all [Kind.isVector, Kind.elementSize]
  simp [vectorChunks, chunkBytes, this]

inductive Encoding
  | native | utf8 | latin1 | bytes
deriving DecidableEq, Repr, Inhabited

namespace Encoding

def all : List Encoding := [native, utf8, latin1, bytes]

def name : Encoding → String
  | native => "Native"
  | utf8 => "Utf8"
  | latin1 => "Latin1"
  | bytes => "Bytes"

def ofName? (text : String) : Option Encoding := all.find? (·.name == text)

def normalize (e : Encoding) (ascii : Bool) : Encoding :=
  if ascii && e != bytes then native else e

theorem normalize_normalize (e : Encoding) (ascii : Bool) :
    (e.normalize ascii).normalize ascii = e.normalize ascii := by
  cases e <;> cases ascii <;> rfl

end Encoding

/-- Size classes: 0 for fixed-size objects, 1 to 5 for small vectors, 6 for large ones. -/
abbrev NodeClass := Fin 7

namespace NodeClass

def fixed : NodeClass := 0

def large : NodeClass := 6

def all : List NodeClass := [0, 1, 2, 3, 4, 5, 6]

def smallVectorChunks : List Nat := [1, 2, 4, 8, 16]

def forChunks (chunks : Nat) : NodeClass :=
  if chunks ≤ 1 then 1
  else if chunks ≤ 2 then 2
  else if chunks ≤ 4 then 3
  else if chunks ≤ 8 then 4
  else if chunks ≤ 16 then 5
  else large

def forRequest (kind : Kind) (length : Nat) : NodeClass :=
  if kind.isVector then forChunks (vectorChunks kind length) else fixed

def isLarge (c : NodeClass) : Bool := c == large

end NodeClass

end ManagedHeap
