/-!
# Bitmask — sets of bit positions packed into bytes

A mask has a fixed number of bytes.  Positions beyond its bytes are never set; a union is as long
as the longest mask that goes into it.
-/

namespace AccessPolicy

/-- The byte of a bit position, and the place of the bit in it. -/
structure BitCoord where
  byteIndex : Nat
  bitIndex : UInt8
deriving DecidableEq, Repr

namespace BitCoord

def ofIndex (index : Nat) : BitCoord := ⟨index / 8, UInt8.ofNat (index % 8)⟩

/-- The byte in which this bit alone is set. -/
def mask (c : BitCoord) : UInt8 := 1 <<< c.bitIndex

end BitCoord

structure Bitmask where
  bytes : List UInt8
deriving DecidableEq, Repr, Inhabited

namespace Bitmask

/-- No bytes: nothing is set. -/
def empty : Bitmask := ⟨[]⟩

/-- Nothing set, with room for `count` positions. -/
def withItems (count : Nat) : Bitmask := ⟨List.replicate ((count + 7) / 8) 0⟩

def isSetAt (m : Bitmask) (c : BitCoord) : Bool :=
  match m.bytes[c.byteIndex]? with
  | some byte => byte &&& c.mask != 0
  | none => false

def isSet (m : Bitmask) (index : Nat) : Bool := m.isSetAt (.ofIndex index)

/-- Set a bit; a position beyond the bytes is ignored. -/
def set (m : Bitmask) (index : Nat) : Bitmask :=
  let c := BitCoord.ofIndex index
  ⟨m.bytes.modify c.byteIndex (· ||| c.mask)⟩

/-- Clear a bit; a position beyond the bytes is ignored. -/
def unset (m : Bitmask) (index : Nat) : Bitmask :=
  let c := BitCoord.ofIndex index
  ⟨m.bytes.modify c.byteIndex (· &&& ~~~c.mask)⟩

def ofIndices (count : Nat) (indices : List Nat) : Bitmask :=
  indices.foldl set (withItems count)

/-! ## Union -/

def unionBytes : List UInt8 → List UInt8 → List UInt8
  | [], bs => bs
  | as, [] => as
  | a :: as, b :: bs => (a ||| b) :: unionBytes as bs

def union (m n : Bitmask) : Bitmask := ⟨unionBytes m.bytes n.bytes⟩

/-- The union of all masks; of none, the mask without bytes. -/
def unionAll (masks : List Bitmask) : Bitmask := masks.foldl union empty

/-! ## Reading -/

/-- The set positions of a byte that starts at position `start`, ascending. -/
def byteIndices (start : Nat) (byte : UInt8) : List Nat :=
  (List.range 8).filterMap fun bit =>
    if byte &&& (1 <<< UInt8.ofNat bit) != 0 then some (start + bit) else none

def indicesFrom (start : Nat) : List UInt8 → List Nat
  | [] => []
  | byte :: rest => byteIndices start byte ++ indicesFrom (start + 8) rest

/-- The set positions, ascending. -/
def indices (m : Bitmask) : List Nat := indicesFrom 0 m.bytes

def size (m : Bitmask) : Nat := m.bytes.length

def isEmpty (m : Bitmask) : Bool := m.bytes.isEmpty

/-- Eight binary digits. -/
def byteText (byte : UInt8) : String :=
  String.ofList ((List.range 8).map fun i => if byte.toNat.testBit (7 - i) then '1' else '0')

def debugText (m : Bitmask) : String :=
  "Bitmask[" ++ " ".intercalate (m.bytes.map byteText) ++ "]"

end Bitmask

end AccessPolicy
