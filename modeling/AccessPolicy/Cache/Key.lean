import AccessPolicy.Digest.Blake3
import AccessPolicy.Json.Printer

/-!
# Keys — what cached values are found under

A key is the digest of bytes from which everything the values depend on can be read back: every text
is preceded by its length, every array and object by its size, and the two kinds of key start
differently.
-/

namespace AccessPolicy.Key

/-- The bytes of a text in UTF-8. -/
def utf8 (s : String) : List UInt8 := s.toList.flatMap String.utf8EncodeChar

/-- A size as eight bytes, the lowest first. -/
def sizeBytes (n : Nat) : List UInt8 :=
  (List.range 8).map fun i => UInt8.ofNat (n / Nat.pow 256 i % 256)

def textBytes (s : String) : List UInt8 :=
  let bytes := utf8 s
  sizeBytes bytes.length ++ bytes

def tagByte (c : Char) : UInt8 := UInt8.ofNat c.toNat

/-- Fields in the order of their keys. -/
def sortedFields (fields : List (String × List UInt8)) : List (String × List UInt8) :=
  fields.mergeSort fun a b => a.1 ≤ b.1

mutual

/-- The bytes of a value; the order in which an object lists its fields does not matter. -/
def valueBytes : Json → List UInt8
  | .null => [tagByte 'n']
  | .bool true => [tagByte 't']
  | .bool false => [tagByte 'f']
  | .int n => tagByte '#' :: textBytes (Json.intText n)
  | .float x => tagByte '#' :: textBytes (Json.floatText x)
  | .str s => tagByte 's' :: textBytes s
  | .arr items => tagByte '[' :: sizeBytes items.length ++ itemsBytes items
  | .obj fields =>
    tagByte '\x7b' :: sizeBytes fields.length
      ++ (sortedFields (fieldsBytes fields)).flatMap fun (key, bytes) => textBytes key ++ bytes

def itemsBytes : List Json → List UInt8
  | [] => []
  | x :: xs => valueBytes x ++ itemsBytes xs

/-- The bytes of each field's value. -/
def fieldsBytes : List (String × Json) → List (String × List UInt8)
  | [] => []
  | (key, x) :: xs => (key, valueBytes x) :: fieldsBytes xs

end

/-- What the key of common values is the digest of. -/
def commonBytes (version : String) (user environment : Json) : List UInt8 :=
  utf8 "common\x00" ++ textBytes version ++ valueBytes user ++ valueBytes environment

/-- What the key of a subject's values is the digest of. -/
def subjectBytes (version commonKey subject : String) (resource : Json) : List UInt8 :=
  utf8 "subject\x00" ++ textBytes version ++ textBytes commonKey ++ textBytes subject
    ++ valueBytes resource

def common (version : String) (user environment : Json) : String :=
  Blake3.hex (commonBytes version user environment)

def subject (version commonKey subject : String) (resource : Json) : String :=
  Blake3.hex (subjectBytes version commonKey subject resource)

end AccessPolicy.Key
