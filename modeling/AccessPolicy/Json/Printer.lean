import AccessPolicy.Json.Basic
import AccessPolicy.Number.Text

/-!
# Json printer — the compact text of a document

No blanks, fields in the order of the object.  Every function puts its text in front of the text
that follows, so a document is written in one pass.
-/

namespace AccessPolicy.Json

def hexDigit (n : Nat) : Char := Nat.digitChar n

/-- A control character without a letter of its own is `\u00` and two hexadecimal digits. -/
def escaped (c : Char) : List Char :=
  match c with
  | '"' => ['\\', '"']
  | '\\' => ['\\', '\\']
  | '\x08' => ['\\', 'b']
  | '\x0c' => ['\\', 'f']
  | '\n' => ['\\', 'n']
  | '\r' => ['\\', 'r']
  | '\t' => ['\\', 't']
  | c =>
    if c.toNat < 0x20 then ['\\', 'u', '0', '0', hexDigit (c.toNat / 16), hexDigit (c.toNat % 16)]
    else [c]

def writeString (s : String) (rest : List Char) : List Char :=
  '"' :: s.toList.flatMap escaped ++ '"' :: rest

/-- The text of a number: digits for an integer, the document format for a float. -/
def intText (n : Int) : String := toString n

def floatText (x : Binary64) : String := NumberFormat.document.write x

mutual

def write : Json → List Char → List Char
  | .null, rest => "null".toList ++ rest
  | .bool true, rest => "true".toList ++ rest
  | .bool false, rest => "false".toList ++ rest
  | .int n, rest => (intText n).toList ++ rest
  | .float x, rest => (floatText x).toList ++ rest
  | .str s, rest => writeString s rest
  | .arr items, rest => '[' :: writeItems items (']' :: rest)
  | .obj fields, rest => '\x7b' :: writeFields fields ('\x7d' :: rest)

def writeItems : List Json → List Char → List Char
  | [], rest => rest
  | [x], rest => write x rest
  | x :: xs, rest => write x (',' :: writeItems xs rest)

def writeFields : List (String × Json) → List Char → List Char
  | [], rest => rest
  | [(key, x)], rest => writeString key (':' :: write x rest)
  | (key, x) :: xs, rest => writeString key (':' :: write x (',' :: writeFields xs rest))

end

/-- The compact text. -/
def text (j : Json) : String := String.ofList (j.write [])

end AccessPolicy.Json
