import AccessPolicy.Text.Unprintable

/-!
# Quoted — a text as a literal of a condition

A literal stands between double quotes.  What could be misread is escaped: the quote and the
backslash, line breaks, tabs and NUL by a letter, other invisible characters by their code point.
-/

namespace AccessPolicy.Text

def hexDigits (c : Char) : List Char := Nat.toDigits 16 c.toNat

def escaped (c : Char) : List Char :=
  match c with
  | '\x00' => ['\\', '0']
  | '\t' => ['\\', 't']
  | '\n' => ['\\', 'n']
  | '\r' => ['\\', 'r']
  | '\\' => ['\\', '\\']
  | '"' => ['\\', '"']
  | c =>
    if isHidden c then ['\\', 'u', '\x7b'] ++ hexDigits c ++ ['\x7d']
    else [c]

def quoted (s : String) : String :=
  String.ofList ('"' :: s.toList.flatMap escaped ++ ['"'])

end AccessPolicy.Text
