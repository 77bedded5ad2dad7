/-!
# Blank — white space around a setting

The characters with the Unicode property `White_Space`.
-/

namespace AccessPolicy.Text

def isBlank (c : Char) : Bool :=
  let n := c.toNat
  (0x9 ≤ n && n ≤ 0xd) || n == 0x20 || n == 0x85 || n == 0xa0 || n == 0x1680
    || (0x2000 ≤ n && n ≤ 0x200a) || n == 0x2028 || n == 0x2029 || n == 0x202f || n == 0x205f
    || n == 0x3000

/-- Without the blanks at either end. -/
def trim (s : List Char) : List Char :=
  ((s.dropWhile isBlank).reverse.dropWhile isBlank).reverse

/-- ASCII letters in lower case, every other character as it is. -/
def asciiLower (s : List Char) : List Char := s.map Char.toLower

end AccessPolicy.Text
