import AccessPolicy.Number.Shortest

/-!
# Number text — the two ways a number is written

Documents write a number so that it stays a number with a fraction; conditions shown to people
write it plainly, never with an exponent.  Both use the shortest digits that read back.
-/

namespace AccessPolicy

/-- How a format writes the shortest digits of a number. -/
structure NumberFormat where
  tie : Tie
  /-- Is a number whose first digit has this exponent written without an exponent mark? -/
  positional : Int → Bool
  /-- Does an integral number end in `.0`? -/
  keepsFraction : Bool
  nan : String
  infinity : String
  negativeInfinity : String

namespace NumberFormat

def zeros (n : Nat) : List Char := List.replicate n '0'

/-- `ds * 10 ^ e` with the point in its place. -/
def positionalText (f : NumberFormat) (ds : List Char) (e : Int) : List Char :=
  if 0 ≤ e then ds ++ zeros e.toNat ++ (if f.keepsFraction then ['.', '0'] else [])
  else
    let places := (-e).toNat
    if places < ds.length then
      ds.take (ds.length - places) ++ '.' :: ds.drop (ds.length - places)
    else ['0', '.'] ++ zeros (places - ds.length) ++ ds

/-- One digit before the point, the rest behind it, and a signed exponent. -/
def exponentialText (ds : List Char) (leading : Int) : List Char :=
  let mantissa := match ds with
    | [] => []
    | [d] => [d]
    | d :: rest => d :: '.' :: rest
  let sign := if leading < 0 then '-' else '+'
  mantissa ++ 'e' :: sign :: Nat.toDigits 10 leading.natAbs

def magnitudeText (f : NumberFormat) (d : Decimal) : List Char :=
  if f.positional d.leading then f.positionalText d.digits d.exponent
  else exponentialText d.digits d.leading

def write (f : NumberFormat) (x : Binary64) : String :=
  if x.isNaN then f.nan
  else if !x.isFinite then (if x.isNegative then f.negativeInfinity else f.infinity)
  else
    let text := f.magnitudeText (x.shortest f.tie)
    String.ofList (if x.isNegative then '-' :: text else text)

/-- Documents: positional from `0.00001` up to sixteen digits, always with a fraction or an
exponent; `null` stands for what a document cannot hold. -/
def document : NumberFormat where
  tie := .toEven
  positional e := -5 ≤ e && e ≤ 15
  keepsFraction := true
  nan := "null"
  infinity := "null"
  negativeInfinity := "null"

/-- Conditions: all digits, no exponent, no empty fraction. -/
def plain : NumberFormat where
  tie := .up
  positional _ := true
  keepsFraction := false
  nan := "NaN"
  infinity := "inf"
  negativeInfinity := "-inf"

end NumberFormat

end AccessPolicy
