import AccessPolicy.Number.Binary64

/-!
# Shortest decimals — the fewest digits that read back as the same number

The reals that round to a positive double form an interval around it, whose ends belong to it iff
the significand is even.  Decimal grids of 1, 2, … 17 digits are tried in turn; the first one with
a point in the interval gives the digits, the nearer of two such points is taken, and a tie is for
the format that asks.
-/

namespace AccessPolicy

/-- `coefficient * 10 ^ exponent`. -/
structure Decimal where
  coefficient : Nat
  exponent : Int
deriving DecidableEq, Repr

/-- Which of two equally near decimals a format writes. -/
inductive Tie where
  | toEven
  | up
deriving DecidableEq, Repr

namespace Decimal

/-- The digits of the coefficient, most significant first. -/
def digits (d : Decimal) : List Char := Nat.toDigits 10 d.coefficient

/-- The exponent of the first digit: `d.ddd * 10 ^ leading`. -/
def leading (d : Decimal) : Int := d.exponent + d.digits.length - 1

/-- Drop up to `fuel` trailing zeros of the coefficient. -/
def stripZeros : (fuel : Nat) → Decimal → Decimal
  | 0, d => d
  | fuel + 1, d =>
    if d.coefficient ≠ 0 ∧ d.coefficient % 10 = 0 then
      stripZeros fuel ⟨d.coefficient / 10, d.exponent + 1⟩
    else d

end Decimal

namespace Shortest

/-- The reals that round to a double, over a common denominator: from `low / den` to `high / den`,
around `value / den`, the ends included iff `closed`. -/
structure RoundingInterval where
  low : Nat
  value : Nat
  high : Nat
  den : Nat
  closed : Bool

/-- Around `m * 2 ^ q`, in quarters of the last place.  Below a power of two the doubles lie twice
as close, unless it is the smallest normal one. -/
def RoundingInterval.around (m : Nat) (q : Int) : RoundingInterval :=
  let (up, down) := Binary64.powerOfTwo (q - 2)
  let below := if m = Nat.pow 2 52 ∧ -1074 < q then 1 else 2
  ⟨(4 * m - below) * up, 4 * m * up, (4 * m + 2) * up, down, m % 2 = 0⟩

/-- `c * 10 ^ g` over the same denominator, both sides multiplied by `10 ^ (-g)` if `g < 0`. -/
def RoundingInterval.has (i : RoundingInterval) (c : Nat) (g : Int) : Bool :=
  let point := c * Nat.pow 10 g.toNat * i.den
  let scale := Nat.pow 10 (-g).toNat
  if i.closed then i.low * scale ≤ point && point ≤ i.high * scale
  else i.low * scale < point && point < i.high * scale

/-- The exponent of the first decimal digit of `num / den`. -/
def leadingExponent (num den : Nat) : Int :=
  let k : Int := (Nat.toDigits 10 num).length - (Nat.toDigits 10 den).length
  if den * Nat.pow 10 k.toNat ≤ num * Nat.pow 10 (-k).toNat then k else k - 1

/-- The point of the grid `10 ^ g` that lies in the interval, the nearer one of two. -/
def onGrid (tie : Tie) (i : RoundingInterval) (g : Int) : Option Decimal :=
  let num := i.value * Nat.pow 10 (-g).toNat
  let den := i.den * Nat.pow 10 g.toNat
  let c := num / den
  match i.has c g, i.has (c + 1) g with
  | false, false => none
  | true, false => some ⟨c, g⟩
  | false, true => some ⟨c + 1, g⟩
  | true, true =>
    let twice := 2 * (num % den)
    if twice < den then some ⟨c, g⟩
    else if den < twice then some ⟨c + 1, g⟩
    else match tie with
      | .up => some ⟨c + 1, g⟩
      | .toEven => some ⟨c + c % 2, g⟩

/-- The grids of 1 to 17 digits, coarsest first. -/
def grids (i : RoundingInterval) : List Int :=
  (List.range 17).map fun n : Nat => leadingExponent i.value i.den - n

/-- Shortest decimal of `m * 2 ^ q` for `m` positive, without trailing zeros. -/
def decimal (tie : Tie) (m : Nat) (q : Int) : Decimal :=
  let i := RoundingInterval.around m q
  match (grids i).findSome? (onGrid tie i) with
  | some d => d.stripZeros 17
  | none => ⟨0, 0⟩

end Shortest

/-- The shortest decimal of the magnitude of a finite number. -/
def Binary64.shortest (tie : Tie) (x : Binary64) : Decimal :=
  if x.isZero then ⟨0, 0⟩ else Shortest.decimal tie x.significand x.exponent

end AccessPolicy
