/-!
# Binary64 — the numbers of conditions and requests

A number is held as its 64 bits, so equality of the type tells `0.0` from `-0.0` and one NaN from
another, which is how two literals are told apart.  Numeric comparison is separate: it goes through
a signed integer key.  Rounding starts from an exact ratio of naturals.
-/

namespace AccessPolicy

/-- An IEEE 754 double, identified with its bit pattern. -/
structure Binary64 where
  bits : UInt64
deriving DecidableEq, Repr, Inhabited

namespace Binary64

/-! ## Fields -/

/-- The 63 bits below the sign: they order the magnitudes. -/
def magnitude (x : Binary64) : Nat := x.bits.toNat % Nat.pow 2 63

def isNegative (x : Binary64) : Bool := Nat.pow 2 63 ≤ x.bits.toNat

def biasedExponent (x : Binary64) : Nat := x.magnitude / Nat.pow 2 52

def fraction (x : Binary64) : Nat := x.magnitude % Nat.pow 2 52

/-- The magnitude bits of infinity. -/
def infinityBits : Nat := 2047 * Nat.pow 2 52

def isFinite (x : Binary64) : Bool := x.magnitude < infinityBits

def isNaN (x : Binary64) : Bool := infinityBits < x.magnitude

/-- A finite number has the magnitude `significand * 2 ^ exponent`. -/
def significand (x : Binary64) : Nat :=
  if x.biasedExponent = 0 then x.fraction else Nat.pow 2 52 + x.fraction

/-- See `significand`. -/
def exponent (x : Binary64) : Int := (max 1 x.biasedExponent : Nat) - 1075

/-! ## Construction -/

def ofMagnitude (negative : Bool) (magnitude : Nat) : Binary64 :=
  ⟨UInt64.ofNat ((if negative then Nat.pow 2 63 else 0) + magnitude)⟩

def zero : Binary64 := ⟨0⟩

def nan : Binary64 := ⟨0x7ff8000000000000⟩

/-- The quotient rounded to the nearest natural, a half to the even one. -/
def divNearestEven (num den : Nat) : Nat :=
  let q := num / den
  let twice := 2 * (num % den)
  if twice < den then q
  else if den < twice then q + 1
  else q + q % 2

/-- `2 ^ e` as a ratio of two naturals. -/
def powerOfTwo (e : Int) : Nat × Nat := (Nat.pow 2 e.toNat, Nat.pow 2 (-e).toNat)

/-- The exponent of the last place of the double nearest to `num / den`, or one less when the
quotient is just above a power of two: it leaves 53 or 54 bits. -/
def lastPlace (num den : Nat) : Int :=
  max (-1074) ((num.log2 : Int) - den.log2 - 53)

/-- The double nearest to `num / den`, ties to even, infinity when it is out of range. -/
def ofRatio (negative : Bool) (num den : Nat) : Binary64 :=
  if num = 0 ∨ den = 0 then ofMagnitude negative 0
  else
    let scaled (e : Int) : Nat × Nat :=
      let (up, down) := powerOfTwo e
      (num * down, den * up)
    let e := lastPlace num den
    let (n, d) := scaled e
    let e := if Nat.pow 2 53 ≤ n / d then e + 1 else e
    let (n, d) := scaled e
    let m := (e + 1074).toNat * Nat.pow 2 52 + divNearestEven n d
    ofMagnitude negative (min m infinityBits)

def ofInt (n : Int) : Binary64 := ofRatio (n < 0) n.natAbs 1

/-- `significand * 2 ^ e` with a sign, rounded. -/
def ofScaled (negative : Bool) (m : Nat) (e : Int) : Binary64 :=
  let (up, down) := powerOfTwo e
  ofRatio negative (m * up) down

/-- `m * 10 ^ e` with a sign, rounded. -/
def ofDecimal (negative : Bool) (m : Nat) (e : Int) : Binary64 :=
  ofRatio negative (m * Nat.pow 10 e.toNat) (Nat.pow 10 (-e).toNat)

/-! ## Order -/

/-- Numbers other than NaN compare as these integers do; both zeros have the key `0`. -/
def orderKey (x : Binary64) : Int := if x.isNegative then -(x.magnitude : Int) else x.magnitude

/-- `none` exactly when an operand is NaN. -/
def compare? (x y : Binary64) : Option Ordering :=
  if x.isNaN || y.isNaN then none else some (compare x.orderKey y.orderKey)

/-- Numeric equality: NaN equals nothing, and `0.0` equals `-0.0`. -/
def numericEq (x y : Binary64) : Bool := x.compare? y == some .eq

def isZero (x : Binary64) : Bool := x.magnitude == 0

/-! ## Integers -/

/-- The integer part of the magnitude of a finite number. -/
def truncatedMagnitude (x : Binary64) : Nat :=
  let (up, down) := powerOfTwo x.exponent
  x.significand * up / down

/-- Finite and without a fractional part. -/
def isInteger (x : Binary64) : Bool :=
  let (up, down) := powerOfTwo x.exponent
  x.isFinite && x.significand * up % down == 0

def truncate (x : Binary64) : Int :=
  if x.isNegative then -(x.truncatedMagnitude : Int) else x.truncatedMagnitude

/-! ## Arithmetic -/

def toFloat (x : Binary64) : Float := Float.ofBits x.bits

def ofFloat (x : Float) : Binary64 := ⟨x.toBits⟩

def neg (x : Binary64) : Binary64 := ofMagnitude (!x.isNegative) x.magnitude

def add (x y : Binary64) : Binary64 := ofFloat (x.toFloat + y.toFloat)

def sub (x y : Binary64) : Binary64 := ofFloat (x.toFloat - y.toFloat)

def mul (x y : Binary64) : Binary64 := ofFloat (x.toFloat * y.toFloat)

def div (x y : Binary64) : Binary64 := ofFloat (x.toFloat / y.toFloat)

/-- The exact remainder of the division truncated toward zero, with the sign of the dividend.
It is NaN for an infinite dividend or a zero divisor, and the dividend for an infinite divisor. -/
def rem (x y : Binary64) : Binary64 :=
  if x.isNaN || y.isNaN || !x.isFinite || y.isZero then nan
  else if !y.isFinite then x
  else
    let e := min x.exponent y.exponent
    let m := x.significand * Nat.pow 2 (x.exponent - e).toNat
      % (y.significand * Nat.pow 2 (y.exponent - e).toNat)
    ofScaled x.isNegative m e

end Binary64

end AccessPolicy
