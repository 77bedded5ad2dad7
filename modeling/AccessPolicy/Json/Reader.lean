import AccessPolicy.Json.Basic

/-!
# Json reader — documents and request data from text

Objects are read with their keys in order, the last of several equal keys counting.  A literal with
a point or an exponent is a float, and so is `-0` and an integer outside `-2^63 .. 2^64-1`; a float
beyond the finite range is refused.  Each reader takes the front of the text and gives back what
follows.
-/

namespace AccessPolicy.Json

def skipBlanks : List Char → List Char
  | c :: rest => if c = ' ' ∨ c = '\t' ∨ c = '\n' ∨ c = '\r' then skipBlanks rest else c :: rest
  | [] => []

/-! ## Numbers -/

def digitsValue (ds : List Char) : Nat :=
  ds.foldl (fun n c => 10 * n + (c.toNat - '0'.toNat)) 0

/-- At least one digit. -/
def readDigits (s : List Char) : Option (List Char × List Char) :=
  match s.takeWhile Char.isDigit with
  | [] => none
  | ds => some (ds, s.dropWhile Char.isDigit)

/-- `0`, or digits that do not start with `0`. -/
def readWhole (s : List Char) : Option (List Char × List Char) :=
  match s with
  | '0' :: rest => if (rest.head?.map Char.isDigit).getD false then none else some (['0'], rest)
  | _ => readDigits s

/-- The digits behind the point, if there is one. -/
def readFraction (s : List Char) : Option (Option (List Char) × List Char) :=
  match s with
  | '.' :: rest => (readDigits rest).map fun (ds, rest) => (some ds, rest)
  | _ => some (none, s)

/-- The exponent, if there is one. -/
def readExponent (s : List Char) : Option (Option Int × List Char) :=
  match s with
  | c :: rest =>
    if c = 'e' ∨ c = 'E' then
      let (negative, rest) := match rest with
        | '-' :: rest => (true, rest)
        | '+' :: rest => (false, rest)
        | _ => (false, rest)
      (readDigits rest).map fun (ds, rest) =>
        (some (if negative then -(digitsValue ds : Int) else digitsValue ds), rest)
    else some (none, s)
  | [] => some (none, s)

/-- The double nearest to `m * 10 ^ e` if that is finite; far exponents are decided without powers. -/
def decimalFloat? (negative : Bool) (digits : List Char) (e : Int) : Option Binary64 :=
  let m := digitsValue digits
  if m = 0 then some (Binary64.ofMagnitude negative 0)
  else if 400 < e then none
  else if e + digits.length < -400 then some (Binary64.ofMagnitude negative 0)
  else
    let x := Binary64.ofDecimal negative m e
    if x.isFinite then some x else none

def numberOf (negative : Bool) (whole : List Char) (fraction : Option (List Char))
    (exponent : Option Int) : Option Json :=
  let n : Int := if negative then -(digitsValue whole : Int) else digitsValue whole
  if fraction.isNone ∧ exponent.isNone ∧ -Int.pow 2 63 ≤ n ∧ n < Int.pow 2 64 ∧ ¬ (negative ∧ n = 0) then
    some (.int n)
  else
    let places := fraction.getD []
    (decimalFloat? negative (whole ++ places) (exponent.getD 0 - places.length)).map .float

def readNumber (s : List Char) : Option (Json × List Char) := do
  let (negative, s) := match s with
    | '-' :: rest => (true, rest)
    | _ => (false, s)
  let (whole, s) ← readWhole s
  let (fraction, s) ← readFraction s
  let (exponent, s) ← readExponent s
  let j ← numberOf negative whole fraction exponent
  return (j, s)

/-! ## Strings -/

def hexValue? (c : Char) : Option Nat :=
  if c.isDigit then some (c.toNat - '0'.toNat)
  else if 'a' ≤ c ∧ c ≤ 'f' then some (c.toNat - 'a'.toNat + 10)
  else if 'A' ≤ c ∧ c ≤ 'F' then some (c.toNat - 'A'.toNat + 10)
  else none

/-- Four hexadecimal digits. -/
def hexUnit? (a b c d : Char) : Option Nat := do
  return ((← hexValue? a) * 16 + (← hexValue? b)) * 256 + (← hexValue? c) * 16 + (← hexValue? d)

/-- The character of a high and a low surrogate. -/
def surrogatePair? (high low : Nat) : Option Char :=
  if 0xd800 ≤ high ∧ high ≤ 0xdbff ∧ 0xdc00 ≤ low ∧ low ≤ 0xdfff then
    some (Char.ofNat (0x10000 + (high - 0xd800) * 0x400 + (low - 0xdc00)))
  else none

def unescaped? : Char → Option Char
  | '"' => some '"'
  | '\\' => some '\\'
  | '/' => some '/'
  | 'b' => some '\x08'
  | 'f' => some '\x0c'
  | 'n' => some '\n'
  | 'r' => some '\r'
  | 't' => some '\t'
  | _ => none

/-- The characters of a string whose opening quote has been taken, in front of `taken` reversed. -/
def readCharacters (taken : List Char) : List Char → Option (String × List Char)
  | '"' :: rest => some (String.ofList taken.reverse, rest)
  | '\\' :: 'u' :: a :: b :: c :: d :: '\\' :: 'u' :: e :: f :: g :: h :: rest => do
    let unit ← hexUnit? a b c d
    if 0xd800 ≤ unit ∧ unit ≤ 0xdfff then
      let low ← hexUnit? e f g h
      let c ← surrogatePair? unit low
      readCharacters (c :: taken) rest
    else readCharacters (Char.ofNat unit :: taken) ('\\' :: 'u' :: e :: f :: g :: h :: rest)
  | '\\' :: 'u' :: a :: b :: c :: d :: rest => do
    let unit ← hexUnit? a b c d
    if 0xd800 ≤ unit ∧ unit ≤ 0xdfff then none else readCharacters (Char.ofNat unit :: taken) rest
  | '\\' :: c :: rest => do
    let c ← unescaped? c
    readCharacters (c :: taken) rest
  | c :: rest => if c.toNat < 0x20 then none else readCharacters (c :: taken) rest
  | [] => none

/-! ## Values -/

def expect (literal : List Char) (j : Json) (s : List Char) : Option (Json × List Char) :=
  if literal.isPrefixOf s then some (j, s.drop literal.length) else none

mutual

/-- One value; every step into an array or object uses up one unit of `fuel`, and so does every
item, of which a text has fewer than characters. -/
def readValue : (fuel : Nat) → List Char → Option (Json × List Char)
  | 0, _ => none
  | fuel + 1, s =>
    match skipBlanks s with
    | 'n' :: rest => expect "ull".toList .null rest
    | 't' :: rest => expect "rue".toList (.bool true) rest
    | 'f' :: rest => expect "alse".toList (.bool false) rest
    | '"' :: rest => (readCharacters [] rest).map fun (s, rest) => (.str s, rest)
    | '[' :: rest =>
      match skipBlanks rest with
      | ']' :: rest => some (.arr [], rest)
      | rest => (readItems fuel rest).map fun (items, rest) => (.arr items, rest)
    | '\x7b' :: rest =>
      match skipBlanks rest with
      | '\x7d' :: rest => some (.obj [], rest)
      | rest => (readFields fuel rest).map fun (fields, rest) => (object fields, rest)
    | rest => readNumber rest

/-- One or more values separated by commas, and the closing bracket. -/
def readItems : (fuel : Nat) → List Char → Option (List Json × List Char)
  | 0, _ => none
  | fuel + 1, s => do
    let (x, s) ← readValue fuel s
    match skipBlanks s with
    | ',' :: rest =>
      let (xs, rest) ← readItems fuel rest
      return (x :: xs, rest)
    | ']' :: rest => return ([x], rest)
    | _ => none

/-- One or more fields separated by commas, and the closing brace. -/
def readFields : (fuel : Nat) → List Char → Option (List (String × Json) × List Char)
  | 0, _ => none
  | fuel + 1, s => do
    let (key, s) ← match skipBlanks s with
      | '"' :: rest => readCharacters [] rest
      | _ => none
    let s ← match skipBlanks s with
      | ':' :: rest => some rest
      | _ => none
    let (x, s) ← readValue fuel s
    match skipBlanks s with
    | ',' :: rest =>
      let (xs, rest) ← readFields fuel rest
      return ((key, x) :: xs, rest)
    | '\x7d' :: rest => return ([(key, x)], rest)
    | _ => none

end

/-- The value that a whole text holds. -/
def ofText? (text : String) : Option Json := do
  let s := text.toList
  let (j, rest) ← readValue (s.length + 1) s
  if skipBlanks rest = [] then return j else none

end AccessPolicy.Json
