import AccessPolicy.Declaration.Expression
import AccessPolicy.Json.Printer

/-!
# Operators — how conditions compute with data

Computing never fails: a read that finds nothing is `null`, and so is arithmetic on anything but
numbers or beyond the finite range.  Every result of arithmetic is a float.
-/

namespace AccessPolicy

namespace Json

/-- The field of an object that names its concept. -/
def typeTagKey : String := "$type"

/-- The magnitude of a number, whichever way it is written. -/
def asNumber? : Json → Option Binary64
  | .int n => some (.ofInt n)
  | .float x => some x
  | _ => none

/-- Does a condition with this value hold? -/
def truthy : Json → Bool
  | .null => false
  | .bool b => b
  | .int n => !(Binary64.ofInt n).isZero
  | .float x => !x.isZero && !x.isNaN
  | .str s => !s.isEmpty
  | .arr _ | .obj _ => true

/-! ## Reading parts -/

def property (receiver : Json) (key : String) : Json := (receiver.field? key).getD .null

/-- Only whole numbers from `0` on select an item. -/
def item (receiver index : Json) : Json :=
  match receiver, index.asNumber? with
  | .arr items, some x =>
    if x.isInteger && 0 ≤ x.truncate then (items[x.truncate.toNat]?).getD .null else .null
  | _, _ => .null

/-- The concept that an object names. -/
def typeTag? (j : Json) : Option String :=
  match j.field? typeTagKey with
  | some (.str s) => some s
  | _ => none

/-! ## Comparing -/

/-- Numbers are equal by magnitude, everything else by structure. -/
def strictEq (left right : Json) : Bool :=
  match left.asNumber?, right.asNumber? with
  | some x, some y => x.numericEq y
  | _, _ => left.same right

/-- Numbers compare with numbers and strings with strings. -/
def compare? (left right : Json) : Option Ordering :=
  match left, right with
  | .str s, .str t => some (compare s t)
  | _, _ =>
    match left.asNumber?, right.asNumber? with
    | some x, some y => x.compare? y
    | _, _ => none

def compares (accept : Ordering → Bool) (left right : Json) : Json :=
  .bool (((left.compare? right).map accept).getD false)

/-- Is the value strictly equal to an item of an array? -/
def isItemOf (value array : Json) : Bool :=
  match array with
  | .arr items => items.any value.strictEq
  | _ => false

/-! ## Combining -/

/-- One thousand million million: whole numbers below it are joined to a string by their digits. -/
def digitLimit : Nat := Nat.pow 10 15

/-- The text of a value when it is joined to a string. -/
def joinedText : Json → String
  | .str s => s
  | .int n =>
    let x := Binary64.ofInt n
    if x.truncatedMagnitude < digitLimit then intText x.truncate else intText n
  | .float x =>
    if x.isInteger && x.truncatedMagnitude < digitLimit then intText x.truncate else floatText x
  | j => j.text

def arithmetic (op : Binary64 → Binary64 → Binary64) (left right : Json) : Json :=
  match left.asNumber?, right.asNumber? with
  | some x, some y => .number (op x y)
  | _, _ => .null

/-- A string on either side joins, anything else adds. -/
def plus (left right : Json) : Json :=
  match left, right with
  | .str _, _ | _, .str _ => .str (left.joinedText ++ right.joinedText)
  | _, _ => arithmetic Binary64.add left right

end Json

/-- Both operands are given; `&&` and `||` answer one of them as it is. -/
def BinaryOp.apply (op : BinaryOp) (left right : Json) : Json :=
  match op with
  | .and => if left.truthy then right else left
  | .or => if left.truthy then left else right
  | .eq => .bool (left.strictEq right)
  | .ne => .bool (!left.strictEq right)
  | .lt => Json.compares (·.isLT) left right
  | .le => Json.compares (·.isLE) left right
  | .gt => Json.compares (·.isGT) left right
  | .ge => Json.compares (·.isGE) left right
  | .add => left.plus right
  | .sub => Json.arithmetic Binary64.sub left right
  | .mul => Json.arithmetic Binary64.mul left right
  | .div => Json.arithmetic Binary64.div left right
  | .rem => Json.arithmetic Binary64.rem left right
  | .isIn => .bool (left.isItemOf right)

def UnaryOp.apply (op : UnaryOp) (operand : Json) : Json :=
  match op with
  | .not => .bool (!operand.truthy)
  | .neg => ((operand.asNumber?).map fun x => Json.number x.neg).getD .null
  | .plus => ((operand.asNumber?).map Json.number).getD .null

end AccessPolicy
