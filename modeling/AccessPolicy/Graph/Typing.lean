import AccessPolicy.Concepts

/-!
# Typing — the types that conditions may combine

One rule per kind of node, from the types of its operands to its own type or the fault.
-/

namespace AccessPolicy.Typing

/-- The type of a member of a concept or of an inline object, of which the first declaration counts. -/
def property (cs : Concepts) (receiver : DataType) (member : String) : Except TypeFault DataType :=
  match receiver with
  | .concept name =>
    match cs.member? name member with
    | some type => .ok type
    | none => .error (.unknownMember member name)
  | .object members =>
    match members.lookup member with
    | some type => .ok type
    | none => .error (.missingMember member)
  | other => .error (.receiverNotObject other)

def element (receiver : DataType) : Except TypeFault DataType :=
  match receiver with
  | .array element => .ok element
  | other => .error (.receiverNotArray other)

def requireIndex (index : DataType) : Except TypeFault Unit :=
  if index = .number then .ok () else .error (.indexNotNumber index)

/-- The type of a binary operation, `none` if the operator does not combine the operands.
Equality only refuses two different primitives; `&&` and `||` accept anything. -/
def binary? : BinaryOp → DataType → DataType → Option DataType
  | .and, _, _ | .or, _, _ => some .boolean
  | .eq, l, r | .ne, l, r =>
    if l.isPrimitive && r.isPrimitive && l ≠ r then none else some .boolean
  | .lt, .number, .number | .le, .number, .number | .gt, .number, .number
  | .ge, .number, .number => some .boolean
  | .lt, .string, .string | .le, .string, .string | .gt, .string, .string
  | .ge, .string, .string => some .boolean
  | .add, .number, .number => some .number
  | .add, .string, .string | .add, .string, .number | .add, .number, .string => some .string
  | .sub, .number, .number | .mul, .number, .number | .div, .number, .number
  | .rem, .number, .number => some .number
  | .isIn, _, .array _ => some .boolean
  | _, _, _ => none

def binary (op : BinaryOp) (left right : DataType) : Except TypeFault DataType :=
  match binary? op left right with
  | some type => .ok type
  | none => .error (.operandTypes op left right)

/-- Anything can be negated as a condition, only numbers as numbers. -/
def unary (op : UnaryOp) (operand : DataType) : Except TypeFault DataType :=
  match op with
  | .not => .ok .boolean
  | .neg | .plus => if operand = .number then .ok .number else .error (.operandNotNumber op operand)

def requireConcept (cs : Concepts) (name : String) : Except TypeFault Unit :=
  if cs.contains name then .ok () else .error (.unknownConcept name)

/-- Only objects carry the name of their concept. -/
def requireObject (operand : DataType) : Except TypeFault Unit :=
  match operand with
  | .concept _ | .object _ => .ok ()
  | other => .error (.testedNotObject other)

end AccessPolicy.Typing
