import AccessPolicy.Graph.Typing
import AccessPolicy.Number.Text
import AccessPolicy.Text.Quoted

/-!
# Types of conditions — what type-checks, and what is reported

The type of a condition is found from the types of its operands, and the first node at fault, from
left to right with operands before the node, decides the error.
-/

namespace AccessPolicy

/-- What a condition may refer to: the concepts, and the concept of each root. -/
structure ConditionContext where
  concepts : Concepts
  user : String
  environment : Option String
  subject : String
deriving Repr

namespace Expression

/-- The condition as it is shown in messages; annotations do not show. -/
def text : Expression → String
  | .null _ => "null"
  | .boolean b _ => if b then "true" else "false"
  | .number x _ => NumberFormat.plain.write x
  | .string s _ => Text.quoted s
  | .root r _ => r.name
  | .property e member _ => e.text ++ "." ++ member
  | .arrayIndex e i _ => e.text ++ "[" ++ i.text ++ "]"
  | .binary op l r _ => "(" ++ l.text ++ " " ++ op.symbol ++ " " ++ r.text ++ ")"
  | .unary op e _ => op.symbol ++ e.text
  | .is e concept _ => "(" ++ e.text ++ " is " ++ concept ++ ")"

/-- Report a fault together with the condition. -/
def blame {α : Type} (e : Expression) : Except TypeFault α → Except PolicyError α
  | .ok a => .ok a
  | .error fault => .error (.typeInference e.text fault)

/-- The derived type, unless the node is annotated with another one. -/
def agree (e : Expression) (derived : DataType) : Except PolicyError DataType :=
  match e.declaredType? with
  | none => .ok derived
  | some annotated =>
    if annotated = derived then .ok derived
    else .error (.typeInference e.text (.typeMismatch annotated derived))

def rootType (c : ConditionContext) : Root → Except TypeFault DataType
  | .user => .ok (.concept c.user)
  | .environment =>
    match c.environment with
    | some concept => .ok (.concept concept)
    | none => .error .noEnvironment
  | .subject => .ok (.concept c.subject)

def check (c : ConditionContext) : Expression → Except PolicyError DataType
  | .null t => agree (.null t) .null
  | .boolean b t => agree (.boolean b t) .boolean
  | .number x t => agree (.number x t) .number
  | .string s t => agree (.string s t) .string
  | .root r t => do
    let e : Expression := .root r t
    agree e (← blame e (rootType c r))
  | .property receiver member t => do
    let e : Expression := .property receiver member t
    let type ← check c receiver
    agree e (← blame e (Typing.property c.concepts type member))
  | .arrayIndex receiver index t => do
    let e : Expression := .arrayIndex receiver index t
    let receiverType ← check c receiver
    let indexType ← check c index
    let element ← blame e (Typing.element receiverType)
    blame e (Typing.requireIndex indexType)
    agree e element
  | .binary op left right t => do
    let e : Expression := .binary op left right t
    let l ← check c left
    let r ← check c right
    agree e (← blame e (Typing.binary op l r))
  | .unary op operand t => do
    let e : Expression := .unary op operand t
    let type ← check c operand
    agree e (← blame e (Typing.unary op type))
  | .is operand concept t => do
    let e : Expression := .is operand concept t
    let type ← check c operand
    blame e (Typing.requireConcept c.concepts concept)
    blame e (Typing.requireObject type)
    agree e .boolean

end Expression

end AccessPolicy
