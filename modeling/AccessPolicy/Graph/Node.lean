import AccessPolicy.Declaration.Expression
import AccessPolicy.Graph.Index
import AccessPolicy.Number.Text
import AccessPolicy.Text.Quoted

/-!
# Nodes — one operation of the condition graph

A node refers to its operands by index, so two nodes of one graph stand for the same condition
exactly when they are equal.
-/

namespace AccessPolicy

inductive Node where
  | null
  | boolean (value : Bool)
  | number (value : Binary64)
  | string (value : String)
  | root (root : Root)
  | property (receiver : NodeIndex) (member : String)
  | arrayItem (receiver index : NodeIndex)
  | binary (op : BinaryOp) (left right : NodeIndex)
  | unary (op : UnaryOp) (operand : NodeIndex)
  | is (concept : String) (operand : NodeIndex)
deriving DecidableEq, Repr, Inhabited

namespace Node

/-- The operands in the order of evaluation. -/
def operands : Node → List NodeIndex
  | .null | .boolean _ | .number _ | .string _ | .root _ => []
  | .property receiver _ => [receiver]
  | .arrayItem receiver index => [receiver, index]
  | .binary _ left right => [left, right]
  | .unary _ operand => [operand]
  | .is _ operand => [operand]

/-- A node depends on the subject instance if it is its root or has an operand that does. -/
def dependsOnSubject (n : Node) : Bool :=
  n == .root .subject || n.operands.any NodeIndex.isSubject

def boolText (b : Bool) : String := if b then "true" else "false"

/-- The node as a condition, given the text of each operand. -/
def render (operand : NodeIndex → String) : Node → String
  | .null => "null"
  | .boolean b => boolText b
  | .number x => NumberFormat.plain.write x
  | .string s => Text.quoted s
  | .root r => r.name
  | .property receiver member => operand receiver ++ "." ++ member
  | .arrayItem receiver index => operand receiver ++ "[" ++ operand index ++ "]"
  | .binary op left right => "(" ++ operand left ++ " " ++ op.symbol ++ " " ++ operand right ++ ")"
  | .unary op inner => op.symbol ++ operand inner
  | .is concept inner => "(" ++ operand inner ++ " is " ++ concept ++ ")"

end Node

/-- A node in its table, with its own index and its type. -/
structure TypedNode where
  index : NodeIndex
  node : Node
  type : DataType
deriving DecidableEq, Repr

end AccessPolicy
