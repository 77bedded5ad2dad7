import AccessPolicy.Evaluation.Operators
import AccessPolicy.Concepts
import AccessPolicy.Hierarchy.Ancestry

/-!
# Conditions as trees — what an expression means

The plain meaning of a condition: the value of a node is computed from the values of its operands,
all of which are computed.  Type tests follow the parent links of the declared concepts.
-/

namespace AccessPolicy

/-- Does the value name a declared concept that is `concept` or has it as an ancestor? -/
def Concepts.namesBelow (cs : Concepts) (concept : String) (value : Json) : Bool :=
  match value.typeTag? with
  | some tag => HierarchyNode.isBelow (cs.decls.map ConceptDecl.node) tag concept
  | none => false

namespace Expression

def evaluate (cs : Concepts) (data : Root → Json) : Expression → Json
  | .null _ => .null
  | .boolean b _ => .bool b
  | .number x _ => .number x
  | .string s _ => .str s
  | .root r _ => data r
  | .property e member _ => (e.evaluate cs data).property member
  | .arrayIndex e i _ => (e.evaluate cs data).item (i.evaluate cs data)
  | .binary op l r _ => op.apply (l.evaluate cs data) (r.evaluate cs data)
  | .unary op e _ => op.apply (e.evaluate cs data)
  | .is e concept _ => .bool (cs.namesBelow concept (e.evaluate cs data))

end Expression

end AccessPolicy
