import AccessPolicy.Hierarchy.Basic

/-!
# Ancestry — what parent links mean

One node lies below another if the links lead from it to the other, in any number of steps.  The
names met on the way are the lineage of a node.
-/

namespace AccessPolicy.HierarchyNode

/-- Following parent links from the declared node `a`, zero or more times, leads to `b`. -/
inductive Reaches (nodes : List HierarchyNode) : String → String → Prop where
  | self {a : String} : a ∈ ids nodes → Reaches nodes a a
  | up {n : HierarchyNode} {p b : String} :
    n ∈ nodes → n.parent = some p → Reaches nodes p b → Reaches nodes n.id b

/-- The node of a name and its ancestors, nearest first, up to `fuel` of them. -/
def lineageFrom (nodes : List HierarchyNode) : (fuel : Nat) → String → List String
  | 0, _ => []
  | fuel + 1, id =>
    match nodes.find? (·.id = id) with
    | some n => n.id :: ((n.parent.map (lineageFrom nodes fuel)).getD [])
    | none => []

/-- In a forest no lineage is longer than the list of nodes. -/
def lineage (nodes : List HierarchyNode) (id : String) : List String :=
  lineageFrom nodes nodes.length id

/-- Is the second node on the lineage of the first? -/
def isBelow (nodes : List HierarchyNode) (a b : String) : Bool := (lineage nodes a).contains b

end AccessPolicy.HierarchyNode
