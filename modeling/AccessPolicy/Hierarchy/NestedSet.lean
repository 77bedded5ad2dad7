import AccessPolicy.Hierarchy.Tree

/-!
# Nested sets — ancestry as containment of intervals

Every node of a forest gets an interval such that one node lies below another exactly when its
interval lies inside the other's.  A list that is no forest is refused: a repeated name first, then
a missing parent, then a cycle.
-/

namespace AccessPolicy

/-- A closed interval of the numbering. -/
structure Interval where
  left : UInt32
  right : UInt32
deriving DecidableEq, Repr, Inhabited

namespace Interval

def isSubOf (sub sup : Interval) : Bool := sup.left ≤ sub.left && sub.right ≤ sup.right

end Interval

/-- An encoded forest: names and intervals in the order of declaration. -/
structure NestedSet where
  ids : List String
  intervals : List Interval
deriving DecidableEq, Repr

namespace NestedSet

/-- The numbering of all trees of a forest, on one counter. -/
def numbering (links : ParentLinks) : List (Nat × Nat × Nat) :=
  Tree.numberAll 0 (links.roots.map (Tree.ofLinks links links.length))

def intervalAt (numbers : List (Nat × Nat × Nat)) (position : Nat) : Option Interval :=
  (numbers.lookup position).map fun (left, right) => ⟨UInt32.ofNat left, UInt32.ofNat right⟩

/-- Encode a forest; a position that no root leads to lies on or below a cycle. -/
def encode (nodes : List HierarchyNode) : Except HierarchyError NestedSet :=
  match HierarchyNode.repeated? [] nodes with
  | some id => .error (.duplicateNode id)
  | none =>
    match HierarchyNode.orphan? nodes with
    | some (node, parent) => .error (.unknownParent node parent)
    | none =>
      let ids := HierarchyNode.ids nodes
      let links := HierarchyNode.parents nodes
      let numbers := numbering links
      let positions := List.range nodes.length
      match positions.find? fun position => (numbers.lookup position).isNone with
      | some position =>
        .error (.circular ((links.cycleFrom (nodes.length + 1) [] position).filterMap (ids[·]?)))
      | none => .ok ⟨ids, positions.filterMap (intervalAt numbers)⟩

/-! ## Queries -/

/-- The place of a name in the order of declaration. -/
def position? (s : NestedSet) (id : String) : Option Nat := s.ids.idxOf? id

def interval? (s : NestedSet) (id : String) : Option Interval :=
  (s.position? id).bind (s.intervals[·]?)

/-- Is `sub` the node `sup` or below it?  `none` if a name is not declared. -/
def isSubOf? (s : NestedSet) (sub sup : String) : Option Bool := do
  return (← s.interval? sub).isSubOf (← s.interval? sup)

/-- The same by positions; `none` if a position is out of range. -/
def isSubOfAt? (s : NestedSet) (sub sup : Nat) : Option Bool := do
  return (← s.intervals[sub]?).isSubOf (← s.intervals[sup]?)

def size (s : NestedSet) : Nat := s.ids.length

def isEmpty (s : NestedSet) : Bool := s.ids.isEmpty

/-- Names with their intervals, in the order of declaration. -/
def entries (s : NestedSet) : List (String × Interval) := s.ids.zip s.intervals

end NestedSet

end AccessPolicy
