/-!
# Hierarchy — forests given by parent links

A forest is declared as a list of nodes, each with the name of its parent.  Such a list is a forest
when no name is declared twice, every parent is declared, and no node reaches itself.
-/

namespace AccessPolicy

/-- A declared node with its parent, if it has one. -/
structure HierarchyNode where
  id : String
  parent : Option String
deriving DecidableEq, Repr

/-- Why a list of nodes is no forest. -/
inductive HierarchyError where
  /-- The path follows parent links and ends with the node it started from. -/
  | circular (path : List String)
  | duplicateNode (id : String)
  | unknownParent (node parent : String)
deriving DecidableEq, Repr

namespace HierarchyError

def message : HierarchyError → String
  | .circular path => "Circular hierarchy detected: " ++ " -> ".intercalate path
  | .duplicateNode id => "Duplicate hierarchy node: " ++ id
  | .unknownParent node parent => "Node '" ++ node ++ "' extends unknown parent '" ++ parent ++ "'"

end HierarchyError

/-- Parent links between positions. -/
abbrev ParentLinks := List (Option Nat)

namespace HierarchyNode

variable (nodes : List HierarchyNode)

def ids : List String := nodes.map (·.id)

/-! ## Faults of the list itself -/

/-- The first name that is declared a second time. -/
def repeated? (seen : List String) : List HierarchyNode → Option String
  | [] => none
  | n :: rest => if n.id ∈ seen then some n.id else repeated? (n.id :: seen) rest

/-- The first node whose parent is not declared, with that parent. -/
def orphan? : Option (String × String) :=
  nodes.findSome? fun n => match n.parent with
    | some p => if p ∈ ids nodes then none else some (n.id, p)
    | none => none

/-! ## Positions -/

/-- The parent of each node as a position in the list. -/
def parents : ParentLinks :=
  nodes.map fun n => n.parent.bind fun p => (ids nodes).idxOf? p

end HierarchyNode

namespace ParentLinks

def parent? (links : ParentLinks) (position : Nat) : Option Nat := links[position]?.join

/-- The positions whose parent is `p`, ascending. -/
def withParent (links : ParentLinks) (p : Option Nat) : List Nat :=
  (links.zipIdx.filter (·.1 == p)).map (·.2)

def roots (links : ParentLinks) : List Nat := links.withParent none

def children (links : ParentLinks) (position : Nat) : List Nat := links.withParent (some position)

/-- Follow the links until a position repeats; the lead-in before its first visit is dropped, and
the position is listed again at the end. -/
def cycleFrom (links : ParentLinks) : (fuel : Nat) → (visited : List Nat) → Nat → List Nat
  | 0, visited, _ => visited
  | fuel + 1, visited, position =>
    if position ∈ visited then visited.dropWhile (· ≠ position) ++ [position]
    else match links.parent? position with
      | some next => cycleFrom links fuel (visited ++ [position]) next
      | none => visited ++ [position]

end ParentLinks

end AccessPolicy
