import AccessPolicy.Hierarchy.Basic

/-!
# Trees of positions — the shape below a node

A node and everything below it as a tree, and its nested intervals: one counter runs through the
tree, and a node takes a number when it is entered and another when it is left.
-/

namespace AccessPolicy

/-- A position with the trees of its children. -/
inductive Tree where
  | node (position : Nat) (children : List Tree)

namespace Tree

/-- The tree of a position, down to `depth` further levels. -/
def ofLinks (links : ParentLinks) : (depth : Nat) → Nat → Tree
  | 0, position => .node position []
  | depth + 1, position => .node position ((links.children position).map (ofLinks links depth))

mutual

def size : Tree → Nat
  | .node _ children => 1 + sizeAll children

def sizeAll : List Tree → Nat
  | [] => 0
  | t :: ts => t.size + sizeAll ts

end

mutual

/-- Every position of the tree with the numbers on entering and leaving it, counting from
`start`; the count goes on at `start + 2 * size`. -/
def number (start : Nat) : Tree → List (Nat × Nat × Nat)
  | .node position children =>
    (position, start, start + 2 * sizeAll children + 1) :: numberAll (start + 1) children

def numberAll (start : Nat) : List Tree → List (Nat × Nat × Nat)
  | [] => []
  | t :: ts => number start t ++ numberAll (start + 2 * t.size) ts

end

end Tree

end AccessPolicy
