import AccessPolicy.Bitmask
import AccessPolicy.Declaration.Model
import AccessPolicy.Error
import AccessPolicy.Hierarchy.NestedSet

/-!
# Action trees — what allowing or forbidding an action reaches

The actions of a subject form a forest, and the place of an action in the declaration is its bit.
Allowing an action allows every finer action below it; forbidding one forbids every coarser action
above it.
-/

namespace AccessPolicy

/-- The actions that a permission for one action reaches, by mode. -/
structure ActionClosure where
  allow : Bitmask
  forbid : Bitmask
deriving DecidableEq, Repr

namespace ActionClosure

def forMode (c : ActionClosure) : AccessMode → Bitmask
  | .allow => c.allow
  | .forbid => c.forbid

end ActionClosure

/-- The encoded actions of a subject with the closure of each. -/
structure ActionTree where
  actions : NestedSet
  closures : List ActionClosure
deriving Repr

namespace ActionTree

/-- The positions below `x`, itself included. -/
def finer (actions : NestedSet) (x : Nat) : List Nat :=
  (List.range actions.size).filter fun y => actions.isSubOfAt? y x == some true

/-- The positions above `x`, itself included. -/
def coarser (actions : NestedSet) (x : Nat) : List Nat :=
  (List.range actions.size).filter fun y => actions.isSubOfAt? x y == some true

def closureOf (actions : NestedSet) (x : Nat) : ActionClosure where
  allow := .ofIndices actions.size (finer actions x)
  forbid := .ofIndices actions.size (coarser actions x)

def build (subject : SubjectDecl) : Except PolicyError ActionTree :=
  match NestedSet.encode (subject.actions.map ActionDecl.node) with
  | .error e => .error (.configuration (.actionHierarchy subject.name e))
  | .ok actions => .ok ⟨actions, (List.range actions.size).map (closureOf actions)⟩

/-! ## Queries -/

def bit? (t : ActionTree) (action : String) : Option Nat := t.actions.position? action

def coord? (t : ActionTree) (action : String) : Option BitCoord :=
  (t.bit? action).map BitCoord.ofIndex

def closure? (t : ActionTree) (bit : Nat) : Option ActionClosure := t.closures[bit]?

/-- The union of the closures of some bits; a bit beyond the actions is ignored. -/
def mergedClosure (t : ActionTree) (bits : List Nat) (mode : AccessMode) : Bitmask :=
  .unionAll (bits.filterMap fun bit => (t.closure? bit).map (·.forMode mode))

/-- Is `sub` the action `sup` or does it extend it?  `none` if one is unknown. -/
def isSubAction? (t : ActionTree) (sub sup : String) : Option Bool := t.actions.isSubOf? sub sup

/-- The names of the actions in the order of their bits. -/
def names (t : ActionTree) : List String := t.actions.ids

def size (t : ActionTree) : Nat := t.actions.size

def isEmpty (t : ActionTree) : Bool := t.actions.isEmpty

end ActionTree

end AccessPolicy
