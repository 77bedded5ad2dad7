import AccessPolicy.Declaration.Model
import AccessPolicy.Error
import AccessPolicy.Hierarchy.NestedSet

/-!
# Concepts — the declared data types of a policy

Concepts form a forest by inheritance.  A concept has its own members and those of its ancestors,
of which the nearest counts.
-/

namespace AccessPolicy

/-- Declared concepts with their encoded hierarchy. -/
structure Concepts where
  hierarchy : NestedSet
  decls : List ConceptDecl
deriving Repr

namespace Concepts

def find? (cs : Concepts) (name : String) : Option ConceptDecl :=
  cs.decls.find? (·.name = name)

def contains (cs : Concepts) (name : String) : Bool := (cs.find? name).isSome

/-- The first name in a member's type that is no concept, with the concept and the member. -/
def unknownMemberConcept? (cs : Concepts) : Option (String × String × String) :=
  cs.decls.findSome? fun d => d.members.findSome? fun (member, type) =>
    (type.conceptNames.find? (!cs.contains ·)).map fun unknown => (d.name, member, unknown)

def build (decls : List ConceptDecl) : Except PolicyError Concepts :=
  match NestedSet.encode (decls.map ConceptDecl.node) with
  | .error e => .error (.configuration (.hierarchy e))
  | .ok hierarchy =>
    let cs : Concepts := ⟨hierarchy, decls⟩
    match cs.unknownMemberConcept? with
    | some (concept, member, unknown) =>
      .error (.configuration (.memberConcept concept member unknown))
    | none => .ok cs

/-! ## Inheritance -/

/-- A concept and its ancestors, nearest first, up to `fuel` of them. -/
def lineageFrom (cs : Concepts) : (fuel : Nat) → String → List ConceptDecl
  | 0, _ => []
  | fuel + 1, name =>
    match cs.find? name with
    | some d => d :: ((d.parent.map (lineageFrom cs fuel)).getD [])
    | none => []

def lineage (cs : Concepts) (name : String) : List ConceptDecl :=
  cs.lineageFrom cs.decls.length name

/-- The type of a member, declared or inherited. -/
def member? (cs : Concepts) (concept member : String) : Option DataType :=
  (cs.lineage concept).findSome? (·.members.lookup member)

/-- Is `sub` the concept `sup` or does it inherit from it?  `none` if one is unknown. -/
def isSubType? (cs : Concepts) (sub sup : String) : Option Bool := cs.hierarchy.isSubOf? sub sup

def size (cs : Concepts) : Nat := cs.hierarchy.size

def isEmpty (cs : Concepts) : Bool := cs.hierarchy.isEmpty

/-- Refuse a name that is no concept. -/
def require (cs : Concepts) (owner name : String) : Except PolicyError Unit :=
  if cs.contains name then .ok () else .error (.configuration (.unknownConcept owner name))

end Concepts

end AccessPolicy
