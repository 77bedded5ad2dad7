import AccessPolicy.Declaration.Statement
import AccessPolicy.Hierarchy.Basic

/-!
# Models — a whole policy as it is declared

A model names the concepts of its data, the subjects with their actions, and the roles with their
statements.  All references are by name and are checked when the model is compiled.
-/

namespace AccessPolicy

/-- A data type with single inheritance. -/
structure ConceptDecl where
  name : String
  parent : Option String := none
  members : List (String × DataType) := []
deriving DecidableEq, Repr, Inhabited

structure ActionDecl where
  name : String
  parent : Option String := none
deriving DecidableEq, Repr, Inhabited

/-- A kind of resource; the order of its actions fixes their bits. -/
structure SubjectDecl where
  name : String
  concept : String
  actions : List ActionDecl := []
deriving DecidableEq, Repr, Inhabited

/-- The statements of a role for one subject. -/
structure RoleBlock where
  subject : String
  statements : List Statement := []
deriving Inhabited

structure RoleDecl where
  name : String
  blocks : List RoleBlock := []
deriving Inhabited

structure Model where
  user : String
  environment : Option String := none
  concepts : List ConceptDecl := []
  subjects : List SubjectDecl := []
  roles : List RoleDecl := []
deriving Inhabited

/-! ## Hierarchies -/

namespace ConceptDecl

def node (d : ConceptDecl) : HierarchyNode := ⟨d.name, d.parent⟩

/-! ## Declaring -/

def extending (d : ConceptDecl) (parent : String) : ConceptDecl := { d with parent := some parent }

def withMember (d : ConceptDecl) (name : String) (type : DataType) : ConceptDecl :=
  { d with members := d.members ++ [(name, type)] }

end ConceptDecl

namespace ActionDecl

def node (d : ActionDecl) : HierarchyNode := ⟨d.name, d.parent⟩

end ActionDecl

namespace SubjectDecl

def withAction (d : SubjectDecl) (name : String) (parent : Option String) : SubjectDecl :=
  { d with actions := d.actions ++ [⟨name, parent⟩] }

end SubjectDecl

namespace RoleDecl

def withBlock (d : RoleDecl) (subject : String) (statements : List Statement) : RoleDecl :=
  { d with blocks := d.blocks ++ [⟨subject, statements⟩] }

end RoleDecl

namespace Model

def withEnvironment (m : Model) (environment : String) : Model :=
  { m with environment := some environment }

def withConcept (m : Model) (d : ConceptDecl) : Model := { m with concepts := m.concepts ++ [d] }

def withSubject (m : Model) (d : SubjectDecl) : Model := { m with subjects := m.subjects ++ [d] }

def withRole (m : Model) (d : RoleDecl) : Model := { m with roles := m.roles ++ [d] }

end Model

end AccessPolicy
