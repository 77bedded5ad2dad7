import AccessPolicy.Evaluation.Values
import AccessPolicy.Rules

/-!
# Policies — compiled models

A compiled policy holds everything a decision needs, by name: the concepts, the node tables, the
actions of every subject and the rules of every role.  It does not change once it is built.
-/

namespace AccessPolicy

/-- A subject with its actions and the nodes that depend on its instances. -/
structure PolicySubject where
  name : String
  concept : String
  actions : ActionTree
  nodes : NodeTable
deriving Repr

/-- A role with its rules for each subject, in the order of declaration. -/
structure Role where
  name : String
  rules : List (String × List Rule) := []
deriving Repr

namespace Role

def addTo (subject : String) (more : List Rule) :
    List (String × List Rule) → List (String × List Rule)
  | [] => [(subject, more)]
  | (s, rules) :: rest =>
    if s = subject then (s, rules ++ more) :: rest else (s, rules) :: addTo subject more rest

/-- Rules of another block follow those that are already there for the subject. -/
def extend (r : Role) (subject : String) (more : List Rule) : Role :=
  { r with rules := addTo subject more r.rules }

def rulesFor (r : Role) (subject : String) : List Rule := (r.rules.lookup subject).getD []

end Role

structure Policy where
  sourceId : String
  /-- The digest of the source and the model; it tells policies apart in a shared cache. -/
  schemaVersion : String
  user : String
  environment : Option String
  concepts : Concepts
  common : NodeTable
  subjects : List PolicySubject
  roles : List Role
deriving Repr

namespace Policy

def subject? (p : Policy) (name : String) : Option PolicySubject :=
  p.subjects.find? (·.name = name)

def role? (p : Policy) (name : String) : Option Role := p.roles.find? (·.name = name)

def commonProgram (p : Policy) : Program := .ofTable p.concepts p.common

def subjectProgram (p : Policy) (s : PolicySubject) : Program := .ofTable p.concepts s.nodes

/-- Is `sub` the concept `sup` or does it inherit from it?  `none` if one is unknown. -/
def isSubType? (p : Policy) (sub sup : String) : Option Bool := p.concepts.isSubType? sub sup

/-- Is `sub` the action `sup` or does it extend it?  `none` if a name is unknown. -/
def isSubAction? (p : Policy) (subject sub sup : String) : Option Bool :=
  (p.subject? subject).bind (·.actions.isSubAction? sub sup)

end Policy

end AccessPolicy
