import AccessPolicy.Decision
import AccessPolicy.Semantics.Condition

/-!
# Decisions from the model — what a request may do, without compiling

The statements of the active roles are walked directly: a `when` leads to its body if its condition
holds, and to its alternative otherwise.  The permissions met on the way are reached, and an action
is forbidden or allowed by what they say about it and about the actions above and below it.
-/

namespace AccessPolicy

/-- A permission as it is declared. -/
abbrev Permission := AccessMode × ActionSelection

mutual

/-- The permissions that are reached when `holds` tells which conditions hold. -/
def Statement.reached (holds : Expression → Bool) : Statement → List Permission
  | .permission mode actions => [(mode, actions)]
  | .when w => w.reached holds

def When.reached (holds : Expression → Bool) : When → List Permission
  | .mk condition body alternative =>
    if holds condition then reachedAll holds body else alternative.reached holds

def ElseBranch.reached (holds : Expression → Bool) : ElseBranch → List Permission
  | .none => []
  | .elseWhen next => next.reached holds
  | .otherwise body => reachedAll holds body

def reachedAll (holds : Expression → Bool) : List Statement → List Permission
  | [] => []
  | s :: rest => s.reached holds ++ reachedAll holds rest

end

namespace AccessRequest

/-- The data that the roots of a condition stand for. -/
def data (r : AccessRequest) : Root → Json
  | .user => r.user
  | .environment => r.environment
  | .subject => r.resource

end AccessRequest

namespace SubjectDecl

/-- Is `a` the action `b` or does it extend it, directly or not? -/
def isBelow (d : SubjectDecl) (a b : String) : Bool :=
  HierarchyNode.isBelow (d.actions.map ActionDecl.node) a b

/-- The declared actions that a selection names. -/
def targets (d : SubjectDecl) : ActionSelection → List String
  | .everything => d.actions.map (·.name)
  | .actions names => names

/-- Does the permission say something about the action?  Allowing reaches the actions below a
target, forbidding the ones above it. -/
def reaches (d : SubjectDecl) (p : Permission) (action : String) : Bool :=
  (d.targets p.2).any fun target => match p.1 with
    | .allow => d.isBelow action target
    | .forbid => d.isBelow target action

/-- What reached permissions amount to for an action; forbidding wins. -/
def resolve (d : SubjectDecl) (reached : List Permission) (action : String) : Resolution :=
  if reached.isEmpty then .noMatchingRule
  else if reached.any fun p => p.1 = .forbid && d.reaches p action then .forbidden
  else if reached.any fun p => p.1 = .allow && d.reaches p action then .allowed
  else .notGranted

end SubjectDecl

namespace Model

/-- The statements of a role for a subject, block after block. -/
def statementsFor (subject : String) (r : RoleDecl) : List Statement :=
  (r.blocks.filter (·.subject = subject)).flatMap (·.statements)

/-- The permissions that the active roles of a request reach; undeclared roles reach nothing. -/
def reached (m : Model) (cs : Concepts) (r : AccessRequest) : List Permission :=
  let holds (e : Expression) : Bool := (e.evaluate cs r.data).truthy
  r.roles.flatMap fun name => match m.roles.find? (·.name = name) with
    | some d => reachedAll holds (statementsFor r.subject d)
    | none => []

/-- What a request may do with an action of a declared subject. -/
def resolve (m : Model) (cs : Concepts) (r : AccessRequest) (d : SubjectDecl) (action : String) :
    Resolution :=
  d.resolve (m.reached cs r) action

end Model

end AccessPolicy
