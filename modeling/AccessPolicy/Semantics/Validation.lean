import AccessPolicy.Compile
import AccessPolicy.Semantics.Typing

/-!
# Validation — what is checked of a model

The checks of a compilation in their order, without the rules and tables that it builds on the way.
Of a statement everything that it mentions is checked, also where no permission depends on it.
-/

namespace AccessPolicy

/-- Something that a statement mentions: a condition, or the actions of a permission. -/
inductive Mention where
  | condition (e : Expression)
  | selection (actions : ActionSelection)

mutual

/-- What a statement mentions at any depth, in order. -/
def Statement.mentions : Statement → List Mention
  | .permission _ actions => [.selection actions]
  | .when w => w.mentions

def When.mentions : When → List Mention
  | .mk condition body alternative =>
    .condition condition :: (mentionsAll body ++ alternative.mentions)

def ElseBranch.mentions : ElseBranch → List Mention
  | .none => []
  | .elseWhen next => next.mentions
  | .otherwise body => mentionsAll body

def mentionsAll : List Statement → List Mention
  | [] => []
  | s :: rest => s.mentions ++ mentionsAll rest

end

namespace SubjectDecl

/-- Every named action has to be declared. -/
def checkActions (role : String) (d : SubjectDecl) : ActionSelection → Except PolicyError Unit
  | .everything => .ok ()
  | .actions names => names.forM fun name =>
    if name ∈ d.actions.map (·.name) then .ok ()
    else .error (.configuration (.unknownAction role name d.name))

def checkMention (c : ConditionContext) (role : String) (d : SubjectDecl) :
    Mention → Except PolicyError Unit
  | .condition e => do
    let _ ← e.check c
    return ()
  | .selection actions => d.checkActions role actions

end SubjectDecl

namespace Model

/-- What the conditions of a subject may refer to. -/
def context (m : Model) (cs : Concepts) (d : SubjectDecl) : ConditionContext :=
  ⟨cs, m.user, m.environment, d.concept⟩

def checkBlock (m : Model) (cs : Concepts) (role : String) (b : RoleBlock) :
    Except PolicyError Unit :=
  match m.subjects.find? (·.name = b.subject) with
  | none => .error (.configuration (.unknownSubject role b.subject))
  | some d => (mentionsAll b.statements).forM (d.checkMention (m.context cs d) role)

def checkRoles (m : Model) (cs : Concepts) (seen : List String) :
    List RoleDecl → Except PolicyError Unit
  | [] => .ok ()
  | d :: rest =>
    if d.name ∈ seen then .error (.configuration (.duplicateRole d.name))
    else do
      d.blocks.forM (m.checkBlock cs d.name)
      checkRoles m cs (d.name :: seen) rest

def validate (m : Model) : Except PolicyError Unit := do
  let concepts ← Concepts.build m.concepts
  concepts.require "user" m.user
  m.requireEnvironment concepts
  let _ ← encodeSubjects concepts [] m.subjects
  m.checkRoles concepts [] m.roles

end Model

end AccessPolicy
