import AccessPolicy.Declaration.Expression

/-!
# Statements — what a role may do, and when

A permission allows or forbids actions.  A `when` holds statements for a condition, and perhaps an
alternative for the case that the condition fails: other statements, or another `when`.
-/

namespace AccessPolicy

inductive AccessMode where
  | allow
  | forbid
deriving DecidableEq, Repr, Inhabited

namespace AccessMode

def name : AccessMode → String
  | .allow => "allow"
  | .forbid => "forbid"

end AccessMode

/-- The actions that a permission is about. -/
inductive ActionSelection where
  | everything
  | actions (names : List String)
deriving DecidableEq, Repr, Inhabited

mutual

inductive Statement where
  | permission (mode : AccessMode) (actions : ActionSelection)
  | when (w : When)

/-- Statements under a condition. -/
inductive When where
  | mk (condition : Expression) (body : List Statement) (alternative : ElseBranch)

/-- What applies when the condition fails. -/
inductive ElseBranch where
  | none
  | elseWhen (next : When)
  | otherwise (body : List Statement)

end

instance : Inhabited Statement := ⟨.permission .allow .everything⟩

namespace When

def condition : When → Expression
  | .mk c _ _ => c

def body : When → List Statement
  | .mk _ b _ => b

def alternative : When → ElseBranch
  | .mk _ _ a => a

/-- Continue with another `when` if the condition fails; it takes the place of the alternative. -/
def elseWhen (first next : When) : When := .mk first.condition first.body (.elseWhen next)

end When

namespace Statement

def allow (names : List String) : Statement := .permission .allow (.actions names)

def forbid (names : List String) : Statement := .permission .forbid (.actions names)

def allowEverything : Statement := .permission .allow .everything

def forbidEverything : Statement := .permission .forbid .everything

def whenever (condition : Expression) (body : List Statement) : Statement :=
  .when (.mk condition body .none)

def whenElse (condition : Expression) (body otherwise : List Statement) : Statement :=
  .when (.mk condition body (.otherwise otherwise))

end Statement

end AccessPolicy
