import AccessPolicy.Declaration.Model

/-!
# Literals — models up to the numbers that data cannot hold

A condition may have NaN or an infinity as a literal.  Documents know no such numbers and write all
of them alike, so a document fixes a model up to which of them stands where.
-/

namespace AccessPolicy

/-! ## The literals -/

def Expression.literals : Expression → List Binary64
  | .number y _ => [y]
  | .null _ | .boolean .. | .string .. | .root .. => []
  | .property e _ _ => e.literals
  | .arrayIndex e i _ => e.literals ++ i.literals
  | .binary _ l r _ => l.literals ++ r.literals
  | .unary _ e _ => e.literals
  | .is e _ _ => e.literals

mutual

def Statement.literals : Statement → List Binary64
  | .permission .. => []
  | .when w => w.literals

def When.literals : When → List Binary64
  | .mk condition body alternative =>
    condition.literals ++ statementsLiterals body ++ alternative.literals

def ElseBranch.literals : ElseBranch → List Binary64
  | .none => []
  | .elseWhen next => next.literals
  | .otherwise body => statementsLiterals body

def statementsLiterals : List Statement → List Binary64
  | [] => []
  | s :: rest => s.literals ++ statementsLiterals rest

end

def RoleBlock.literals (b : RoleBlock) : List Binary64 := statementsLiterals b.statements

def RoleDecl.literals (d : RoleDecl) : List Binary64 := d.blocks.flatMap RoleBlock.literals

/-- The numbers that the conditions of a model speak of; nothing else in a model is a number. -/
def Model.literals (m : Model) : List Binary64 := m.roles.flatMap RoleDecl.literals

/-! ## Another number for those that are not finite -/

/-- The number, or `x` in its place when it is NaN or infinite. -/
def Binary64.finiteOr (x y : Binary64) : Binary64 := if y.isFinite then y else x

/-- The condition with `x` for every literal that is not finite. -/
def Expression.nonFiniteAs (x : Binary64) : Expression → Expression
  | .null t => .null t
  | .boolean b t => .boolean b t
  | .number y t => .number (.finiteOr x y) t
  | .string s t => .string s t
  | .root r t => .root r t
  | .property e m t => .property (e.nonFiniteAs x) m t
  | .arrayIndex e i t => .arrayIndex (e.nonFiniteAs x) (i.nonFiniteAs x) t
  | .binary op l r t => .binary op (l.nonFiniteAs x) (r.nonFiniteAs x) t
  | .unary op e t => .unary op (e.nonFiniteAs x) t
  | .is e c t => .is (e.nonFiniteAs x) c t

mutual

/-- See `Expression.nonFiniteAs`; permissions stay as they are. -/
def Statement.nonFiniteAs (x : Binary64) : Statement → Statement
  | .permission mode actions => .permission mode actions
  | .when w => .when (w.nonFiniteAs x)

def When.nonFiniteAs (x : Binary64) : When → When
  | .mk condition body alternative =>
    .mk (condition.nonFiniteAs x) (statementsNonFiniteAs x body) (alternative.nonFiniteAs x)

def ElseBranch.nonFiniteAs (x : Binary64) : ElseBranch → ElseBranch
  | .none => .none
  | .elseWhen next => .elseWhen (next.nonFiniteAs x)
  | .otherwise body => .otherwise (statementsNonFiniteAs x body)

def statementsNonFiniteAs (x : Binary64) : List Statement → List Statement
  | [] => []
  | s :: rest => s.nonFiniteAs x :: statementsNonFiniteAs x rest

end

def RoleBlock.nonFiniteAs (x : Binary64) (b : RoleBlock) : RoleBlock :=
  { b with statements := statementsNonFiniteAs x b.statements }

def RoleDecl.nonFiniteAs (x : Binary64) (d : RoleDecl) : RoleDecl :=
  { d with blocks := d.blocks.map (·.nonFiniteAs x) }

/-- The model with `x` for every literal that is not finite. -/
def Model.nonFiniteAs (x : Binary64) (m : Model) : Model :=
  { m with roles := m.roles.map (·.nonFiniteAs x) }

end AccessPolicy
