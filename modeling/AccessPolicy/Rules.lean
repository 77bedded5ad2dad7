import AccessPolicy.ActionTree
import AccessPolicy.Graph.Builder

/-!
# Rules — statements as a flat list

Every permission becomes one rule.  Its condition joins the conditions of all `when`s around it,
negated where the way to the permission goes through an alternative; a permission outside every
`when` always applies.
-/

namespace AccessPolicy

/-- Actions, the condition under which the rule applies, and all that it reaches. -/
structure Rule where
  /-- The bits of the actions that are named. -/
  actions : List Nat
  condition : NodeIndex
  mode : AccessMode
  /-- The closures of the actions for the mode, joined. -/
  mask : Bitmask
deriving DecidableEq, Repr

/-- The block that is being turned into rules: its role, its subject and the subject's number. -/
structure RuleContext where
  role : String
  subject : String
  scope : Nat
  actions : ActionTree

/-- The graph and the rules so far. -/
structure RuleState where
  graph : Graph
  rules : List Rule := []

/-- Steps that add rules; what was added before a failure stays. -/
abbrev RuleM := ExceptT PolicyError (StateM RuleState)

namespace Rule

/-- Extend the graph. -/
def onGraph {α : Type} (step : GraphM α) : RuleM α := fun s =>
  let (result, graph) := step s.graph
  (result, { s with graph })

def emit (r : Rule) : RuleM Unit := fun s => (.ok (), { s with rules := s.rules ++ [r] })

def bitOf (c : RuleContext) (name : String) : Except PolicyError Nat :=
  match c.actions.bit? name with
  | some bit => .ok bit
  | none => .error (.configuration (.unknownAction c.role name c.subject))

/-- The bits of a selection, in the order in which the actions are named. -/
def select (c : RuleContext) : ActionSelection → Except PolicyError (List Nat)
  | .everything => .ok (List.range c.actions.size)
  | .actions names => names.mapM (bitOf c)

def addPermission (c : RuleContext) (condition : NodeIndex) (mode : AccessMode)
    (actions : ActionSelection) : RuleM Unit := fun s =>
  match select c actions with
  | .error e => (.error e, s)
  | .ok bits => emit ⟨bits, condition, mode, c.actions.mergedClosure bits mode⟩ s

/-- The condition under which an alternative applies: the enclosing one, and not the condition. -/
def otherwiseCondition (c : RuleContext) (enclosing condition : NodeIndex) : RuleM NodeIndex :=
  onGraph do
    let negated ← Graph.add c.scope (.unary .not condition)
    Graph.conjoin c.scope enclosing negated

mutual

def addStatement (c : RuleContext) (enclosing : NodeIndex) : Statement → RuleM Unit
  | .permission mode actions => addPermission c enclosing mode actions
  | .when w => addWhen c enclosing w

def addWhen (c : RuleContext) (enclosing : NodeIndex) : When → RuleM Unit
  | .mk condition body alternative => do
    let condition ← onGraph (Graph.lower c.scope condition)
    let inside ← onGraph (Graph.conjoin c.scope enclosing condition)
    addBlock c inside body
    addElse c enclosing condition alternative

def addElse (c : RuleContext) (enclosing condition : NodeIndex) : ElseBranch → RuleM Unit
  | .none => pure ()
  | .elseWhen next => do
    let outside ← otherwiseCondition c enclosing condition
    addWhen c outside next
  | .otherwise body => do
    let outside ← otherwiseCondition c enclosing condition
    addBlock c outside body

def addBlock (c : RuleContext) (enclosing : NodeIndex) : List Statement → RuleM Unit
  | [] => pure ()
  | s :: rest => do
    addStatement c enclosing s
    addBlock c enclosing rest

end

/-- The rules of statements outside every `when`. -/
def addStatements (c : RuleContext) (statements : List Statement) : RuleM Unit :=
  addBlock c .trueLiteral statements

end Rule

end AccessPolicy
