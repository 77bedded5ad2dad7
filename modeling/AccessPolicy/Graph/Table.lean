import AccessPolicy.Error
import AccessPolicy.Graph.Node

/-!
# Tables — finished condition graphs

A table is well placed when every node stands at its own index and refers only to earlier nodes of
its table or, from the table of a subject, to nodes of the common table.
-/

namespace AccessPolicy

/-- The nodes of one table in the order of their slots. -/
abbrev NodeTable := List TypedNode

/-- The common table, and one table for each subject. -/
structure GraphTables where
  common : NodeTable
  subjects : List NodeTable
deriving DecidableEq, Repr

/-- Which of the two kinds a table is. -/
inductive TableKind where
  | common
  | subject
deriving DecidableEq, Repr

namespace TableKind

def name : TableKind → String
  | .common => "common"
  | .subject => "subject"

/-- The index of a slot of such a table. -/
def indexAt : TableKind → Nat → NodeIndex
  | .common, position => .common position
  | .subject, position => .subject position

end TableKind

namespace NodeTable

/-- May a node at `position` refer to `operand`? -/
def mayRefer (kind : TableKind) (commonSize position : Nat) (operand : NodeIndex) : Bool :=
  match kind, operand.slot with
  | .subject, .common slot => slot < commonSize
  | .common, .common slot => slot < position
  | .subject, .subject slot => slot < position
  | .common, .subject _ => false

def verifyNode (kind : TableKind) (commonSize position : Nat) (n : TypedNode) :
    Except PolicyError Unit :=
  if n.index ≠ kind.indexAt position then
    .error (.configuration (.misplacedNode n.index position kind.name))
  else match n.node.operands.find? fun operand => !mayRefer kind commonSize position operand with
    | some operand => .error (.configuration (.operandOutOfOrder n.index operand))
    | none => .ok ()

def verifyFrom (kind : TableKind) (commonSize : Nat) : (position : Nat) → NodeTable →
    Except PolicyError Unit
  | _, [] => .ok ()
  | position, n :: rest =>
    match verifyNode kind commonSize position n with
    | .error e => .error e
    | .ok () => verifyFrom kind commonSize (position + 1) rest

end NodeTable

/-! ## Looking up -/

/-- What the conditions of one subject can refer to: the common table and the subject's own. -/
structure GraphView where
  common : NodeTable
  own : NodeTable
deriving Repr

namespace GraphView

def nodeAt? (v : GraphView) (index : NodeIndex) : Option TypedNode :=
  match index.slot with
  | .common position => v.common[position]?
  | .subject position => v.own[position]?

/-- The text of the condition at an index, expanded `fuel` levels deep. -/
def renderFrom (v : GraphView) : (fuel : Nat) → NodeIndex → String
  | 0, index => index.text
  | fuel + 1, index =>
    match v.nodeAt? index with
    | some n => n.node.render (renderFrom v fuel)
    | none => index.text

/-- The text of the condition at an index.  A node only refers to earlier ones, so no condition is
deeper than the two tables are long. -/
def render (v : GraphView) (index : NodeIndex) : String :=
  v.renderFrom (v.common.length + v.own.length + 1) index

end GraphView

/-! ## Verification -/

namespace GraphTables

def verifySubjects (commonSize : Nat) : List NodeTable → Except PolicyError Unit
  | [] => .ok ()
  | t :: rest =>
    match NodeTable.verifyFrom .subject commonSize 0 t with
    | .error e => .error e
    | .ok () => verifySubjects commonSize rest

/-- Check every table; the first fault is reported, the common table coming first. -/
def verify (ts : GraphTables) : Except PolicyError Unit :=
  match NodeTable.verifyFrom .common ts.common.length 0 ts.common with
  | .error e => .error e
  | .ok () => verifySubjects ts.common.length ts.subjects

end GraphTables

end AccessPolicy
