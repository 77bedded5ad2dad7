import AccessPolicy.Concepts
import AccessPolicy.Evaluation.Operators
import AccessPolicy.Graph.Table

/-!
# Values — tables evaluated on demand

A table is paired with concrete data, and each slot is computed when it is first read and kept from
then on.  A slot that is read while it is being computed would wait for itself for ever; such a
read has no result.  Tables in which every node refers to earlier ones never come to that.
-/

namespace AccessPolicy

/-- Does the value name a concept that is `concept` or inherits from it? -/
def Concepts.isInstance (cs : Concepts) (concept : String) (value : Json) : Bool :=
  (value.typeTag?.bind fun tag => cs.isSubType? tag concept).getD false

/-- The value of a node, given a way to read its operands.  The right operand of `&&` and `||` is
read only if the left one does not decide. -/
def Node.evaluate {m : Type → Type} [Monad m] (cs : Concepts) (root : Root → Json)
    (read : NodeIndex → m Json) : Node → m Json
  | .null => pure .null
  | .boolean b => pure (.bool b)
  | .number x => pure (.number x)
  | .string s => pure (.str s)
  | .root r => pure (root r)
  | .property receiver member => do
    return (← read receiver).property member
  | .arrayItem receiver index => do
    let receiver ← read receiver
    let index ← read index
    return receiver.item index
  | .binary .and left right => do
    let left ← read left
    if left.truthy then read right else pure left
  | .binary .or left right => do
    let left ← read left
    if left.truthy then pure left else read right
  | .binary op left right => do
    let left ← read left
    let right ← read right
    return op.apply left right
  | .unary op operand => do
    return op.apply (← read operand)
  | .is concept operand => do
    return .bool (cs.isInstance concept (← read operand))

/-- A node table together with the concepts that its type tests ask about. -/
structure Program where
  concepts : Concepts
  nodes : List Node
deriving Repr

namespace Program

def ofTable (concepts : Concepts) (t : NodeTable) : Program := ⟨concepts, t.map (·.node)⟩

def size (p : Program) : Nat := p.nodes.length

def isEmpty (p : Program) : Bool := p.nodes.isEmpty

end Program

/-- What is known of a slot. -/
inductive Cell where
  | empty
  | running
  | filled (value : Json)
deriving Repr, Inhabited

namespace Cell

def isFilled : Cell → Bool
  | .filled _ => true
  | _ => false

end Cell

/-! ## The common table -/

/-- The common table evaluated for one user and environment. -/
@[ext]
structure CommonValues where
  program : Program
  user : Json
  environment : Json
  cells : List Cell
deriving Repr

namespace CommonValues

/-- Nothing computed yet. -/
def new (program : Program) (user environment : Json) : CommonValues :=
  ⟨program, user, environment, program.nodes.map fun _ => .empty⟩

def root (v : CommonValues) : Root → Json
  | .user => v.user
  | .environment => v.environment
  | .subject => .null

def mark (position : Nat) (c : Cell) (v : CommonValues) : CommonValues :=
  { v with cells := v.cells.set position c }

/-- Read a slot, at most `fuel` slots below one another being computed; a position beyond the table
reads as `null`. -/
def slot (fuel position : Nat) : StateT CommonValues Option Json := fun v =>
  match v.cells[position]?, v.program.nodes[position]? with
  | some (.filled x), some _ => some (x, v)
  | some .running, some _ => none
  | some .empty, some n =>
    match fuel with
    | 0 => none
    | fuel + 1 => do
      let operand (index : NodeIndex) : StateT CommonValues Option Json :=
        match index.slot with
        | .common p => slot fuel p
        | .subject _ => pure .null
      let (x, v) ← n.evaluate v.program.concepts v.root operand (v.mark position .running)
      some (x, v.mark position (.filled x))
  | _, _ => some (.null, v)

/-- Read a position; computing never nests deeper than there are slots. -/
def position (p : Nat) : StateT CommonValues Option Json := fun v => slot v.cells.length p v

/-- Read an index; the common table knows nothing of a subject, whose indices read as `null`. -/
def read (index : NodeIndex) : StateT CommonValues Option Json :=
  match index.slot with
  | .common p => position p
  | .subject _ => pure .null

def filled (v : CommonValues) : Nat := v.cells.countP Cell.isFilled

end CommonValues

/-! ## The table of a subject -/

/-- The table of a subject evaluated for one instance, on top of the common values. -/
structure SubjectValues where
  program : Program
  common : CommonValues
  resource : Json
  cells : List Cell
deriving Repr

namespace SubjectValues

def new (program : Program) (common : CommonValues) (resource : Json) : SubjectValues :=
  ⟨program, common, resource, program.nodes.map fun _ => .empty⟩

def root (v : SubjectValues) : Root → Json
  | .subject => v.resource
  | r => v.common.root r

def mark (position : Nat) (c : Cell) (v : SubjectValues) : SubjectValues :=
  { v with cells := v.cells.set position c }

/-- Read a position of the common table. -/
def commonPosition (p : Nat) : StateT SubjectValues Option Json := fun v => do
  let (x, common) ← CommonValues.position p v.common
  some (x, { v with common })

/-- Read a slot of the subject's own table; see `CommonValues.slot`. -/
def slot (fuel position : Nat) : StateT SubjectValues Option Json := fun v =>
  match v.cells[position]?, v.program.nodes[position]? with
  | some (.filled x), some _ => some (x, v)
  | some .running, some _ => none
  | some .empty, some n =>
    match fuel with
    | 0 => none
    | fuel + 1 => do
      let operand (index : NodeIndex) : StateT SubjectValues Option Json :=
        match index.slot with
        | .common p => commonPosition p
        | .subject p => slot fuel p
      let (x, v) ← n.evaluate v.program.concepts v.root operand (v.mark position .running)
      some (x, v.mark position (.filled x))
  | _, _ => some (.null, v)

def position (p : Nat) : StateT SubjectValues Option Json := fun v => slot v.cells.length p v

def read (index : NodeIndex) : StateT SubjectValues Option Json :=
  match index.slot with
  | .common p => commonPosition p
  | .subject p => position p

def filled (v : SubjectValues) : Nat := v.cells.countP Cell.isFilled

end SubjectValues

end AccessPolicy
