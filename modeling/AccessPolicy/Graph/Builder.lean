import AccessPolicy.Graph.Table
import AccessPolicy.Graph.Typing

/-!
# Builder — condition graphs without repetition

All roles of a policy share one graph.  A node is type-checked, and stored only if an equal node is
not there yet, so equal conditions have equal indices.  What depends on the subject instance is
kept per subject, because the instance has another type for every subject.
-/

namespace AccessPolicy

/-- The nodes that depend on the instances of one subject, whose data is described by a concept. -/
structure SubjectTable where
  concept : String
  nodes : NodeTable := []
deriving Repr

/-- A growing condition graph. -/
structure Graph where
  concepts : Concepts
  user : String
  environment : Option String
  common : NodeTable
  subjects : List SubjectTable
deriving Repr

/-- Steps that extend a graph; what was stored before a failure stays. -/
abbrev GraphM := ExceptT PolicyError (StateM Graph)

namespace NodeTable

/-- The index of an equal node, or a new entry at the end. -/
def place (kind : TableKind) (node : Node) (type : DataType) (t : NodeTable) :
    NodeIndex × NodeTable :=
  match t.find? (·.node = node) with
  | some n => (n.index, t)
  | none =>
    let index := kind.indexAt t.length
    (index, t ++ [⟨index, node, type⟩])

end NodeTable

namespace Graph

/-- The literals that every graph starts with. -/
def literals : NodeTable :=
  [⟨.nullLiteral, .null, .null⟩, ⟨.trueLiteral, .boolean true, .boolean⟩,
    ⟨.falseLiteral, .boolean false, .boolean⟩]

def new (concepts : Concepts) (user : String) (environment : Option String) : Graph :=
  ⟨concepts, user, environment, literals, []⟩

/-- A graph with one more subject; subjects are numbered in this order. -/
def addSubject (g : Graph) (concept : String) : Graph :=
  { g with subjects := g.subjects ++ [{ concept }] }

def tables (g : Graph) : GraphTables := ⟨g.common, g.subjects.map (·.nodes)⟩

/-! ## Looking up -/

/-- The tables as seen from the conditions of the subject `scope`. -/
def view (g : Graph) (scope : Nat) : GraphView :=
  ⟨g.common, ((g.subjects[scope]?).map (·.nodes)).getD []⟩

def nodeAt? (g : Graph) (scope : Nat) (index : NodeIndex) : Option TypedNode :=
  (g.view scope).nodeAt? index

def render (g : Graph) (scope : Nat) (index : NodeIndex) : String := (g.view scope).render index

def renderNode (g : Graph) (scope : Nat) (n : Node) : String := n.render (g.render scope)

/-! ## Type checking -/

def typeOf (g : Graph) (scope : Nat) (index : NodeIndex) : Except PolicyError DataType :=
  match g.nodeAt? scope index with
  | some n => .ok n.type
  | none => .error (.typeInference index.text .danglingOperand)

/-- Report a fault of a node together with its text. -/
def report (g : Graph) (scope : Nat) (n : Node) {α : Type} : Except TypeFault α →
    Except PolicyError α
  | .ok a => .ok a
  | .error fault => .error (.typeInference (g.renderNode scope n) fault)

def rootType (g : Graph) (scope : Nat) : Root → Except PolicyError DataType
  | .user => .ok (.concept g.user)
  | .environment =>
    match g.environment with
    | some concept => .ok (.concept concept)
    | none => .error (.typeInference "environment" .noEnvironment)
  | .subject =>
    match g.subjects[scope]? with
    | some s => .ok (.concept s.concept)
    | none => .error (.configuration (.unregisteredSubject scope))

/-- The type that a node would have; operands are checked from left to right. -/
def nodeType (g : Graph) (scope : Nat) (n : Node) : Except PolicyError DataType :=
  match n with
  | .null => .ok .null
  | .boolean _ => .ok .boolean
  | .number _ => .ok .number
  | .string _ => .ok .string
  | .root r => g.rootType scope r
  | .property receiver member => do
    g.report scope n (Typing.property g.concepts (← g.typeOf scope receiver) member)
  | .arrayItem receiver index => do
    let element ← g.report scope n (Typing.element (← g.typeOf scope receiver))
    g.report scope n (Typing.requireIndex (← g.typeOf scope index))
    return element
  | .binary op left right => do
    let l ← g.typeOf scope left
    let r ← g.typeOf scope right
    g.report scope n (Typing.binary op l r)
  | .unary op operand => do
    g.report scope n (Typing.unary op (← g.typeOf scope operand))
  | .is concept operand => do
    g.report scope n (Typing.requireConcept g.concepts concept)
    g.report scope n (Typing.requireObject (← g.typeOf scope operand))
    return .boolean

/-! ## Storing -/

/-- Store a node of known type where it belongs.  A node of a subject that is not registered goes
to the common table, though under an index of the other kind; checked nodes never get there. -/
def insert (g : Graph) (scope : Nat) (n : Node) (type : DataType) : NodeIndex × Graph :=
  if n.dependsOnSubject then
    match g.subjects[scope]? with
    | some s =>
      let (index, nodes) := s.nodes.place .subject n type
      (index, { g with subjects := g.subjects.set scope { s with nodes } })
    | none =>
      let (index, common) := g.common.place .subject n type
      (index, { g with common })
  else
    let (index, common) := g.common.place .common n type
    (index, { g with common })

/-- Type-check a node and store it. -/
def add (scope : Nat) (n : Node) : GraphM NodeIndex := fun g =>
  match g.nodeType scope n with
  | .error e => (.error e, g)
  | .ok type =>
    let (index, g) := g.insert scope n type
    (.ok index, g)

/-- The conjunction of two conditions; the literal `true` on either side is dropped. -/
def conjoin (scope : Nat) (left right : NodeIndex) : GraphM NodeIndex :=
  if left = .trueLiteral then pure right
  else if right = .trueLiteral then pure left
  else add scope (.binary .and left right)

/-- Refuse an annotation that differs from the type of the stored node. -/
def checkType (scope : Nat) (declared? : Option DataType) (index : NodeIndex) :
    GraphM NodeIndex := fun g =>
  match declared? with
  | none => (.ok index, g)
  | some annotated =>
    match g.typeOf scope index with
    | .error e => (.error e, g)
    | .ok derived =>
      if annotated = derived then (.ok index, g)
      else (.error (.typeInference (g.render scope index) (.typeMismatch annotated derived)), g)

/-- Store a condition, operands first, and check its annotations on the way. -/
def lower (scope : Nat) : Expression → GraphM NodeIndex
  | .null t => checkType scope t .nullLiteral
  | .boolean b t => checkType scope t (if b then .trueLiteral else .falseLiteral)
  | .number x t => do checkType scope t (← add scope (.number x))
  | .string s t => do checkType scope t (← add scope (.string s))
  | .root r t => do checkType scope t (← add scope (.root r))
  | .property receiver member t => do
    let receiver ← lower scope receiver
    checkType scope t (← add scope (.property receiver member))
  | .arrayIndex receiver index t => do
    let receiver ← lower scope receiver
    let index ← lower scope index
    checkType scope t (← add scope (.arrayItem receiver index))
  | .binary op left right t => do
    let left ← lower scope left
    let right ← lower scope right
    checkType scope t (← add scope (.binary op left right))
  | .unary op operand t => do
    let operand ← lower scope operand
    checkType scope t (← add scope (.unary op operand))
  | .is operand concept t => do
    let operand ← lower scope operand
    checkType scope t (← add scope (.is concept operand))

end Graph

end AccessPolicy
