import AccessPolicy.Declaration.Model
import AccessPolicy.Document.Fields

/-!
# Model documents — models as they are handed over

Writing lists the fields in the order of their declaration and leaves nothing out but a missing type
annotation; reading accepts whatever layout `Json.record?` does.
-/

namespace AccessPolicy

open Json (record? required optional withDefault tagged? noFields? word? ofTagged ofOption)

/-! ## Types -/

namespace DataType

def kinds : List String := ["boolean", "number", "string", "null", "array", "concept", "object"]

mutual

def toJson : DataType → Json
  | .boolean => ofTagged "kind" "boolean" []
  | .number => ofTagged "kind" "number" []
  | .string => ofTagged "kind" "string" []
  | .null => ofTagged "kind" "null" []
  | .array element => ofTagged "kind" "array" [("element", element.toJson)]
  | .concept name => ofTagged "kind" "concept" [("name", .str name)]
  | .object members => ofTagged "kind" "object" [("members", .arr (membersToJson members))]

def membersToJson : List (String × DataType) → List Json
  | [] => []
  | (name, type) :: rest => .obj [("name", .str name), ("type", type.toJson)] :: membersToJson rest

end

/-- A member, given how to read its type. -/
def memberOfJson? (type? : Json → Option DataType) (j : Json) : Option (String × DataType) := do
  let [name, type] ← j.record? ["name", "type"] | none
  return (← required Json.string? name, ← required type? type)

def ofJsonFrom? : (fuel : Nat) → (within : Bool) → Json → Option DataType
  | 0, _, _ => none
  | fuel + 1, within, j => do
    let (kind, content) ← j.tagged? "kind" within kinds
    match kind with
    | "boolean" => content.noFields?.map fun _ => .boolean
    | "number" => content.noFields?.map fun _ => .number
    | "string" => content.noFields?.map fun _ => .string
    | "null" => content.noFields?.map fun _ => .null
    | "array" =>
      let [element] ← content.record? ["element"] | none
      return .array (← required (ofJsonFrom? fuel true) element)
    | "concept" =>
      let [name] ← content.record? ["name"] | none
      return .concept (← required Json.string? name)
    | "object" =>
      let [members] ← content.record? ["members"] | none
      return .object (← required (Json.list? (memberOfJson? (ofJsonFrom? fuel true))) members)
    | _ => none

def ofJson? (within : Bool) (j : Json) : Option DataType := ofJsonFrom? (j.depth + 1) within j

end DataType

/-! ## Expressions -/

namespace Root

def words : List (String × Root) :=
  [Root.user, Root.environment, Root.subject].map fun r => (r.name, r)

def toJson (r : Root) : Json := .str r.name

def ofJson? (within : Bool) : Json → Option Root := word? within words

end Root

namespace BinaryOp

def words : List (String × BinaryOp) := all.map fun op => (op.symbol, op)

def toJson (op : BinaryOp) : Json := .str op.symbol

def ofJson? (within : Bool) : Json → Option BinaryOp := word? within words

end BinaryOp

namespace UnaryOp

def words : List (String × UnaryOp) := all.map fun op => (op.symbol, op)

def toJson (op : UnaryOp) : Json := .str op.symbol

def ofJson? (within : Bool) : Json → Option UnaryOp := word? within words

end UnaryOp

namespace Expression

def kinds : List String :=
  ["null", "boolean", "number", "string", "root", "property", "arrayIndex", "binary", "unary", "is"]

/-- The annotation comes last, and only if there is one. -/
def typeField (type? : Option DataType) : List (String × Json) :=
  match type? with
  | some type => [("type", type.toJson)]
  | none => []

/-- A node with its fields and annotation. -/
def record (kind : String) (fields : List (String × Json)) (type? : Option DataType) : Json :=
  ofTagged "kind" kind (fields ++ typeField type?)

def toJson : Expression → Json
  | .null t => record "null" [] t
  | .boolean b t => record "boolean" [("value", .bool b)] t
  | .number x t => record "number" [("value", .number x)] t
  | .string s t => record "string" [("value", .str s)] t
  | .root r t => record "root" [("root", r.toJson)] t
  | .property e m t => record "property" [("receiver", e.toJson), ("member", .str m)] t
  | .arrayIndex e i t => record "arrayIndex" [("receiver", e.toJson), ("index", i.toJson)] t
  | .binary op l r t =>
    record "binary" [("op", op.toJson), ("left", l.toJson), ("right", r.toJson)] t
  | .unary op e t => record "unary" [("op", op.toJson), ("operand", e.toJson)] t
  | .is e c t => record "is" [("operand", e.toJson), ("concept", .str c)] t

/-- A node without annotation, given how to read its operands. -/
def nodeOfJson? (operand? : Json → Option Expression) (within : Bool) (j : Json) :
    Option Expression := do
  let (kind, content) ← j.tagged? "kind" within kinds
  match kind with
  | "null" => content.noFields?.map fun _ => .null none
  | "boolean" =>
    let [value] ← content.record? ["value"] | none
    return .boolean (← required Json.bool? value) none
  | "number" =>
    let [value] ← content.record? ["value"] | none
    return .number (← required Json.float? value) none
  | "string" =>
    let [value] ← content.record? ["value"] | none
    return .string (← required Json.string? value) none
  | "root" =>
    let [start] ← content.record? ["root"] | none
    return .root (← required (Root.ofJson? true) start) none
  | "property" =>
    let [receiver, member] ← content.record? ["receiver", "member"] | none
    return .property (← required operand? receiver) (← required Json.string? member) none
  | "arrayIndex" =>
    let [receiver, index] ← content.record? ["receiver", "index"] | none
    return .arrayIndex (← required operand? receiver) (← required operand? index) none
  | "binary" =>
    let [op, left, right] ← content.record? ["op", "left", "right"] | none
    return .binary (← required (BinaryOp.ofJson? true) op) (← required operand? left)
      (← required operand? right) none
  | "unary" =>
    let [op, operand] ← content.record? ["op", "operand"] | none
    return .unary (← required (UnaryOp.ofJson? true) op) (← required operand? operand) none
  | "is" =>
    let [operand, concept] ← content.record? ["operand", "concept"] | none
    return .is (← required operand? operand) (← required Json.string? concept) none
  | _ => none

/-- An expression is always an object: its annotation stands among the fields of the node. -/
def ofJsonFrom? : (fuel : Nat) → (within : Bool) → Json → Option Expression
  | 0, _, _ => none
  | fuel + 1, within, .obj fields => do
    let type? ← optional (DataType.ofJson? within) (fields.lookup "type")
    let node ← nodeOfJson? (ofJsonFrom? fuel true) true (.obj (fields.filter (·.1 ≠ "type")))
    return node.annotated type?
  | _ + 1, _, _ => none

def ofJson? (within : Bool) (j : Json) : Option Expression := ofJsonFrom? (j.depth + 1) within j

/-- A document of a node alone, which carries no annotation of its own. -/
def nodeOfDocument? (j : Json) : Option Expression :=
  nodeOfJson? (ofJsonFrom? (j.depth + 1) true) false j

end Expression

/-! ## Statements -/

namespace AccessMode

def words : List (String × AccessMode) :=
  [AccessMode.allow, AccessMode.forbid].map fun m => (m.name, m)

def toJson (m : AccessMode) : Json := .str m.name

def ofJson? (within : Bool) : Json → Option AccessMode := word? within words

end AccessMode

namespace ActionSelection

def toJson : ActionSelection → Json
  | .everything => .str "everything"
  | .actions names => .obj [("actions", .arr (names.map .str))]

def ofJson? (within : Bool) : Json → Option ActionSelection
  | .obj [("actions", names)] => (names.list? Json.string?).map .actions
  | j => j.word? within [("everything", .everything)]

end ActionSelection

mutual

def Statement.toJson : Statement → Json
  | .permission mode actions =>
    ofTagged "kind" "permission" [("mode", mode.toJson), ("actions", actions.toJson)]
  | .when w => ofTagged "kind" "when" w.fields

/-- The fields of a `when`, which stand beside its tag when it is a statement. -/
def When.fields : When → List (String × Json)
  | .mk condition body alternative =>
    [("condition", condition.toJson), ("then", .arr (statementsToJson body)),
      ("alternative", alternative.toJson)]

def ElseBranch.toJson : ElseBranch → Json
  | .none => .null
  | .elseWhen next => .obj [("when", .obj next.fields)]
  | .otherwise body => .obj [("else", .arr (statementsToJson body))]

def statementsToJson : List Statement → List Json
  | [] => []
  | s :: rest => s.toJson :: statementsToJson rest

end

def When.toJson (w : When) : Json := .obj w.fields

mutual

def Statement.ofJsonFrom? : (fuel : Nat) → (within : Bool) → Json → Option Statement
  | 0, _, _ => none
  | fuel + 1, within, j => do
    let (kind, content) ← j.tagged? "kind" within ["permission", "when"]
    match kind with
    | "permission" =>
      let [mode, actions] ← content.record? ["mode", "actions"] | none
      return .permission (← required (AccessMode.ofJson? true) mode)
        (← required (ActionSelection.ofJson? true) actions)
    | _ => (When.ofJsonFrom? fuel true content).map .when

def When.ofJsonFrom? : (fuel : Nat) → (within : Bool) → Json → Option When
  | 0, _, _ => none
  | fuel + 1, within, j => do
    let [condition, body, alternative] ← j.record? ["condition", "then", "alternative"] | none
    return .mk (← required (Expression.ofJson? within) condition)
      (← withDefault [] (Json.list? (Statement.ofJsonFrom? fuel within)) body)
      ((← optional (ElseBranch.ofJsonFrom? fuel within) alternative).getD .none)

def ElseBranch.ofJsonFrom? : (fuel : Nat) → (within : Bool) → Json → Option ElseBranch
  | 0, _, _ => none
  | fuel + 1, within, .obj [("when", next)] =>
    (When.ofJsonFrom? fuel within next).map .elseWhen
  | fuel + 1, within, .obj [("else", body)] =>
    (body.list? (Statement.ofJsonFrom? fuel within)).map .otherwise
  | _ + 1, _, _ => none

end

/-- A statement and its `when` stand in one object, so each level takes two steps. -/
def Json.statementFuel (j : Json) : Nat := 2 * j.depth + 2

def Statement.ofJson? (j : Json) : Option Statement := ofJsonFrom? j.statementFuel false j

def When.ofJson? (j : Json) : Option When := ofJsonFrom? j.statementFuel false j

def ElseBranch.ofJson? (j : Json) : Option ElseBranch := ofJsonFrom? j.statementFuel false j

/-! ## Declarations -/

def memberToJson (m : String × DataType) : Json := .obj [("name", .str m.1), ("type", m.2.toJson)]

def memberOfJson? : Json → Option (String × DataType) :=
  DataType.memberOfJson? (DataType.ofJson? false)

def ConceptDecl.toJson (d : ConceptDecl) : Json :=
  .obj [("name", .str d.name), ("parent", ofOption .str d.parent),
    ("members", .arr (d.members.map memberToJson))]

def ConceptDecl.ofJson? (j : Json) : Option ConceptDecl := do
  let [name, parent, members] ← j.record? ["name", "parent", "members"] | none
  return {
    name := ← required Json.string? name
    parent := ← optional Json.string? parent
    members := ← withDefault [] (Json.list? memberOfJson?) members }

def ActionDecl.toJson (d : ActionDecl) : Json :=
  .obj [("name", .str d.name), ("extends", ofOption .str d.parent)]

def ActionDecl.ofJson? (j : Json) : Option ActionDecl := do
  let [name, parent] ← j.record? ["name", "extends"] | none
  return { name := ← required Json.string? name, parent := ← optional Json.string? parent }

def SubjectDecl.toJson (d : SubjectDecl) : Json :=
  .obj [("name", .str d.name), ("concept", .str d.concept),
    ("actions", .arr (d.actions.map ActionDecl.toJson))]

def SubjectDecl.ofJson? (j : Json) : Option SubjectDecl := do
  let [name, concept, actions] ← j.record? ["name", "concept", "actions"] | none
  return {
    name := ← required Json.string? name
    concept := ← required Json.string? concept
    actions := ← withDefault [] (Json.list? ActionDecl.ofJson?) actions }

def RoleBlock.toJson (b : RoleBlock) : Json :=
  .obj [("subject", .str b.subject), ("statements", .arr (statementsToJson b.statements))]

def RoleBlock.ofJson? (j : Json) : Option RoleBlock := do
  let [subject, statements] ← j.record? ["subject", "statements"] | none
  return {
    subject := ← required Json.string? subject
    statements := ← withDefault [] (Json.list? Statement.ofJson?) statements }

def RoleDecl.toJson (d : RoleDecl) : Json :=
  .obj [("name", .str d.name), ("blocks", .arr (d.blocks.map RoleBlock.toJson))]

def RoleDecl.ofJson? (j : Json) : Option RoleDecl := do
  let [name, blocks] ← j.record? ["name", "blocks"] | none
  return {
    name := ← required Json.string? name
    blocks := ← withDefault [] (Json.list? RoleBlock.ofJson?) blocks }

def Model.toJson (m : Model) : Json :=
  .obj [("user", .str m.user), ("environment", ofOption .str m.environment),
    ("concepts", .arr (m.concepts.map ConceptDecl.toJson)),
    ("subjects", .arr (m.subjects.map SubjectDecl.toJson)),
    ("roles", .arr (m.roles.map RoleDecl.toJson))]

def Model.ofJson? (j : Json) : Option Model := do
  let [user, environment, concepts, subjects, roles] ←
    j.record? ["user", "environment", "concepts", "subjects", "roles"] | none
  return {
    user := ← required Json.string? user
    environment := ← optional Json.string? environment
    concepts := ← withDefault [] (Json.list? ConceptDecl.ofJson?) concepts
    subjects := ← withDefault [] (Json.list? SubjectDecl.ofJson?) subjects
    roles := ← withDefault [] (Json.list? RoleDecl.ofJson?) roles }

end AccessPolicy
