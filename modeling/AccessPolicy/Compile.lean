import AccessPolicy.Cache.Key
import AccessPolicy.Document.Declaration
import AccessPolicy.Policy

/-!
# Compilation — from a model to a policy

Concepts come first, then the subjects with their actions, then the roles, whose statements share
one condition graph.  The first fault in this order is the one that is reported.
-/

namespace AccessPolicy

namespace Model

/-- What the schema version is the digest of: the source, a zero byte, and the model's document. -/
def versionBytes (m : Model) (sourceId : String) : List UInt8 :=
  Key.utf8 sourceId ++ 0 :: Key.utf8 m.toJson.text

def schemaVersion (m : Model) (sourceId : String) : String := Blake3.hex (m.versionBytes sourceId)

/-! ## Subjects -/

/-- A declared subject with its encoded actions. -/
abbrev EncodedSubject := SubjectDecl × ActionTree

def encodeSubjects (cs : Concepts) (seen : List String) :
    List SubjectDecl → Except PolicyError (List EncodedSubject)
  | [] => .ok []
  | d :: rest => do
    if d.name ∈ seen then .error (.configuration (.duplicateSubject d.name))
    cs.require d.name d.concept
    let actions ← ActionTree.build d
    return (d, actions) :: (← encodeSubjects cs (d.name :: seen) rest)

/-! ## Roles -/

/-- The number, declaration and actions of a subject that a role refers to. -/
def findSubject (role name : String) (subjects : List EncodedSubject) :
    Except PolicyError (Nat × EncodedSubject) :=
  match subjects.findIdx? (·.1.name = name) with
  | none => .error (.configuration (.unknownSubject role name))
  | some id =>
    match subjects[id]? with
    | none => .error (.configuration (.unknownSubject role name))
    | some s => .ok (id, s)

/-- The rules of a block. -/
def blockRules (role : String) (subjects : List EncodedSubject) (b : RoleBlock) :
    GraphM (List Rule) := fun g =>
  match findSubject role b.subject subjects with
  | .error e => (.error e, g)
  | .ok (id, _, actions) =>
    match Rule.addStatements ⟨role, b.subject, id, actions⟩ b.statements { graph := g } with
    | (.error e, s) => (.error e, s.graph)
    | (.ok (), s) => (.ok s.rules, s.graph)

def roleBlocks (subjects : List EncodedSubject) (r : Role) : List RoleBlock → GraphM Role
  | [] => pure r
  | b :: rest => do
    let rules ← blockRules r.name subjects b
    roleBlocks subjects (r.extend b.subject rules) rest

def compileRoles (subjects : List EncodedSubject) (seen : List String) :
    List RoleDecl → GraphM (List Role)
  | [] => pure []
  | d :: rest => do
    if d.name ∈ seen then throw (.configuration (.duplicateRole d.name))
    let r ← roleBlocks subjects { name := d.name } d.blocks
    return r :: (← compileRoles subjects (d.name :: seen) rest)

/-! ## The whole model -/

/-- The graph before the first role: the literals, and a table for every subject. -/
def initialGraph (m : Model) (cs : Concepts) : Graph :=
  m.subjects.foldl (fun g d => g.addSubject d.concept) (Graph.new cs m.user m.environment)

def policySubjects (subjects : List EncodedSubject) (tables : List NodeTable) :
    List PolicySubject :=
  (subjects.zip tables).map fun ((d, actions), nodes) => ⟨d.name, d.concept, actions, nodes⟩

def requireEnvironment (m : Model) (cs : Concepts) : Except PolicyError Unit :=
  match m.environment with
  | some name => cs.require "environment" name
  | none => .ok ()

def compile (m : Model) (sourceId : String) : Except PolicyError Policy := do
  let concepts ← Concepts.build m.concepts
  concepts.require "user" m.user
  m.requireEnvironment concepts
  let subjects ← encodeSubjects concepts [] m.subjects
  let (result, graph) := compileRoles subjects [] m.roles (m.initialGraph concepts)
  let roles ← result
  graph.tables.verify
  return {
    sourceId
    schemaVersion := m.schemaVersion sourceId
    user := m.user
    environment := m.environment
    concepts
    common := graph.common
    subjects := policySubjects subjects graph.tables.subjects
    roles }

end Model

end AccessPolicy
