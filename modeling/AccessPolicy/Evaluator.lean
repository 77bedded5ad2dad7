import AccessPolicy.Cache.Key
import AccessPolicy.Cache.Recency
import AccessPolicy.Decision
import AccessPolicy.Policy
import AccessPolicy.Settings

/-!
# Evaluators — deciding requests

A request is checked first: its subject, its action and, in strict mode, its roles must be known.
Only then are the values it needs looked up, the common ones and the ones of the subject, so a
refused request leaves the cache as it was.
-/

namespace AccessPolicy

/-- What the cache holds: the values of a common table or of a subject's table. -/
inductive CachedValues where
  | common (values : CommonValues)
  | subject (values : SubjectValues)
deriving Repr

abbrev ValueCache := Cache CachedValues

namespace ValueCache

/-- The common values under a key, or new ones stored there. -/
def commonValues (key : String) (create : Unit → CommonValues) : StateM ValueCache CommonValues :=
  fun c => match Cache.getOrInsert c key fun () => .common (create ()) with
    | (.common v, c) => (v, c)
    | (.subject v, c) => (v.common, c)

/-- The subject's values under a key, or new ones stored there. -/
def subjectValues (key : String) (create : Unit → SubjectValues) : StateM ValueCache SubjectValues :=
  fun c => match Cache.getOrInsert c key fun () => .subject (create ()) with
    | (.subject v, c) => (v, c)
    | (.common _, c) => (create (), c)

/-- Keep what has been computed since the values were looked up. -/
def keep (commonKey subjectKey : String) (v : SubjectValues) (c : ValueCache) : ValueCache :=
  (Cache.refresh c commonKey (.common v.common)).refresh subjectKey (.subject v)

end ValueCache

/-- A policy and how requests to it are handled; the cache is kept outside, where several
evaluators may share it. -/
structure Evaluator where
  policy : Policy
  settings : Settings
deriving Repr

/-- Answers that may fail and may change the cache. -/
abbrev EvaluatorM := ExceptT PolicyError (StateM ValueCache)

namespace Evaluator

/-! ## Checking a request -/

def requireSubject (e : Evaluator) (name : String) : Except PolicyError PolicySubject :=
  match e.policy.subject? name with
  | some s => .ok s
  | none => .error (.usage (.unknownSubject name))

def requireAction (s : PolicySubject) (action : String) : Except PolicyError BitCoord :=
  match s.actions.coord? action with
  | some c => .ok c
  | none => .error (.usage (.unknownAction action s.name))

/-- The roles of a request in its order; unknown names are refused or skipped. -/
def activeRoles (e : Evaluator) : List String → Except PolicyError (List Role)
  | [] => .ok []
  | name :: rest =>
    match e.policy.role? name with
    | some r => (activeRoles e rest).map (r :: ·)
    | none =>
      if e.settings.strictRoles then .error (.usage (.unknownRole name)) else activeRoles e rest

/-! ## Matching rules -/

/-- Does the condition hold?  A read without a result counts as `null`. -/
def holds (condition : NodeIndex) : StateM SubjectValues Bool := fun v =>
  match SubjectValues.read condition v with
  | some (x, v) => (x.truthy, v)
  | none => (false, v)

/-- The rules of a role whose conditions hold, numbered from `index`. -/
def matchRules (role : String) : (index : Nat) → List Rule →
    StateM SubjectValues (List (MatchedRule × Bitmask))
  | _, [] => pure []
  | index, rule :: rest => do
    let applies ← holds rule.condition
    let others ← matchRules role (index + 1) rest
    return if applies then (⟨role, index, rule.mode⟩, rule.mask) :: others else others

def matchRoles (subject : String) : List Role →
    StateM SubjectValues (List (MatchedRule × Bitmask))
  | [] => pure []
  | r :: rest => do
    let first ← matchRules r.name 0 (r.rulesFor subject)
    return first ++ (← matchRoles subject rest)

/-- Match the rules of some roles on the cached values of a request. -/
def matchCached (e : Evaluator) (r : AccessRequest) (s : PolicySubject) (roles : List Role) :
    StateM ValueCache MergedRules := do
  let version := e.policy.schemaVersion
  let commonKey := Key.common version r.user r.environment
  let common ← ValueCache.commonValues commonKey fun () =>
    .new e.policy.commonProgram r.user r.environment
  let subjectKey := Key.subject version commonKey s.name r.resource
  let values ← ValueCache.subjectValues subjectKey fun () =>
    .new (e.policy.subjectProgram s) common r.resource
  let (matched, values) := matchRoles s.name roles values
  modify (ValueCache.keep commonKey subjectKey values)
  return ⟨matched⟩

def merge (e : Evaluator) (r : AccessRequest) (s : PolicySubject) : EvaluatorM MergedRules := do
  let roles ← e.activeRoles r.roles
  e.matchCached r s roles

/-! ## Answers -/

/-- The decision for an action, with the rules that matched. -/
def decide (e : Evaluator) (r : AccessRequest) (action : String) : EvaluatorM AccessDecision := do
  let s ← e.requireSubject r.subject
  let coord ← requireAction s action
  let merged ← e.merge r s
  let resolution := merged.resolve coord
  return {
    allowed := resolution == .allowed
    subject := s.name
    action
    matched := merged.matched.map (·.1)
    resolution }

def can (e : Evaluator) (r : AccessRequest) (action : String) : EvaluatorM Bool := do
  return (← e.decide r action).allowed

/-- The actions of the subject with a resolution, in the order of their bits. -/
def actionsWith (e : Evaluator) (r : AccessRequest) (wanted : Resolution) :
    EvaluatorM (List String) := do
  let s ← e.requireSubject r.subject
  let merged ← e.merge r s
  return (s.actions.names.zipIdx.filter fun (_, bit) =>
    merged.resolve (.ofIndex bit) == wanted).map (·.1)

def allowedActions (e : Evaluator) (r : AccessRequest) : EvaluatorM (List String) :=
  e.actionsWith r .allowed

def forbiddenActions (e : Evaluator) (r : AccessRequest) : EvaluatorM (List String) :=
  e.actionsWith r .forbidden

end Evaluator

end AccessPolicy
