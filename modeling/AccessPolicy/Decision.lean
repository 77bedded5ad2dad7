import AccessPolicy.Json.Basic
import AccessPolicy.Rules

/-!
# Decisions — requests and how they are answered

The rules that matched a request are merged into one mask per mode.  A forbidden action stays
forbidden whatever allows it.
-/

namespace AccessPolicy

/-- Who asks, under which roles, about which instance of a subject. -/
structure AccessRequest where
  user : Json
  environment : Json := .null
  roles : List String := []
  subject : String
  resource : Json
deriving Repr, Inhabited

/-- A rule whose condition held, by its place among the role's rules for the subject. -/
structure MatchedRule where
  role : String
  ruleIndex : Nat
  mode : AccessMode
deriving DecidableEq, Repr

inductive Resolution where
  | noMatchingRule
  | forbidden
  | notGranted
  | allowed
deriving DecidableEq, Repr, Inhabited

namespace Resolution

def name : Resolution → String
  | .noMatchingRule => "no_matching_rule"
  | .forbidden => "forbidden"
  | .notGranted => "not_granted"
  | .allowed => "allowed"

def all : List Resolution := [.noMatchingRule, .forbidden, .notGranted, .allowed]

end Resolution

structure AccessDecision where
  allowed : Bool
  subject : String
  action : String
  matched : List MatchedRule
  resolution : Resolution
deriving DecidableEq, Repr

/-- Every rule that matched a request, with what it reaches. -/
structure MergedRules where
  matched : List (MatchedRule × Bitmask)
deriving Repr

namespace MergedRules

/-- What the matched rules of a mode reach together. -/
def mask (m : MergedRules) (mode : AccessMode) : Bitmask :=
  .unionAll ((m.matched.filter (·.1.mode = mode)).map (·.2))

def resolve (m : MergedRules) (c : BitCoord) : Resolution :=
  if m.matched.isEmpty then .noMatchingRule
  else if (m.mask .forbid).isSetAt c then .forbidden
  else if (m.mask .allow).isSetAt c then .allowed
  else .notGranted

end MergedRules

end AccessPolicy
