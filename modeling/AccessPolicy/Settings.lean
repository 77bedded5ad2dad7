import AccessPolicy.Error
import AccessPolicy.Text.Blank

/-!
# Settings — how an evaluator is set up

Settings can be given as texts under two names; a text that is present must be well formed.
-/

namespace AccessPolicy

/-- How many entries the cache keeps, and whether a request may name unknown roles. -/
structure Settings where
  capacity : Nat := 128
  /-- Unknown roles are an error; otherwise they are skipped. -/
  strictRoles : Bool := true
deriving DecidableEq, Repr, Inhabited

namespace Settings

def capacityVariable : String := "ECCHI_CACHE_CAPACITY"

def strictRolesVariable : String := "ECCHI_STRICT_ROLES"

/-! ## Texts -/

/-- The value of decimal digits, at least one. -/
def decimal? (ds : List Char) : Option Nat :=
  if ds.isEmpty || !ds.all Char.isDigit then none
  else some (ds.foldl (fun n c => 10 * n + (c.toNat - '0'.toNat)) 0)

/-- Decimal digits after an optional plus sign, of a value that 64 bits hold. -/
def capacity? (text : String) : Option Nat := do
  let ds := match Text.trim text.toList with
    | '+' :: rest => rest
    | s => s
  let n ← decimal? ds
  if n < Nat.pow 2 64 then some n else none

def flagWords : List (String × Bool) :=
  [("1", true), ("true", true), ("yes", true), ("on", true),
    ("0", false), ("false", false), ("no", false), ("off", false)]

/-- One of the words for a flag, in any case. -/
def flag? (text : String) : Option Bool :=
  flagWords.lookup (String.ofList (Text.asciiLower (Text.trim text.toList)))

/-- The value of a setting: the default if it is absent, an error if it is malformed. -/
def setting {α : Type} (lookup : String → Option String) (name : String)
    (read? : String → Option α) (default : α) : Except PolicyError α :=
  match lookup name with
  | none => .ok default
  | some text =>
    match read? text with
    | some a => .ok a
    | none => .error (.configuration (.invalidSetting text name))

/-! ## Validity -/

def validate (s : Settings) : Except PolicyError Unit :=
  if s.capacity = 0 then .error (.configuration .zeroCapacity) else .ok ()

/-- The defaults with what the texts change. -/
def ofLookup (lookup : String → Option String) : Except PolicyError Settings := do
  let defaults : Settings := {}
  let capacity ← setting lookup capacityVariable capacity? defaults.capacity
  let strictRoles ← setting lookup strictRolesVariable flag? defaults.strictRoles
  let s : Settings := { capacity, strictRoles }
  s.validate
  return s

end Settings

end AccessPolicy
