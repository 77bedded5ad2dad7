import AccessPolicy.Json.Basic

/-!
# Fields — how documents are laid out

A record is an object with named fields, of which unknown ones are ignored, or an array that lists
the fields in order.  A choice is a record with a tag that names the alternative, a bare word, or an
object whose only field names the alternative.

The fields of a tagged record are read more freely than a document itself: there a tag may also be
the number of its alternative, and a bare word may come with an empty object.  The readers take this
as `within`.
-/

namespace AccessPolicy.Json

/-! ## Depth -/

mutual

/-- How deep arrays and objects are nested. -/
def depth : Json → Nat
  | .arr items => 1 + depthItems items
  | .obj fields => 1 + depthFields fields
  | _ => 0

def depthItems : List Json → Nat
  | [] => 0
  | x :: xs => max x.depth (depthItems xs)

def depthFields : List (String × Json) → Nat
  | [] => 0
  | (_, x) :: xs => max x.depth (depthFields xs)

end

/-! ## Plain values -/

def string? : Json → Option String
  | .str s => some s
  | _ => none

def bool? : Json → Option Bool
  | .bool b => some b
  | _ => none

/-- An integer literal from `low` up to but not including `high`. -/
def intIn? (low high : Int) : Json → Option Int
  | .int n => if low ≤ n ∧ n < high then some n else none
  | _ => none

/-- An unsigned integer of so many bits. -/
def natOfBits? (bits : Nat) (j : Json) : Option Nat := (j.intIn? 0 (Int.pow 2 bits)).map Int.toNat

/-- A number, written as a float or as an integer. -/
def float? : Json → Option Binary64
  | .int n => some (.ofInt n)
  | .float x => some x
  | _ => none

def list? {α : Type} (item? : Json → Option α) : Json → Option (List α)
  | .arr items => items.mapM item?
  | _ => none

/-! ## Records -/

/-- The field of each name, `none` where it is left out. -/
def record? (names : List String) : Json → Option (List (Option Json))
  | .obj fields => some (names.map fun name => fields.lookup name)
  | .arr items =>
    if items.length ≤ names.length then some ((List.range names.length).map (items[·]?)) else none
  | _ => none

def required {α : Type} (read? : Json → Option α) (field : Option Json) : Option α :=
  field.bind read?

/-- A field that may be left out or `null`. -/
def optional {α : Type} (read? : Json → Option α) : Option Json → Option (Option α)
  | none | some .null => some none
  | some j => (read? j).map some

/-- A field that may be left out, but not `null`. -/
def withDefault {α : Type} (default : α) (read? : Json → Option α) : Option Json → Option α
  | none => some default
  | some j => read? j

/-! ## Choices -/

/-- The alternative that a tag names. -/
def tagName? (within : Bool) (alternatives : List String) : Json → Option String
  | .str s => if s ∈ alternatives then some s else none
  | .int n => if within ∧ 0 ≤ n then alternatives[n.toNat]? else none
  | _ => none

/-- Take the tag off a record: the alternative, and the record of its fields. -/
def tagged? (tag : String) (within : Bool) (alternatives : List String) :
    Json → Option (String × Json)
  | .obj fields => do
    let name ← tagName? within alternatives (← fields.lookup tag)
    return (name, .obj (fields.filter (·.1 ≠ tag)))
  | .arr (first :: rest) => do
    let name ← tagName? within alternatives first
    return (name, .arr rest)
  | _ => none

/-- The fields of an alternative that has none: an object is ignored, an array must be empty. -/
def noFields? : Json → Option Unit
  | .obj _ | .arr [] => some ()
  | _ => none

/-- One of several words, also as the only field of an object whose value says nothing. -/
def word? {α : Type} (within : Bool) (words : List (String × α)) : Json → Option α
  | .str s => words.lookup s
  | .obj [(s, .null)] => words.lookup s
  | .obj [(s, .obj [])] => if within then words.lookup s else none
  | _ => none

/-! ## Writing -/

/-- A record that starts with its tag. -/
def ofTagged (tag name : String) (fields : List (String × Json)) : Json :=
  .obj ((tag, .str name) :: fields)

def ofOption {α : Type} (write : α → Json) : Option α → Json
  | some a => write a
  | none => .null

end AccessPolicy.Json
