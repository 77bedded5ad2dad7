import AccessPolicy.Number.Binary64

/-!
# Json — request data and documents

Integers and floats are different values, as they are in request data.  An object of request data
keeps its keys in ascending order without repetition (`Json.object` builds one); a document that is
written out keeps the order in which its fields are listed.
-/

namespace AccessPolicy

inductive Json where
  | null
  | bool (b : Bool)
  | int (n : Int)
  | float (x : Binary64)
  | str (s : String)
  | arr (items : List Json)
  | obj (fields : List (String × Json))
deriving Repr, Inhabited

namespace Json

/-- The number, or `null` when it is NaN or infinite, which data cannot hold. -/
def number (x : Binary64) : Json := if x.isFinite then .float x else .null

/-! ## Objects -/

/-- Put a field where its key belongs, replacing a field of the same key. -/
def insertField (key : String) (value : Json) : List (String × Json) → List (String × Json)
  | [] => [(key, value)]
  | (k, v) :: rest =>
    if key < k then (key, value) :: (k, v) :: rest
    else if key = k then (key, value) :: rest
    else (k, v) :: insertField key value rest

/-- The object with these fields; of two with the same key the later one counts. -/
def object (fields : List (String × Json)) : Json :=
  .obj (fields.foldl (fun sorted (key, value) => insertField key value sorted) [])

/-- The value of a field, if the value is an object that has it. -/
def field? (key : String) : Json → Option Json
  | .obj fields => fields.lookup key
  | _ => none

/-! ## Equality -/

mutual

/-- Structural equality: integers and floats differ, floats compare numerically. -/
def same : Json → Json → Bool
  | .null, .null => true
  | .bool a, .bool b => a == b
  | .int a, .int b => a == b
  | .float a, .float b => a.numericEq b
  | .str a, .str b => a == b
  | .arr a, .arr b => sameItems a b
  | .obj a, .obj b => sameFields a b
  | _, _ => false

def sameItems : List Json → List Json → Bool
  | [], [] => true
  | x :: xs, y :: ys => same x y && sameItems xs ys
  | _, _ => false

def sameFields : List (String × Json) → List (String × Json) → Bool
  | [], [] => true
  | (k, x) :: xs, (l, y) :: ys => k == l && same x y && sameFields xs ys
  | _, _ => false

end

end Json

end AccessPolicy
