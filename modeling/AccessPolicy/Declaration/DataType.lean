/-!
# Data types — the types of members and conditions

A type is a primitive, an array, a declared concept by its name, or an object given by its members.
-/

namespace AccessPolicy

inductive DataType where
  | boolean
  | number
  | string
  | null
  | array (element : DataType)
  | concept (name : String)
  | object (members : List (String × DataType))
deriving Repr, Inhabited

namespace DataType

/-! ## Equality -/

mutual

def beq : DataType → DataType → Bool
  | .boolean, .boolean => true
  | .number, .number => true
  | .string, .string => true
  | .null, .null => true
  | .array a, .array b => beq a b
  | .concept a, .concept b => a == b
  | .object a, .object b => beqMembers a b
  | _, _ => false

def beqMembers : List (String × DataType) → List (String × DataType) → Bool
  | [], [] => true
  | (m, a) :: as, (n, b) :: bs => m == n && beq a b && beqMembers as bs
  | _, _ => false

end

mutual

theorem beq_iff_eq : ∀ a b : DataType, beq a b = true ↔ a = b
  | .boolean, b => by cases b <;> simp [beq]
  | .number, b => by cases b <;> simp [beq]
  | .string, b => by cases b <;> simp [beq]
  | .null, b => by cases b <;> simp [beq]
  | .array a, b => by
    cases b with
    | array b => simp [beq, beq_iff_eq a b]
    | _ => simp [beq]
  | .concept a, b => by cases b <;> simp [beq]
  | .object a, b => by
    cases b with
    | object b => simp [beq, beqMembers_iff_eq a b]
    | _ => simp [beq]

theorem beqMembers_iff_eq : ∀ as bs : List (String × DataType), beqMembers as bs = true ↔ as = bs
  | [], bs => by cases bs <;> simp [beqMembers]
  | (m, a) :: as, [] => by simp [beqMembers]
  | (m, a) :: as, (n, b) :: bs => by
    simp [beqMembers, beq_iff_eq a b, beqMembers_iff_eq as bs, and_assoc]

end

instance : DecidableEq DataType := fun a b => decidable_of_iff _ (beq_iff_eq a b)

/-! ## Text -/

mutual

/-- The type as it is named in messages. -/
def describe : DataType → String
  | .boolean => "boolean"
  | .number => "number"
  | .string => "string"
  | .null => "null"
  | .array element => element.describe ++ "[]"
  | .concept name => name
  | .object members => "\x7b" ++ ", ".intercalate (describeMembers members) ++ "\x7d"

def describeMembers : List (String × DataType) → List String
  | [] => []
  | (name, type) :: rest => (name ++ ": " ++ type.describe) :: describeMembers rest

end

/-! ## Concept names -/

mutual

/-- The concept names that occur in the type, in order. -/
def conceptNames : DataType → List String
  | .array element => element.conceptNames
  | .concept name => [name]
  | .object members => memberConceptNames members
  | _ => []

def memberConceptNames : List (String × DataType) → List String
  | [] => []
  | (_, type) :: rest => type.conceptNames ++ memberConceptNames rest

end

def isPrimitive : DataType → Bool
  | .boolean | .number | .string => true
  | _ => false

end DataType

end AccessPolicy
