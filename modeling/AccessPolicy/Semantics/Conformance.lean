import AccessPolicy.Evaluation.Operators
import AccessPolicy.Semantics.Typing

/-!
# Conformance — which data has which type

Data may be `null` wherever a value is expected, and an object may lack any member and have fields
that nobody declared.
-/

namespace AccessPolicy

/-- The value has the type or is `null`.  Numbers of data are finite. -/
inductive Conforms (cs : Concepts) : Json → DataType → Prop where
  | null {type : DataType} : Conforms cs .null type
  | boolean {b : Bool} : Conforms cs (.bool b) .boolean
  | int {n : Int} : Conforms cs (.int n) .number
  | float {x : Binary64} : x.isFinite = true → Conforms cs (.float x) .number
  | string {s : String} : Conforms cs (.str s) .string
  | array {items : List Json} {element : DataType} :
    (∀ item ∈ items, Conforms cs item element) → Conforms cs (.arr items) (.array element)
  | concept {fields : List (String × Json)} {name : String} :
    (∀ member type value, cs.member? name member = some type →
      fields.lookup member = some value → Conforms cs value type) →
    Conforms cs (.obj fields) (.concept name)
  | object {fields : List (String × Json)} {members : List (String × DataType)} :
    (∀ member type value, members.lookup member = some type →
      fields.lookup member = some value → Conforms cs value type) →
    Conforms cs (.obj fields) (.object members)

/-- The data of each root conforms to the concept that is declared for it. -/
structure ConformingData (c : ConditionContext) (data : Root → Json) : Prop where
  user : Conforms c.concepts (data .user) (.concept c.user)
  environment : ∀ concept, c.environment = some concept →
    Conforms c.concepts (data .environment) (.concept concept)
  subject : Conforms c.concepts (data .subject) (.concept c.subject)

end AccessPolicy
