import AccessPolicy.Semantics.Typing

/-!
# Types as a relation — which condition has which type

The plain typing of trees: a root has its concept, a member has the type of its nearest declaration,
and an operation has the type that its operands give it.  Annotations take no part in it.
-/

namespace AccessPolicy

/-- The concept has the member with the type: it declares it, or the nearest ancestor that does. -/
inductive HasMember (decls : List ConceptDecl) (member : String) : String → DataType → Prop where
  | declared {d : ConceptDecl} {type : DataType} :
    d ∈ decls → d.members.lookup member = some type → HasMember decls member d.name type
  | inherited {d : ConceptDecl} {parent : String} {type : DataType} :
    d ∈ decls → d.members.lookup member = none → d.parent = some parent →
    HasMember decls member parent type → HasMember decls member d.name type

namespace Expression

/-- The condition has the type. -/
inductive HasType (c : ConditionContext) : Expression → DataType → Prop where
  | null {t : Option DataType} : HasType c (.null t) .null
  | boolean {b : Bool} {t : Option DataType} : HasType c (.boolean b t) .boolean
  | number {x : Binary64} {t : Option DataType} : HasType c (.number x t) .number
  | string {s : String} {t : Option DataType} : HasType c (.string s t) .string
  | user {t : Option DataType} : HasType c (.root .user t) (.concept c.user)
  | environment {concept : String} {t : Option DataType} :
    c.environment = some concept → HasType c (.root .environment t) (.concept concept)
  | subject {t : Option DataType} : HasType c (.root .subject t) (.concept c.subject)
  | member {e : Expression} {concept m : String} {type : DataType} {t : Option DataType} :
    HasType c e (.concept concept) → HasMember c.concepts.decls m concept type →
    HasType c (.property e m t) type
  | field {e : Expression} {members : List (String × DataType)} {m : String} {type : DataType}
    {t : Option DataType} :
    HasType c e (.object members) → members.lookup m = some type → HasType c (.property e m t) type
  | item {e i : Expression} {element : DataType} {t : Option DataType} :
    HasType c e (.array element) → HasType c i .number → HasType c (.arrayIndex e i t) element
  | binary {op : BinaryOp} {l r : Expression} {left right type : DataType} {t : Option DataType} :
    HasType c l left → HasType c r right → Typing.binary? op left right = some type →
    HasType c (.binary op l r t) type
  | not {e : Expression} {type : DataType} {t : Option DataType} :
    HasType c e type → HasType c (.unary .not e t) .boolean
  | neg {e : Expression} {t : Option DataType} :
    HasType c e .number → HasType c (.unary .neg e t) .number
  | plus {e : Expression} {t : Option DataType} :
    HasType c e .number → HasType c (.unary .plus e t) .number
  | isConcept {e : Expression} {name concept : String} {t : Option DataType} :
    HasType c e (.concept name) → (∃ d ∈ c.concepts.decls, d.name = concept) →
    HasType c (.is e concept t) .boolean
  | isObject {e : Expression} {members : List (String × DataType)} {concept : String}
    {t : Option DataType} :
    HasType c e (.object members) → (∃ d ∈ c.concepts.decls, d.name = concept) →
    HasType c (.is e concept t) .boolean

/-- The nodes of a condition in the order in which they are checked: from left to right, operands
before the node. -/
def postorder : Expression → List Expression
  | .null t => [.null t]
  | .boolean b t => [.boolean b t]
  | .number x t => [.number x t]
  | .string s t => [.string s t]
  | .root r t => [.root r t]
  | .property e m t => e.postorder ++ [.property e m t]
  | .arrayIndex e i t => e.postorder ++ i.postorder ++ [.arrayIndex e i t]
  | .binary op l r t => l.postorder ++ r.postorder ++ [.binary op l r t]
  | .unary op e t => e.postorder ++ [.unary op e t]
  | .is e concept t => e.postorder ++ [.is e concept t]

/-- The condition has a type, and every annotation in it is the type of its node. -/
structure WellTyped (c : ConditionContext) (e : Expression) : Prop where
  typed : ∃ type, HasType c e type
  annotations : ∀ p ∈ e.postorder, ∀ a, p.declaredType? = some a → HasType c p a

/-- The annotation is the one that the node has or, if it has none, its type. -/
def Suits (c : ConditionContext) (e : Expression) (t : Option DataType) : Prop :=
  t = e.declaredType? ∨ e.declaredType? = none ∧ ∃ type, t = some type ∧ HasType c e type

/-- The second condition is the first one, where any nodes without an annotation were given their
types. -/
inductive Annotates (c : ConditionContext) : Expression → Expression → Prop where
  | null {t t' : Option DataType} : Suits c (.null t) t' → Annotates c (.null t) (.null t')
  | boolean {b : Bool} {t t' : Option DataType} :
    Suits c (.boolean b t) t' → Annotates c (.boolean b t) (.boolean b t')
  | number {x : Binary64} {t t' : Option DataType} :
    Suits c (.number x t) t' → Annotates c (.number x t) (.number x t')
  | string {s : String} {t t' : Option DataType} :
    Suits c (.string s t) t' → Annotates c (.string s t) (.string s t')
  | root {r : Root} {t t' : Option DataType} :
    Suits c (.root r t) t' → Annotates c (.root r t) (.root r t')
  | property {e e' : Expression} {m : String} {t t' : Option DataType} :
    Annotates c e e' → Suits c (.property e m t) t' →
    Annotates c (.property e m t) (.property e' m t')
  | arrayIndex {e e' i i' : Expression} {t t' : Option DataType} :
    Annotates c e e' → Annotates c i i' → Suits c (.arrayIndex e i t) t' →
    Annotates c (.arrayIndex e i t) (.arrayIndex e' i' t')
  | binary {op : BinaryOp} {l l' r r' : Expression} {t t' : Option DataType} :
    Annotates c l l' → Annotates c r r' → Suits c (.binary op l r t) t' →
    Annotates c (.binary op l r t) (.binary op l' r' t')
  | unary {op : UnaryOp} {e e' : Expression} {t t' : Option DataType} :
    Annotates c e e' → Suits c (.unary op e t) t' →
    Annotates c (.unary op e t) (.unary op e' t')
  | is {e e' : Expression} {concept : String} {t t' : Option DataType} :
    Annotates c e e' → Suits c (.is e concept t) t' →
    Annotates c (.is e concept t) (.is e' concept t')

end Expression

end AccessPolicy
