import AccessPolicy.Proofs.Graph.TypeChecking
import AccessPolicy.Proofs.Rendering
import AccessPolicy.Semantics.Conformance

/-!
# Conformance — conditions have values of their types

The types that operators are given and the values that they compute with agree: on data that
conforms, a condition has a value that conforms to its type.  `&&` and `||` answer an operand as it
is, so this is so where they stand between truth values.
-/

namespace AccessPolicy

/-! ## Operators -/

section

variable {cs : Concepts} {x y : Json} {type left right : DataType}

theorem conforms_number (x : Binary64) : Conforms cs (.number x) .number := by
  rw [Json.number]
  split
  · exact .float ‹_›
  · exact .null

theorem conforms_arithmetic (op : Binary64 → Binary64 → Binary64) (x y : Json) :
    Conforms cs (Json.arithmetic op x y) .number := by
  rw [Json.arithmetic]
  split
  · exact conforms_number _
  · exact .null

theorem conforms_property {fields : List (String × Json)} {member : String}
    (h : ∀ value, fields.lookup member = some value → Conforms cs value type) :
    Conforms cs ((Json.obj fields).property member) type := by
  rw [Json.property, Json.field?]
  cases hvalue : fields.lookup member with
  | none => exact .null
  | some value => exact h value hvalue

theorem Conforms.property_concept {name member : String} (h : Conforms cs x (.concept name))
    (hmember : cs.member? name member = some type) : Conforms cs (x.property member) type := by
  cases h with
  | null => exact .null
  | concept hfields => exact conforms_property fun value => hfields member type value hmember

theorem Conforms.property_object {members : List (String × DataType)} {member : String}
    (h : Conforms cs x (.object members)) (hmember : members.lookup member = some type) :
    Conforms cs (x.property member) type := by
  cases h with
  | null => exact .null
  | object hfields => exact conforms_property fun value => hfields member type value hmember

theorem Conforms.item (h : Conforms cs x (.array type)) (y : Json) :
    Conforms cs (x.item y) type := by
  unfold Json.item
  split
  · rename_i items n _
    split
    · cases hvalue : items[n.truncate.toNat]? with
      | none => exact .null
      | some value =>
        cases h with
        | array hitems => exact hitems value (List.mem_of_getElem? hvalue)
    · exact .null
  · exact .null

/-- Numbers add up to a number, and a string makes whatever it is joined to a string.  What is
missing makes the result missing. -/
theorem Conforms.plus (hx : Conforms cs x left) (hy : Conforms cs y right)
    (h : Typing.binary? .add left right = some type) : Conforms cs (x.plus y) type := by
  cases left <;> cases right <;> simp only [Typing.binary?, Option.some.injEq, reduceCtorEq] at h
  all_goals subst h
  case number.number =>
    have hplus : x.plus y = Json.arithmetic Binary64.add x y := by cases hx <;> cases hy <;> rfl
    rw [hplus]
    exact conforms_arithmetic Binary64.add x y
  all_goals cases hx <;> cases hy <;> first | exact .string | exact .null

/-- What an operator computes conforms to the type that it is given.  `&&` and `||` are typed as
truth values whatever they stand between. -/
theorem Conforms.apply_binary {op : BinaryOp} (hx : Conforms cs x left) (hy : Conforms cs y right)
    (h : Typing.binary? op left right = some type)
    (hlogic : op = .and ∨ op = .or → left = .boolean ∧ right = .boolean) :
    Conforms cs (op.apply x y) type := by
  cases op with
  | and | or =>
    obtain ⟨rfl, rfl⟩ := hlogic (by simp)
    obtain rfl := Option.some.inj h
    rw [BinaryOp.apply]
    split <;> assumption
  | add => exact hx.plus hy h
  | eq | ne =>
    simp only [Typing.binary?] at h
    split at h
    · exact absurd h (by simp)
    · obtain rfl := Option.some.inj h
      exact .boolean
  | lt | le | gt | ge | isIn =>
    obtain rfl : type = .boolean := by cases left <;> cases right <;> simp_all [Typing.binary?]
    exact .boolean
  | sub | mul | div | rem =>
    obtain rfl : type = .number := by cases left <;> cases right <;> simp_all [Typing.binary?]
    exact conforms_arithmetic _ _ _

/-- A sign gives a number whatever it stands before. -/
theorem conforms_sign (op : UnaryOp) (hop : op ≠ .not) (x : Json) :
    Conforms cs (op.apply x) .number := by
  cases op with
  | not => exact absurd rfl hop
  | neg | plus =>
    rw [UnaryOp.apply]
    cases x.asNumber? with
    | none => exact .null
    | some n => exact conforms_number _

end

/-! ## Conditions -/

/-- Wherever `&&` and `||` stand in the condition, they stand between truth values. -/
def Expression.JoinsTruthValues (c : ConditionContext) (e : Expression) : Prop :=
  ∀ op l r t, .binary op l r t ∈ e.parts → op = .and ∨ op = .or →
    Expression.HasType c l .boolean ∧ Expression.HasType c r .boolean

section

open Expression

variable {decls : List ConceptDecl} {c : ConditionContext} {data : Root → Json}

/-- The data of a root conforms to the type of the root. -/
theorem ConformingData.root (h : ConformingData c data) {r : Root} {t : Option DataType}
    {type : DataType} (htype : HasType c (.root r t) type) : Conforms c.concepts (data r) type := by
  cases htype with
  | user => exact h.user
  | environment hconcept => exact h.environment _ hconcept
  | subject => exact h.subject

/-- A node whose operands have values of their types has a value of its type. -/
theorem Node.conforms_value (hcs : Concepts.build decls = .ok c.concepts)
    (hdata : ConformingData c data) {n : Node} {trees : NodeIndex → Expression}
    (hjoins : (n.tree trees).JoinsTruthValues c) {type : DataType}
    (htype : HasType c (n.tree trees) type) {values : NodeIndex → Json}
    (hops : ∀ o ∈ n.operands, ∀ t, HasType c (trees o) t → Conforms c.concepts (values o) t) :
    Conforms c.concepts (n.value c.concepts data values) type := by
  cases n with
  | null =>
    cases htype
    exact .null
  | boolean b =>
    cases htype
    exact .boolean
  | number x =>
    cases htype
    exact conforms_number x
  | string s =>
    cases htype
    exact .string
  | root r => exact hdata.root htype
  | property receiver member =>
    have hop := hops receiver (by simp [operands])
    cases htype with
    | member htype hmember =>
      exact (hop _ htype).property_concept ((Concepts.member?_eq_some_iff hcs).mpr hmember)
    | field htype hmember => exact (hop _ htype).property_object hmember
  | arrayItem receiver index =>
    cases htype with
    | item htype _ => exact (hops receiver (by simp [operands]) _ htype).item _
  | binary op l r =>
    rw [value_binary]
    cases htype with
    | @binary _ _ _ left right _ _ hl hr hop =>
      refine (hops l (by simp [operands]) _ hl).apply_binary (hops r (by simp [operands]) _ hr) hop
        fun hlogic => ?_
      obtain ⟨hl', hr'⟩ := hjoins op (trees l) (trees r) none (by simp [tree, parts]) hlogic
      exact ⟨hl.unique hcs hl', hr.unique hcs hr'⟩
  | unary op operand =>
    cases htype with
    | not => exact .boolean
    | neg => exact conforms_sign .neg (by decide) _
    | plus => exact conforms_sign .plus (by decide) _
  | is concept operand =>
    cases htype <;> exact .boolean

/-! ## Parts -/

theorem Expression.parts_eq (e : Expression) : e.parts = e :: e.operands.flatMap parts := by
  cases e <;> simp [parts, operands]

theorem Expression.parts_erase (e : Expression) : e.erase.parts = e.parts.map erase := by
  induction e <;> simp_all [parts, erase]

theorem Node.operands_tree (n : Node) (trees : NodeIndex → Expression) :
    (n.tree trees).operands = n.operands.map trees := by
  cases n <;> rfl

theorem Expression.JoinsTruthValues.of_parts {e p : Expression} (h : e.JoinsTruthValues c)
    (hparts : ∀ q ∈ p.parts, q ∈ e.parts) : p.JoinsTruthValues c :=
  fun op l r t hmem => h op l r t (hparts _ hmem)

theorem Expression.JoinsTruthValues.operand {n : Node} {trees : NodeIndex → Expression}
    (h : (n.tree trees).JoinsTruthValues c) {o : NodeIndex} (ho : o ∈ n.operands) :
    (trees o).JoinsTruthValues c := by
  refine h.of_parts fun q hq => ?_
  rw [parts_eq, Node.operands_tree, List.flatMap_map]
  exact List.mem_cons_of_mem _ (List.mem_flatMap.mpr ⟨o, ho, hq⟩)

/-- Annotations do not matter for what `&&` and `||` join. -/
theorem Expression.JoinsTruthValues.erase (hcs : Concepts.build decls = .ok c.concepts)
    {e : Expression} (h : e.JoinsTruthValues c) : e.erase.JoinsTruthValues c := by
  intro op l r t hmem hop
  rw [parts_erase, List.mem_map] at hmem
  obtain ⟨p, hp, he⟩ := hmem
  cases p with
  | binary op' l' r' t' =>
    obtain ⟨rfl, rfl, rfl, -⟩ := Expression.binary.inj he
    obtain ⟨hl, hr⟩ := h _ _ _ _ hp hop
    exact ⟨(hasType_erase_iff hcs).mpr hl, (hasType_erase_iff hcs).mpr hr⟩
  | _ => exact nomatch he

/-- A part of a part is a part. -/
theorem Expression.mem_parts_trans {e p q : Expression} (hq : q ∈ p.parts) (hp : p ∈ e.parts) :
    q ∈ e.parts := by
  induction e using induction_operands with
  | h e ih =>
    rw [parts_eq, List.mem_cons, List.mem_flatMap] at hp
    rcases hp with rfl | ⟨o, ho, hp⟩
    · exact hq
    · rw [parts_eq]
      exact List.mem_cons_of_mem _ (List.mem_flatMap.mpr ⟨o, ho, ih o ho hp⟩)

/-! ## Stored conditions -/

/-- In values over the tables of a view, an index has a value of the type of its tree. -/
theorem GraphView.Spells.conforms (hcs : Concepts.build decls = .ok c.concepts)
    {v : GraphView} {values : SubjectValues} (h : v.WellPlaced)
    (hown : values.program = .ofTable c.concepts v.own)
    (hcommon : values.common.program = .ofTable c.concepts v.common)
    (hdata : ConformingData c values.root) {i : NodeIndex} {t : Expression}
    (hspells : v.Spells i t) (hjoins : t.JoinsTruthValues c) {type : DataType}
    (htype : HasType c t type) : Conforms c.concepts (values.value i) type := by
  induction hspells generalizing type with
  | node trees hn _ ih =>
    rw [h.value_eq hown hcommon hn]
    exact Node.conforms_value hcs hdata hjoins htype fun o ho _ => ih o ho (hjoins.operand ho)

namespace Graph

variable {g : Graph} {scope : Nat}

/-- Read from finished tables, the index has a value of the type that it is stored with. -/
def ReadsInType (g : Graph) (cs : Concepts) (scope : Nat) (data : Root → Json)
    (earlier : List NodeIndex) (i : NodeIndex) : Prop :=
  ∃ n value, g.nodeAt? scope i = some n ∧ g.readIndex? cs scope data earlier i = some value ∧
    Conforms cs value n.type

theorem Hosts.readsInType (hcs : Concepts.build decls = .ok c.concepts) (h : g.Hosts scope c)
    (hdata : ConformingData c data) {i : NodeIndex} {t : Expression}
    (hi : (g.view scope).Spells i t.erase) (hjoins : t.JoinsTruthValues c)
    (earlier : List NodeIndex) : g.ReadsInType c.concepts scope data earlier i := by
  obtain ⟨type, htype, hcheck⟩ := h.typeOf hi
  obtain ⟨n, hn, rfl⟩ := typeOf_eq_ok_iff.mp htype
  obtain ⟨s, hs, -⟩ := h.registered
  obtain ⟨values, hown, hcommon, rfl, hread⟩ :=
    h.wellPlaced.exists_values c.concepts (List.getElem?_eq_some_iff.mp hs).1 data
  refine ⟨n, values.value i, hn, hread earlier i, ?_⟩
  exact hi.conforms hcs (h.wellPlaced.view scope) hown hcommon hdata (hjoins.erase hcs)
    ((hasType_erase_iff hcs).mpr ((check_erase_eq_ok_iff hcs).mp hcheck))

/-- On data that conforms, a stored condition and all its parts have values that conform to the
types that they are stored with, if `&&` and `||` join truth values in it. -/
theorem lower_conforms {cs : Concepts} (hcs : Concepts.build decls = .ok cs) {user : String}
    {environment : Option String} (before after : List Call) {s : SubjectTable}
    (hs : ((new cs user environment).run before).subjects[scope]? = some s) {e : Expression}
    {i : NodeIndex} (hlower : lower scope e ((new cs user environment).run before) = (.ok i, g))
    (hfits : (g.run after).Fits scope)
    (hjoins : e.JoinsTruthValues ⟨cs, user, environment, s.concept⟩)
    (hdata : ConformingData ⟨cs, user, environment, s.concept⟩ data) (earlier : List NodeIndex) :
    (g.run after).ReadsInType cs scope data earlier i ∧
      ∀ p ∈ e.parts, ∃ j, ((g.run after).view scope).Spells j p.erase ∧
        (g.run after).ReadsInType cs scope data earlier j := by
  have hstart := hosts_run cs user environment before hs
  have hosts := (hstart.keeps (keeps_lower _ _) hlower).run after
  have hext := (g.grows_run after).extend
  have hfits₁ := hfits.of_extends hext
  have hi := (lower_spells hstart.wellPlaced hlower hfits₁).mono (hext.view scope)
  refine ⟨hosts.readsInType hcs hdata hi hjoins earlier, fun p hp => ?_⟩
  -- every part was stored on the way
  have hstored : g.Stores scope p.erase := by
    rw [stores_lower_iff hstart.wellPlaced hlower hfits₁, parts_erase]
    exact .inr ⟨List.mem_map_of_mem hp, fun _ => rfl⟩
  obtain ⟨j, hj⟩ := hstored.mono hext
  exact ⟨j, hj, hosts.readsInType hcs hdata hj
    (hjoins.of_parts fun q hq => mem_parts_trans hq hp) earlier⟩

/-- Of a person without a name, whether it is called Ann has an answer, and the name is missing, as
a string may be. -/
theorem lower_conforms_name :
    let cs : Concepts := ⟨⟨["Person"], [⟨0, 1⟩]⟩, [{ name := "Person", members := [("name", .string)] }]⟩
    let name := Expression.subject.get "name"
    let test := (name.equals (.string "Ann" none)).or (name.equals (.string "Anne" none))
    let g := (lower 0 test ((new cs "Person" none).addSubject "Person")).2
    g.ReadsInType cs 0 (fun _ => .obj []) [.subject 0] (.subject 4) ∧
      ∃ j, (g.view 0).Spells j name ∧ g.ReadsInType cs 0 (fun _ => .obj []) [.subject 0] j := by
  intro cs name test g
  let c : ConditionContext := ⟨cs, "Person", none, "Person"⟩
  let start := (new cs "Person" none).run [.addSubject "Person"]
  have hcs : Concepts.build cs.decls = .ok cs := by rfl
  have hs : start.subjects[0]? = some ⟨"Person", []⟩ := by rfl
  have hlower : lower 0 test start = (.ok (.subject 4), g) :=
    Steps.eq_ok_of_toOption (by decide +kernel)
  have hname : HasType c name .string := .member .subject (.declared List.mem_cons_self rfl)
  have hequals (s : String) : HasType c (name.equals (.string s none)) .boolean :=
    .binary hname .string rfl
  have hjoins : test.JoinsTruthValues c := by
    intro op l r t hmem hop
    simp [test, name, parts, Expression.get, Expression.equals, Expression.or,
      Expression.combine, Expression.subject] at hmem
    obtain ⟨-, rfl, rfl, -⟩ | ⟨rfl, -⟩ | ⟨rfl, -⟩ := hmem
    · exact ⟨hequals "Ann", hequals "Anne"⟩
    all_goals exact absurd hop (by decide)
  have hempty (name : String) : Conforms cs (.obj []) (.concept name) :=
    .concept fun _ _ _ _ hvalue => nomatch hvalue
  have hdata : ConformingData c fun _ => .obj [] :=
    ⟨hempty _, fun _ hconcept => (nomatch hconcept), hempty _⟩
  obtain ⟨hread, hparts⟩ := lower_conforms hcs [.addSubject "Person"] [] hs hlower
    ⟨by decide +kernel, by decide +kernel⟩ hjoins hdata [.subject 0]
  exact ⟨hread, hparts name (by
    simp [test, name, parts, Expression.get, Expression.equals, Expression.or, Expression.combine])⟩

end Graph

end

end AccessPolicy
