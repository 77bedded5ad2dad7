import AccessPolicy.Proofs.Concepts
import AccessPolicy.Proofs.Steps

/-!
# Typing — the check decides the types

The check succeeds exactly on the conditions that have a type and are annotated with nothing else,
and then answers this type.  Otherwise it reports the fault of the first node in post-order that
has one.
-/

namespace AccessPolicy

/-! ## Nodes and their operands -/

namespace Expression

variable {c : ConditionContext} {e : Expression} {type : DataType}

/-- The operands of a condition in the order of evaluation. -/
def operands : Expression → List Expression
  | .null _ | .boolean .. | .number .. | .string .. | .root .. => []
  | .property e _ _ | .unary _ e _ | .is e _ _ => [e]
  | .arrayIndex e i _ => [e, i]
  | .binary _ l r _ => [l, r]

/-- What holds of a condition whenever it holds of its operands, holds of every condition. -/
theorem induction_operands {P : Expression → Prop}
    (h : ∀ e : Expression, (∀ o ∈ e.operands, P o) → P e) (e : Expression) : P e := by
  induction e with
  | null | boolean | number | string | root => exact h _ (by simp [operands])
  | property _ _ _ ih | unary _ _ _ ih | is _ _ _ ih => exact h _ (by simpa [operands] using ih)
  | arrayIndex _ _ _ ih ih' | binary _ _ _ _ ih ih' =>
    exact h _ (by simpa [operands] using ⟨ih, ih'⟩)

/-- The type that a node has by the types of its operands. -/
def rule (c : ConditionContext) : Expression → List DataType → Except TypeFault DataType
  | .null _, _ => .ok .null
  | .boolean .., _ => .ok .boolean
  | .number .., _ => .ok .number
  | .string .., _ => .ok .string
  | .root r _, _ => rootType c r
  | .property _ m _, [type] => Typing.property c.concepts type m
  | .arrayIndex .., [receiver, index] => do
    let element ← Typing.element receiver
    Typing.requireIndex index
    return element
  | .binary op _ _ _, [left, right] => Typing.binary op left right
  | .unary op _ _, [type] => Typing.unary op type
  | .is _ concept _, [type] => do
    Typing.requireConcept c.concepts concept
    Typing.requireObject type
    return .boolean
  | _, _ => .error .danglingOperand

theorem postorder_eq (e : Expression) : e.postorder = e.operands.flatMap postorder ++ [e] := by
  cases e <;> simp [postorder, operands]

theorem blame_bind {α β : Type} (e : Expression) (x : Except TypeFault α)
    (f : α → Except TypeFault β) : blame e (x >>= f) = blame e x >>= fun a => blame e (f a) := by
  cases x <;> rfl

theorem blame_eq_ok_iff {α : Type} {x : Except TypeFault α} {a : α} :
    blame e x = .ok a ↔ x = .ok a := by
  cases x <;> simp [blame]

theorem agree_eq_ok_iff {derived : DataType} : agree e derived = .ok type ↔
    derived = type ∧ ∀ a, e.declaredType? = some a → a = type := by
  unfold agree
  cases e.declaredType? with
  | none => simp
  | some a =>
    by_cases ha : a = derived
    · simp only [ha, if_true, Except.ok.injEq, Option.some.injEq]
      grind
    · simp only [ha, if_false, reduceCtorEq, Option.some.injEq, false_iff]
      grind

/-- The check of a node: its operands from left to right, then its rule, then its annotation. -/
theorem check_eq (c : ConditionContext) (e : Expression) : check c e =
    e.operands.mapM (check c) >>= fun types => blame e (e.rule c types) >>= agree e := by
  cases e with
  | null | boolean | number | string => rfl
  | root => rfl
  | property | unary =>
    simp only [operands, List.mapM_cons, List.mapM_nil, bind_assoc, pure_bind, check, rule]
  | binary =>
    simp only [operands, List.mapM_cons, List.mapM_nil, bind_assoc, pure_bind, check, rule]
  | arrayIndex =>
    simp only [operands, List.mapM_cons, List.mapM_nil, bind_assoc, pure_bind, check, rule,
      blame_bind]
    rfl
  | is =>
    simp only [operands, List.mapM_cons, List.mapM_nil, bind_assoc, pure_bind, check, rule,
      blame_bind]
    rfl

theorem check_eq_ok_iff_operands : check c e = .ok type ↔ ∃ types,
    List.Forall₂ (fun o t => check c o = .ok t) e.operands types ∧ e.rule c types = .ok type ∧
      ∀ a, e.declaredType? = some a → a = type := by
  rw [check_eq, Steps.check_bind_eq_ok]
  refine exists_congr fun types => ?_
  rw [Steps.mapM_eq_ok_iff, Steps.check_bind_eq_ok]
  refine and_congr_right fun _ => ?_
  constructor
  · rintro ⟨derived, hrule, hagree⟩
    obtain ⟨rfl, ha⟩ := agree_eq_ok_iff.mp hagree
    exact ⟨blame_eq_ok_iff.mp hrule, ha⟩
  · rintro ⟨hrule, ha⟩
    exact ⟨type, blame_eq_ok_iff.mpr hrule, agree_eq_ok_iff.mpr ⟨rfl, ha⟩⟩

/-- What checks has operands that check. -/
theorem exists_check_of_mem_operands {o : Expression} (h : check c e = .ok type)
    (ho : o ∈ e.operands) : ∃ t, check c o = .ok t := by
  obtain ⟨types, htypes, -⟩ := check_eq_ok_iff_operands.mp h
  obtain ⟨t, -, ht⟩ := exists_of_mem_left htypes ho
  exact ⟨t, ht⟩

theorem exists_check_of_mem_postorder (h : check c e = .ok type) {p : Expression}
    (hp : p ∈ e.postorder) : ∃ t, check c p = .ok t := by
  induction e using induction_operands generalizing type with
  | h e ih =>
    rw [postorder_eq, List.mem_append, List.mem_singleton, List.mem_flatMap] at hp
    rcases hp with ⟨o, ho, hp⟩ | rfl
    · obtain ⟨t, ht⟩ := exists_check_of_mem_operands h ho
      exact ih o ho ht hp
    · exact ⟨type, h⟩

/-! ## Annotations do not change types -/

@[simp] theorem operands_erase (e : Expression) : e.erase.operands = e.operands.map erase := by
  cases e <;> rfl

@[simp] theorem rule_erase (c : ConditionContext) (e : Expression) :
    e.erase.rule c = e.rule c := by
  funext types
  cases e <;> rcases types with _ | ⟨_, _ | ⟨_, _ | _⟩⟩ <;> rfl

@[simp] theorem declaredType?_erase (e : Expression) : e.erase.declaredType? = none := by
  cases e <;> rfl

@[simp] theorem text_erase (e : Expression) : e.erase.text = e.text := by
  induction e <;> simp_all [erase, text]

theorem Annotates.operands {e' : Expression} (h : Annotates c e e') :
    List.Forall₂ (Annotates c) e.operands e'.operands := by
  cases h <;> repeat first | assumption | constructor

theorem Annotates.suits {e' : Expression} (h : Annotates c e e') : Suits c e e'.declaredType? := by
  cases h <;> assumption

@[simp] theorem erase_erase (e : Expression) : e.erase.erase = e.erase := by
  induction e <;> simp_all [erase]

/-- Leaving out annotations lets nothing fail. -/
theorem check_erase_of_check (h : check c e = .ok type) : check c e.erase = .ok type := by
  induction e using induction_operands generalizing type with
  | h e ih =>
    obtain ⟨types, htypes, hrule, -⟩ := check_eq_ok_iff_operands.mp h
    refine check_eq_ok_iff_operands.mpr ⟨types, ?_, by rwa [rule_erase], by simp⟩
    rw [operands_erase, List.forall₂_map_left_iff]
    exact forall₂_imp_left htypes fun o ho t ht => ih o ho ht

/-- If the operands check, only the annotation of the node itself is left to compare. -/
theorem check_eq_of_operands (h : ∀ o ∈ e.operands, ∃ t, check c o = .ok t) :
    check c e = check c e.erase >>= agree e := by
  obtain ⟨types, htypes⟩ := Steps.exists_mapM_eq_ok h
  have herase : e.erase.operands.mapM (check c) = .ok types := by
    rw [operands_erase, Steps.mapM_eq_ok_iff, List.forall₂_map_left_iff]
    exact (Steps.mapM_eq_ok_iff.mp htypes).imp fun _ _ => check_erase_of_check
  rw [check_eq c e, check_eq c e.erase, htypes, herase]
  show blame e (e.rule c types) >>= agree e =
    (blame e.erase (e.erase.rule c types) >>= agree e.erase) >>= agree e
  rw [rule_erase]
  cases e.rule c types with
  | error fault =>
    simp only [blame, text_erase]
    rfl
  | ok type =>
    show agree e type = agree e.erase type >>= agree e
    rw [agree.eq_def e.erase, declaredType?_erase]
    rfl

/-! ## Types -/

theorem property_eq_ok_iff {decls : List ConceptDecl} {cs : Concepts}
    (hcs : Concepts.build decls = .ok cs) {receiver : DataType} {member : String} :
    Typing.property cs receiver member = .ok type ↔
      (∃ concept, receiver = .concept concept ∧ HasMember cs.decls member concept type) ∨
      ∃ members, receiver = .object members ∧ members.lookup member = some type := by
  cases receiver with
  | concept name =>
    have hmember : cs.member? name member = some type ↔ HasMember cs.decls member name type :=
      Concepts.member?_eq_some_iff hcs
    rw [Typing.property]
    cases hfind : cs.member? name member <;> simp_all
  | object members =>
    rw [Typing.property]
    cases hfind : members.lookup member <;> simp [hfind]
  | _ => simp [Typing.property]

theorem element_eq_ok_iff {receiver : DataType} :
    Typing.element receiver = .ok type ↔ receiver = .array type := by
  cases receiver <;> simp [Typing.element]

theorem requireIndex_eq_ok_iff {index : DataType} :
    Typing.requireIndex index = .ok () ↔ index = .number := by
  simp [Typing.requireIndex]

/-- A sign stands before numbers only. -/
theorem number_of_sign {op : UnaryOp} {operand : DataType}
    (h : (if operand = .number then .ok .number
      else .error (.operandNotNumber op operand) : Except TypeFault DataType) = .ok type) :
    operand = .number ∧ .number = type := by
  split at h
  · exact ⟨‹_›, Except.ok.inj h⟩
  · exact nomatch h

theorem requireConcept_eq_ok_iff {cs : Concepts} {name : String} :
    Typing.requireConcept cs name = .ok () ↔ ∃ d ∈ cs.decls, d.name = name := by
  rw [Typing.requireConcept, ← Concepts.contains_iff]
  cases cs.contains name <;> simp

theorem requireObject_eq_ok_iff {operand : DataType} : Typing.requireObject operand = .ok () ↔
    (∃ name, operand = .concept name) ∨ ∃ members, operand = .object members := by
  cases operand <;> simp [Typing.requireObject]

theorem binary_eq_ok_iff {op : BinaryOp} {left right : DataType} :
    Typing.binary op left right = .ok type ↔ Typing.binary? op left right = some type := by
  rw [Typing.binary]
  cases Typing.binary? op left right <;> simp

theorem rootType_eq_ok_iff {r : Root} {t : Option DataType} :
    rootType c r = .ok type ↔ HasType c (.root r t) type := by
  cases r with
  | user | subject =>
    constructor
    · intro h
      obtain rfl := Except.ok.inj h
      constructor
    · rintro ⟨⟩
      rfl
  | environment =>
    rw [rootType]
    constructor
    · intro h
      cases hconcept : c.environment with
      | none => simp [hconcept] at h
      | some concept =>
        obtain rfl : DataType.concept concept = type := by simpa [hconcept] using h
        exact .environment hconcept
    · rintro (_ | _ | _ | _ | _ | hconcept)
      simp [hconcept]

/-- The rule of a condition gives it the type that it has, on types of its operands. -/
theorem HasType.exists_types {decls : List ConceptDecl}
    (hcs : Concepts.build decls = .ok c.concepts) (h : HasType c e type) :
    ∃ types, List.Forall₂ (HasType c) e.operands types ∧ e.rule c types = .ok type := by
  cases h with
  | null | boolean | number | string => exact ⟨[], .nil, rfl⟩
  | user => exact ⟨[], .nil, (rootType_eq_ok_iff (t := none)).mpr .user⟩
  | subject => exact ⟨[], .nil, (rootType_eq_ok_iff (t := none)).mpr .subject⟩
  | environment hconcept =>
    exact ⟨[], .nil, (rootType_eq_ok_iff (t := none)).mpr (.environment hconcept)⟩
  | member he hmember =>
    exact ⟨_, .cons he .nil, (property_eq_ok_iff hcs).mpr (.inl ⟨_, rfl, hmember⟩)⟩
  | field he hmember =>
    exact ⟨_, .cons he .nil, (property_eq_ok_iff hcs).mpr (.inr ⟨_, rfl, hmember⟩)⟩
  | item he hi => exact ⟨_, .cons he (.cons hi .nil), rfl⟩
  | binary hl hr hop => exact ⟨_, .cons hl (.cons hr .nil), binary_eq_ok_iff.mpr hop⟩
  | not he | neg he | plus he => exact ⟨_, .cons he .nil, rfl⟩
  | isConcept he hconcept | isObject he hconcept =>
    refine ⟨_, .cons he .nil, ?_⟩
    rw [rule, requireConcept_eq_ok_iff.mpr hconcept]
    rfl

/-- A condition has the type that its rule gives it, on types of its operands. -/
theorem hasType_of_rule {decls : List ConceptDecl} (hcs : Concepts.build decls = .ok c.concepts)
    {types : List DataType} (htypes : List.Forall₂ (HasType c) e.operands types)
    (hrule : e.rule c types = .ok type) : HasType c e type := by
  cases e with
  | null | boolean | number | string =>
    obtain rfl := Except.ok.inj hrule
    constructor
  | root r => exact rootType_eq_ok_iff.mp hrule
  | property e m t =>
    obtain ⟨receiver, he, rfl⟩ := forall₂_one_left_iff.mp htypes
    rcases (property_eq_ok_iff hcs).mp hrule with ⟨concept, rfl, hmember⟩ | ⟨members, rfl, hmember⟩
    · exact .member he hmember
    · exact .field he hmember
  | arrayIndex e i t =>
    obtain ⟨receiver, index, he, hi, rfl⟩ := forall₂_two_left_iff.mp htypes
    obtain ⟨element, helement, hrule⟩ := Steps.check_bind_eq_ok.mp hrule
    obtain ⟨_, hindex, hrule⟩ := Steps.check_bind_eq_ok.mp hrule
    obtain rfl := Except.ok.inj hrule
    rw [element_eq_ok_iff.mp helement] at he
    rw [requireIndex_eq_ok_iff.mp hindex] at hi
    exact .item he hi
  | binary op l r t =>
    obtain ⟨left, right, hl, hr, rfl⟩ := forall₂_two_left_iff.mp htypes
    exact .binary hl hr (binary_eq_ok_iff.mp hrule)
  | unary op e t =>
    obtain ⟨operand, he, rfl⟩ := forall₂_one_left_iff.mp htypes
    cases op with
    | not =>
      obtain rfl := Except.ok.inj hrule
      exact .not he
    | neg | plus =>
      obtain ⟨rfl, rfl⟩ := number_of_sign hrule
      constructor
      exact he
  | is e concept t =>
    obtain ⟨operand, he, rfl⟩ := forall₂_one_left_iff.mp htypes
    obtain ⟨_, hconcept, hrule⟩ := Steps.check_bind_eq_ok.mp hrule
    obtain ⟨_, hobject, hrule⟩ := Steps.check_bind_eq_ok.mp hrule
    obtain rfl := Except.ok.inj hrule
    have hdeclared := requireConcept_eq_ok_iff.mp hconcept
    rcases requireObject_eq_ok_iff.mp hobject with ⟨name, rfl⟩ | ⟨members, rfl⟩
    · exact .isConcept he hdeclared
    · exact .isObject he hdeclared

theorem hasType_iff {decls : List ConceptDecl} (hcs : Concepts.build decls = .ok c.concepts) :
    HasType c e type ↔
      ∃ types, List.Forall₂ (HasType c) e.operands types ∧ e.rule c types = .ok type :=
  ⟨HasType.exists_types hcs, fun ⟨_, htypes, hrule⟩ => hasType_of_rule hcs htypes hrule⟩

/-- Without its annotations a condition checks exactly if it has a type. -/
theorem check_erase_eq_ok_iff {decls : List ConceptDecl}
    (hcs : Concepts.build decls = .ok c.concepts) :
    check c e.erase = .ok type ↔ HasType c e type := by
  induction e using induction_operands generalizing type with
  | h e ih =>
    rw [check_eq_ok_iff_operands, hasType_iff hcs]
    refine exists_congr fun types => ?_
    rw [operands_erase, List.forall₂_map_left_iff, forall₂_congr_left fun o ho t => ih o ho,
      rule_erase, declaredType?_erase]
    simp

theorem hasType_erase_iff {decls : List ConceptDecl} (hcs : Concepts.build decls = .ok c.concepts) :
    HasType c e.erase type ↔ HasType c e type := by
  rw [← check_erase_eq_ok_iff hcs, ← check_erase_eq_ok_iff hcs, erase_erase]

/-- A condition has one type at most. -/
theorem HasType.unique {decls : List ConceptDecl} (hcs : Concepts.build decls = .ok c.concepts)
    {type' : DataType} (h : HasType c e type) (h' : HasType c e type') : type = type' := by
  rw [← check_erase_eq_ok_iff hcs] at h h'
  exact Except.ok.inj (h.symm.trans h')

/-- The check answers the type of a condition if the annotations agree with the types. -/
theorem check_eq_ok_iff {decls : List ConceptDecl} (hcs : Concepts.build decls = .ok c.concepts) :
    check c e = .ok type ↔ HasType c e type ∧
      ∀ p ∈ e.postorder, ∀ a, p.declaredType? = some a → HasType c p a := by
  induction e using induction_operands generalizing type with
  | h e ih =>
    rw [check_eq_ok_iff_operands, postorder_eq]
    simp only [List.mem_append, List.mem_flatMap, List.mem_singleton]
    constructor
    · rintro ⟨types, htypes, hrule, hown⟩
      have htyped : HasType c e type :=
        (hasType_iff hcs).mpr
          ⟨types, forall₂_imp_left htypes fun o ho t ht => ((ih o ho).mp ht).1, hrule⟩
      refine ⟨htyped, ?_⟩
      rintro p (⟨o, ho, hp⟩ | rfl) a ha
      · obtain ⟨t, -, ht⟩ := exists_of_mem_left htypes ho
        exact ((ih o ho).mp ht).2 p hp a ha
      · rw [hown a ha]
        exact htyped
    · rintro ⟨htyped, hannotations⟩
      obtain ⟨types, htypes, hrule⟩ := (hasType_iff hcs).mp htyped
      refine ⟨types, ?_, hrule, fun a ha => ?_⟩
      · exact forall₂_imp_left htypes fun o ho t ht =>
          (ih o ho).mpr ⟨ht, fun p hp => hannotations p (.inl ⟨o, ho, hp⟩)⟩
      · exact (hannotations e (.inr rfl) a ha).unique hcs htyped

theorem wellTyped_iff {decls : List ConceptDecl} (hcs : Concepts.build decls = .ok c.concepts) :
    WellTyped c e ↔ ∃ type, check c e = .ok type := by
  simp only [check_eq_ok_iff hcs, exists_and_right]
  exact ⟨fun h => ⟨h.typed, h.annotations⟩, fun h => ⟨h.1, h.2⟩⟩

/-! ## The first fault -/

/-- A node whose operands check is blamed for its own fault. -/
theorem exists_fault_of_check_eq_error {err : PolicyError} (h : check c e = .error err)
    (hops : ∀ o ∈ e.operands, ∃ t, check c o = .ok t) :
    ∃ fault, err = .typeInference e.text fault := by
  rw [check_eq, Steps.check_bind_eq_error] at h
  rcases h with hop | ⟨types, -, h⟩
  · obtain ⟨before, o, after, hsplit, -, ho⟩ := Steps.exists_of_mapM_eq_error hop
    obtain ⟨t, ht⟩ := hops o (by rw [hsplit]; simp)
    exact nomatch ht.symm.trans ho
  · rcases Steps.check_bind_eq_error.mp h with hrule | ⟨derived, -, hagree⟩
    · cases hfault : e.rule c types with
      | ok t => simp [hfault, blame] at hrule
      | error fault => exact ⟨fault, by simpa [hfault, blame] using hrule.symm⟩
    · unfold agree at hagree
      split at hagree
      · exact nomatch hagree
      · split at hagree
        · exact nomatch hagree
        · exact ⟨_, (Except.error.inj hagree).symm⟩

/-- The error of a condition is that of its first node in post-order that is at fault. -/
theorem exists_first_fault {err : PolicyError} (h : check c e = .error err) :
    ∃ before p after fault, e.postorder = before ++ p :: after ∧
      (∀ q ∈ before, ∃ t, check c q = .ok t) ∧ check c p = .error err ∧
      err = .typeInference p.text fault := by
  induction e using induction_operands with
  | h e ih =>
    have hcheck := h
    rw [check_eq, Steps.check_bind_eq_error] at h
    rw [postorder_eq]
    rcases h with hop | ⟨types, htypes, -⟩
    · -- an operand is at fault, and those before it are not
      obtain ⟨before, o, after, hsplit, hbefore, ho⟩ := Steps.exists_of_mapM_eq_error hop
      obtain ⟨before', p, after', fault, hsplit', hbefore', hp, herr⟩ :=
        ih o (by rw [hsplit]; simp) ho
      refine ⟨before.flatMap postorder ++ before', p,
        after' ++ after.flatMap postorder ++ [e], fault, ?_, ?_, hp, herr⟩
      · rw [hsplit, List.flatMap_append, List.flatMap_cons, hsplit']
        simp
      · intro q hq
        rcases List.mem_append.mp hq with hq | hq
        · obtain ⟨o', ho', hq⟩ := List.mem_flatMap.mp hq
          obtain ⟨t, ht⟩ := hbefore o' ho'
          exact exists_check_of_mem_postorder ht hq
        · exact hbefore' q hq
    · have hops : ∀ o ∈ e.operands, ∃ t, check c o = .ok t := by
        intro o ho
        obtain ⟨t, -, ht⟩ := exists_of_mem_left (Steps.mapM_eq_ok_iff.mp htypes) ho
        exact ⟨t, ht⟩
      obtain ⟨fault, herr⟩ := exists_fault_of_check_eq_error hcheck hops
      refine ⟨e.operands.flatMap postorder, e, [], fault, rfl, fun q hq => ?_, hcheck, herr⟩
      obtain ⟨o, ho, hq⟩ := List.mem_flatMap.mp hq
      obtain ⟨t, ht⟩ := hops o ho
      exact exists_check_of_mem_postorder ht hq

end Expression

end AccessPolicy
