import AccessPolicy.Proofs.Cache.Recency
import AccessPolicy.Proofs.Graph.Appending
import AccessPolicy.Proofs.MemberLookup
import AccessPolicy.Proofs.WellFormed

/-!
# Declared types — stored types name declared concepts only

The types of members are checked when concepts are built.  The type of a node is a part of the type
of a member, or the concept of a root; so it names declared concepts only, if the user, the
environment and the subjects have declared concepts.  Hence a member that is reported as unknown is
missing from a declared concept and from all its ancestors.
-/

namespace AccessPolicy

open HierarchyNode

/-! ## Types -/

namespace DataType

variable {names : List String} {type : DataType}

/-- Every concept name that occurs in the type is one of these. -/
def NamesOnly (names : List String) (type : DataType) : Prop :=
  ∀ name, type.Names name → name ∈ names

theorem namesOnly_of_isPrimitive (h : type.isPrimitive = true) : type.NamesOnly names := by
  intro name hname
  cases hname <;> cases h

theorem namesOnly_null : null.NamesOnly names := by
  intro name hname
  cases hname

theorem namesOnly_concept {name : String} (h : name ∈ names) : (concept name).NamesOnly names := by
  rintro _ ⟨⟩
  exact h

theorem NamesOnly.element (h : (array type).NamesOnly names) : type.NamesOnly names :=
  fun name hname => h name (.element hname)

theorem NamesOnly.member {members : List (String × DataType)} {member : String}
    (h : (object members).NamesOnly names) (hmember : members.lookup member = some type) :
    type.NamesOnly names :=
  fun name hname => h name (.member (Cache.mem_of_lookup hmember) hname)

end DataType

section Typing

variable {decls : List ConceptDecl} {cs : Concepts} {receiver type : DataType}
  {concept member : String}

/-- Inherited members are members of a declared concept, so their types were checked. -/
theorem HasMember.namesOnly (hcs : Concepts.build decls = .ok cs)
    (h : HasMember decls member concept type) : type.NamesOnly (decls.map (·.name)) := by
  induction h with
  | declared hd hown =>
    exact fun name hname => Concepts.declared_of_build hcs hd (Cache.mem_of_lookup hown) hname
  | inherited _ _ _ _ ih => exact ih

theorem namesOnly_property (hcs : Concepts.build decls = .ok cs)
    (hreceiver : receiver.NamesOnly (decls.map (·.name)))
    (h : Typing.property cs receiver member = .ok type) : type.NamesOnly (decls.map (·.name)) := by
  rcases (Expression.property_eq_ok_iff hcs).mp h with
    ⟨concept, rfl, hmember⟩ | ⟨members, rfl, hmember⟩
  · rw [(Concepts.build_eq_ok hcs).2] at hmember
    exact hmember.namesOnly hcs
  · exact hreceiver.member hmember

/-- An operation has a primitive type. -/
theorem isPrimitive_binary {op : BinaryOp} {left right : DataType}
    (h : Typing.binary op left right = .ok type) : type.isPrimitive = true := by
  rw [Expression.binary_eq_ok_iff, Typing.binary?.eq_def] at h
  grind [DataType.isPrimitive]

theorem isPrimitive_unary {op : UnaryOp} {operand : DataType}
    (h : Typing.unary op operand = .ok type) : type.isPrimitive = true := by
  cases op with
  | not =>
    obtain rfl := Except.ok.inj h
    rfl
  | neg | plus =>
    obtain ⟨-, rfl⟩ := Expression.number_of_sign h
    rfl

theorem isSome_lookup_iff {members : List (String × DataType)} :
    (members.lookup member).isSome = true ↔ member ∈ members.map (·.1) := by
  rw [List.lookup_isSome_iff, List.mem_map]
  exact exists_congr fun p => and_congr_right fun _ => beq_iff_eq.trans eq_comm

theorem member?_eq_none_iff (hcs : Concepts.build decls = .ok cs) :
    cs.member? concept member = none ↔
      ∀ d ∈ decls, Reaches (decls.map ConceptDecl.node) concept d.name →
        member ∉ d.members.map (·.1) := by
  rw [← Option.not_isSome_iff_eq_none, Concepts.isSome_member?_iff hcs]
  simp only [isSome_lookup_iff, not_exists, not_and]

/-- A member is unknown exactly when neither the concept nor any of its ancestors declares it. -/
theorem property_eq_unknownMember_iff (hcs : Concepts.build decls = .ok cs) {missing : String} :
    Typing.property cs receiver member = .error (.unknownMember missing concept) ↔
      receiver = .concept concept ∧ missing = member ∧
        ∀ d ∈ decls, Reaches (decls.map ConceptDecl.node) concept d.name →
          member ∉ d.members.map (·.1) := by
  rw [← member?_eq_none_iff hcs]
  cases receiver with
  | concept name =>
    rw [Typing.property]
    cases hfind : cs.member? name member with
    | some type =>
      refine iff_of_false (by simp) ?_
      rintro ⟨⟨⟩, -, hnone⟩
      cases hfind.symm.trans hnone
    | none =>
      constructor
      · rintro ⟨⟩
        exact ⟨rfl, rfl, hfind⟩
      · rintro ⟨⟨⟩, rfl, -⟩
        rfl
  | object members =>
    rw [Typing.property]
    cases members.lookup member <;> simp
  | _ => simp [Typing.property]

end Typing

namespace Graph

variable {g g' : Graph} {scope : Nat} {i : NodeIndex} {n : Node} {m : TypedNode}
  {type : DataType} {names : List String} {decls : List ConceptDecl} {cs : Concepts}

/-! ## Stored nodes -/

/-- The node stands in the common table or in the table of a subject. -/
def HasNode (g : Graph) (m : TypedNode) : Prop :=
  m ∈ g.common ∨ ∃ s ∈ g.subjects, m ∈ s.nodes

theorem hasNode_of_nodeAt? (h : g.nodeAt? scope i = some m) : g.HasNode m := by
  rw [nodeAt?, GraphView.nodeAt?] at h
  split at h
  · exact .inl (List.mem_of_getElem? h)
  · have hown := List.mem_of_getElem? h
    rw [view] at hown
    cases hs : g.subjects[scope]? with
    | none => simp [hs] at hown
    | some s => exact .inr ⟨s, List.mem_of_getElem? hs, by simpa [hs] using hown⟩

theorem mem_place {kind : TableKind} {t : NodeTable} (h : m ∈ (t.place kind n type).2) :
    m ∈ t ∨ m.type = type := by
  rcases NodeTable.place_cases kind n type t with ⟨_, -, -, hplace⟩ | ⟨-, hplace⟩
  · exact .inl (by rwa [hplace] at h)
  · rw [hplace, List.mem_append, List.mem_singleton] at h
    exact h.imp_right fun hm => by rw [hm]

/-- Storing a node brings no other type than its own. -/
theorem hasNode_insert (h : (g.insert scope n type).2.HasNode m) : g.HasNode m ∨ m.type = type := by
  have hcommon {kind : TableKind}
      (h : HasNode { g with common := (g.common.place kind n type).2 } m) :
      g.HasNode m ∨ m.type = type := by
    rcases h with h | h
    · exact (mem_place h).imp_left .inl
    · exact .inl (.inr h)
  unfold insert at h
  split at h
  · cases hs : g.subjects[scope]? with
    | none =>
      rw [hs] at h
      exact hcommon h
    | some s =>
      rw [hs] at h
      rcases h with h | ⟨u, hu, h⟩
      · exact .inl (.inl h)
      · rcases List.mem_or_eq_of_mem_set hu with hu | rfl
        · exact .inl (.inr ⟨u, hu, h⟩)
        · exact (mem_place h).imp_left fun h => .inr ⟨s, List.mem_of_getElem? hs, h⟩
  · exact hcommon h

/-! ## Declared roots -/

/-- The user, the environment and the subjects have concepts of these names. -/
structure RootsIn (g : Graph) (names : List String) : Prop where
  user : g.user ∈ names
  environment : ∀ name, g.environment = some name → name ∈ names
  subjects : ∀ s ∈ g.subjects, s.concept ∈ names

theorem RootsIn.of_extends (h : g.Extends g') (hroots : g'.RootsIn names) : g.RootsIn names where
  user := h.user ▸ hroots.user
  environment name hname := hroots.environment name (h.environment.trans hname)
  subjects s hs := by
    obtain ⟨k, hk⟩ := List.getElem?_of_mem hs
    obtain ⟨s', hs', hconcept, -⟩ := h.subjects hk
    rw [← hconcept]
    exact hroots.subjects s' (List.mem_of_getElem? hs')

theorem RootsIn.appended (h : g.RootsIn names) (scope : Nat) (common own : NodeTable) :
    (g.appended scope common own).RootsIn names where
  user := h.user
  environment := h.environment
  subjects s hs := by
    obtain ⟨k, hk⟩ := List.getElem?_of_mem hs
    rw [Graph.appended, List.getElem?_modify] at hk
    obtain ⟨s', hs', rfl⟩ := Option.map_eq_some_iff.mp hk
    have hconcept := h.subjects s' (List.mem_of_getElem? hs')
    split <;> exact hconcept

/-! ## Types of nodes -/

theorem report_eq_ok_iff {α : Type} {x : Except TypeFault α} {a : α} :
    g.report scope n x = .ok a ↔ x = .ok a := by
  cases x <;> simp [report]

theorem report_eq_error_iff {α : Type} {x : Except TypeFault α} {text : String}
    {fault : TypeFault} : g.report scope n x = .error (.typeInference text fault) ↔
      x = .error fault ∧ g.renderNode scope n = text := by
  cases x <;> simp [report, and_comm]

/-- Every stored type names declared concepts only. -/
def TypesIn (g : Graph) (names : List String) : Prop :=
  ∀ m, g.HasNode m → m.type.NamesOnly names

theorem TypesIn.typeOf (h : g.TypesIn names) (ht : g.typeOf scope i = .ok type) :
    type.NamesOnly names := by
  obtain ⟨m, hm, rfl⟩ := typeOf_eq_ok_iff.mp ht
  exact h m (hasNode_of_nodeAt? hm)

theorem RootsIn.rootType (h : g.RootsIn names) {r : Root} (ht : g.rootType scope r = .ok type) :
    type.NamesOnly names := by
  cases r with
  | user =>
    obtain rfl := Except.ok.inj ht
    exact DataType.namesOnly_concept h.user
  | environment =>
    rw [Graph.rootType] at ht
    split at ht
    · obtain rfl := Except.ok.inj ht
      exact DataType.namesOnly_concept (h.environment _ ‹_›)
    · cases ht
  | subject =>
    rw [Graph.rootType] at ht
    split at ht
    · obtain rfl := Except.ok.inj ht
      exact DataType.namesOnly_concept (h.subjects _ (List.mem_of_getElem? ‹_›))
    · cases ht

/-- A node that type-checks takes its type from declared concepts and from its operands. -/
theorem TypesIn.nodeType (hcs : Concepts.build decls = .ok g.concepts)
    (hroots : g.RootsIn (decls.map (·.name))) (h : g.TypesIn (decls.map (·.name)))
    (ht : g.nodeType scope n = .ok type) : type.NamesOnly (decls.map (·.name)) := by
  cases n with
  | null =>
    obtain rfl := Except.ok.inj ht
    exact DataType.namesOnly_null
  | boolean | number | string =>
    obtain rfl := Except.ok.inj ht
    exact DataType.namesOnly_of_isPrimitive rfl
  | root r => exact hroots.rootType ht
  | property receiver member =>
    obtain ⟨t, hreceiver, ht⟩ := Steps.check_bind_eq_ok.mp ht
    exact namesOnly_property hcs (h.typeOf hreceiver) (report_eq_ok_iff.mp ht)
  | arrayItem receiver index =>
    obtain ⟨t, hreceiver, ht⟩ := Steps.check_bind_eq_ok.mp ht
    obtain ⟨element, helement, ht⟩ := Steps.check_bind_eq_ok.mp ht
    obtain ⟨_, -, ht⟩ := Steps.check_bind_eq_ok.mp ht
    obtain ⟨_, -, ht⟩ := Steps.check_bind_eq_ok.mp ht
    obtain rfl := Except.ok.inj ht
    obtain rfl := Expression.element_eq_ok_iff.mp (report_eq_ok_iff.mp helement)
    exact (h.typeOf hreceiver).element
  | binary op left right =>
    obtain ⟨_, -, ht⟩ := Steps.check_bind_eq_ok.mp ht
    obtain ⟨_, -, ht⟩ := Steps.check_bind_eq_ok.mp ht
    exact DataType.namesOnly_of_isPrimitive (isPrimitive_binary (report_eq_ok_iff.mp ht))
  | unary op operand =>
    obtain ⟨_, -, ht⟩ := Steps.check_bind_eq_ok.mp ht
    exact DataType.namesOnly_of_isPrimitive (isPrimitive_unary (report_eq_ok_iff.mp ht))
  | is tested operand =>
    obtain ⟨_, -, ht⟩ := Steps.check_bind_eq_ok.mp ht
    obtain ⟨_, -, ht⟩ := Steps.check_bind_eq_ok.mp ht
    obtain ⟨_, -, ht⟩ := Steps.check_bind_eq_ok.mp ht
    obtain rfl := Except.ok.inj ht
    exact DataType.namesOnly_of_isPrimitive rfl

/-- If the roots have declared concepts, so have all stored types.  The roots are those of the graph
that a step leads to, since a subject may be registered with any name. -/
def Declares (g : Graph) : Prop := ∀ decls, Concepts.build decls = .ok g.concepts →
  g.RootsIn (decls.map (·.name)) → g.TypesIn (decls.map (·.name))

theorem declares_new (cs : Concepts) (user : String) (environment : Option String) :
    (new cs user environment).Declares := by
  rintro decls - - m (hm | ⟨s, hs, -⟩)
  · -- the types of the literals are not concepts
    change m ∈ literals at hm
    simp only [literals, List.mem_cons, List.not_mem_nil, or_false] at hm
    rcases hm with rfl | rfl | rfl
    · exact DataType.namesOnly_null
    · exact DataType.namesOnly_of_isPrimitive rfl
    · exact DataType.namesOnly_of_isPrimitive rfl
  · exact absurd hs List.not_mem_nil

theorem stable_declares : Stable Declares where
  insert {g scope n type} h ht decls hcs hroots m hm := by
    have hext := g.extends_insert scope n type
    rw [hext.concepts] at hcs
    have hroots := hroots.of_extends hext
    have htypes := h decls hcs hroots
    rcases hasNode_insert hm with hm | htype
    · exact htypes m hm
    · rw [htype]
      exact htypes.nodeType hcs hroots ht
  addSubject {g} concept h decls hcs hroots m hm := by
    have hext := g.extends_addSubject concept
    refine h decls hcs (hroots.of_extends hext) m ?_
    -- the new table is empty
    rcases hm with hm | ⟨s, hs, hm⟩
    · exact .inl hm
    · rw [Graph.addSubject, List.mem_append, List.mem_singleton] at hs
      rcases hs with hs | rfl
      · exact .inr ⟨s, hs, hm⟩
      · exact absurd hm List.not_mem_nil

/-! ## Unknown members -/

section Reports

variable {text member concept : String}

theorem typeOf_ne_unknownMember :
    g.typeOf scope i ≠ .error (.typeInference text (.unknownMember member concept)) := by
  rw [typeOf]
  split <;> simp

/-- Of all nodes only members are refused as unknown members. -/
theorem nodeType_eq_unknownMember
    (h : g.nodeType scope n = .error (.typeInference text (.unknownMember member concept))) :
    ∃ receiver read type, n = .property receiver read ∧ g.typeOf scope receiver = .ok type ∧
      Typing.property g.concepts type read = .error (.unknownMember member concept) ∧
      g.renderNode scope n = text := by
  have hoperand {β : Type} {o : NodeIndex} {f : DataType → Except PolicyError β}
      (h : (g.typeOf scope o >>= f) =
        .error (.typeInference text (.unknownMember member concept))) :
      ∃ t, g.typeOf scope o = .ok t ∧
        f t = .error (.typeInference text (.unknownMember member concept)) :=
    (Steps.check_bind_eq_error.mp h).resolve_left typeOf_ne_unknownMember
  have hrule {α β : Type} {x : Except TypeFault α} {f : α → Except PolicyError β}
      (hx : x ≠ .error (.unknownMember member concept))
      (h : (g.report scope n x >>= f) =
        .error (.typeInference text (.unknownMember member concept))) :
      ∃ a, f a = .error (.typeInference text (.unknownMember member concept)) := by
    rcases Steps.check_bind_eq_error.mp h with h | ⟨a, -, h⟩
    · exact absurd (report_eq_error_iff.mp h).1 hx
    · exact ⟨a, h⟩
  cases n with
  | null | boolean | number | string => cases h
  | root r =>
    cases r with
    | user => cases h
    | environment | subject =>
      rw [nodeType, rootType] at h
      split at h <;> simp at h
  | property receiver read =>
    obtain ⟨t, hreceiver, h⟩ := hoperand h
    exact ⟨receiver, read, t, rfl, hreceiver, report_eq_error_iff.mp h⟩
  | arrayItem receiver index =>
    obtain ⟨t, -, h⟩ := hoperand h
    obtain ⟨_, h⟩ := hrule (by cases t <;> simp [Typing.element]) h
    obtain ⟨t', -, h⟩ := hoperand h
    obtain ⟨_, h⟩ := hrule (by rw [Typing.requireIndex]; split <;> simp) h
    cases h
  | binary op left right =>
    obtain ⟨l, -, h⟩ := hoperand h
    obtain ⟨r, -, h⟩ := hoperand h
    have hfault := (report_eq_error_iff.mp h).1
    rw [Typing.binary] at hfault
    split at hfault <;> simp at hfault
  | unary op operand =>
    obtain ⟨t, -, h⟩ := hoperand h
    have hfault := (report_eq_error_iff.mp h).1
    cases op with
    | not => cases hfault
    | neg | plus =>
      rw [Typing.unary] at hfault
      split at hfault <;> simp at hfault
  | is tested operand =>
    obtain ⟨_, h⟩ := hrule (by rw [Typing.requireConcept]; split <;> simp) h
    obtain ⟨t, -, h⟩ := hoperand h
    obtain ⟨_, h⟩ := hrule (by cases t <;> simp [Typing.requireObject]) h
    cases h

/-- Where the step fails with the error, it leaves a graph that refuses a node with it. -/
def Blames (scope : Nat) (err : PolicyError) {α : Type} (f : GraphM α) : Prop :=
  ∀ g g' : Graph, f g = (.error err, g') → ∃ n, g'.nodeType scope n = .error err

theorem Blames.pure {α : Type} {err : PolicyError} (a : α) :
    Blames scope err (pure a : GraphM α) := by
  intro g g' h
  cases h

theorem Blames.bind {α β : Type} {err : PolicyError} {f : GraphM α} {next : α → GraphM β}
    (hf : Blames scope err f) (hnext : ∀ a, Blames scope err (next a)) :
    Blames scope err (f >>= next) := by
  intro g g' h
  rcases Steps.bind_cases f next g with ⟨err', g₁, hrun, hbind⟩ | ⟨a, g₁, hrun, hbind⟩
  · obtain ⟨he, rfl⟩ := Prod.mk.inj (hbind.symm.trans h)
    obtain rfl := Except.error.inj he
    exact hf g g₁ hrun
  · exact hnext a g₁ g' (hbind.symm.trans h)

theorem blames_add (scope : Nat) (err : PolicyError) (n : Node) :
    Blames scope err (add scope n) := by
  intro g g' h
  unfold add at h
  split at h
  · obtain ⟨he, rfl⟩ := Prod.mk.inj h
    obtain rfl := Except.error.inj he
    exact ⟨n, ‹_›⟩
  · cases h

theorem blames_conjoin (scope : Nat) (err : PolicyError) (left right : NodeIndex) :
    Blames scope err (conjoin scope left right) := by
  unfold conjoin
  split
  · exact .pure right
  · split
    · exact .pure left
    · exact blames_add _ _ _

/-- An annotation that does not fit is no unknown member. -/
theorem blames_checkType (scope : Nat) (declared? : Option DataType) (i : NodeIndex) :
    Blames scope (.typeInference text (.unknownMember member concept))
      (checkType scope declared? i) := by
  intro g g' h
  rw [checkType.eq_def] at h
  split at h
  · cases h
  · split at h
    · rename_i err herr
      obtain rfl := Except.error.inj (Prod.mk.inj h).1
      exact absurd herr typeOf_ne_unknownMember
    · split at h <;> cases h

theorem blames_lower (scope : Nat) (e : Expression) :
    Blames scope (.typeInference text (.unknownMember member concept)) (lower scope e) := by
  have hnode (n : Node) (declared? : Option DataType) :
      Blames scope (.typeInference text (.unknownMember member concept))
        (add scope n >>= checkType scope declared?) :=
    (blames_add _ _ _).bind fun _ => blames_checkType _ _ _
  induction e with
  | null | boolean => exact blames_checkType _ _ _
  | number | string | root => exact hnode _ _
  | property _ _ _ ih | unary _ _ _ ih | is _ _ _ ih => exact ih.bind fun _ => hnode _ _
  | arrayIndex _ _ _ ih ih' | binary _ _ _ _ ih ih' =>
    exact ih.bind fun _ => ih'.bind fun _ => hnode _ _

end Reports

/-! ## Runs -/

theorem RootsIn.appends (h : g.RootsIn names) {f : GraphM NodeIndex} (hf : Appends scope f) :
    (f g).2.RootsIn names := by
  obtain ⟨common, own, hg'⟩ := hf g
  rw [hg']
  exact h.appended scope common own

theorem rootsIn_after (h : g.RootsIn names) {c : Call}
    (hc : ∀ concept, c = .addSubject concept → concept ∈ names) : (g.after c).RootsIn names := by
  cases c with
  | addSubject concept =>
    refine ⟨h.user, h.environment, fun s hs => ?_⟩
    rw [after, Graph.addSubject, List.mem_append, List.mem_singleton] at hs
    rcases hs with hs | rfl
    · exact h.subjects s hs
    · exact hc concept rfl
  | add scope n => exact h.appends (appendsOne_add scope n).appends
  | conjoin scope left right => exact h.appends (appendsOne_conjoin scope left right).appends
  | lower scope e => exact h.appends (appends_lower scope e)

theorem rootsIn_run {calls : List Call} (h : g.RootsIn names)
    (hcalls : ∀ concept, .addSubject concept ∈ calls → concept ∈ names) :
    (g.run calls).RootsIn names := by
  induction calls generalizing g with
  | nil => exact h
  | cons c rest ih =>
    refine ih (rootsIn_after h fun concept hc => hcalls concept ?_) fun concept hconcept =>
      hcalls concept (List.mem_cons_of_mem _ hconcept)
    rw [hc]
    exact List.mem_cons_self

theorem declares_run (cs : Concepts) (user : String) (environment : Option String)
    (calls : List Call) : ((new cs user environment).run calls).Declares :=
  (grows_run _ calls).stable _ stable_declares (declares_new cs user environment)

/-- As long as the user, the environment and the subjects have declared concepts, whatever a graph
is asked, and whether it answers or fails, every concept name in the type of a stored node is
declared, also inside arrays and objects.  So when a member is reported as unknown, its receiver has
a declared concept, and neither this concept nor any of its ancestors declares the member; and in
this case it is reported. -/
theorem stored_types_declared (hcs : Concepts.build decls = .ok cs) (user : String)
    (environment : Option String) (calls : List Call) (huser : user ∈ decls.map (·.name))
    (henvironment : ∀ name, environment = some name → name ∈ decls.map (·.name))
    (hsubjects : ∀ concept, .addSubject concept ∈ calls → concept ∈ decls.map (·.name)) :
    let g := (new cs user environment).run calls
    (∀ m, g.HasNode m → ∀ name, m.type.Names name → name ∈ decls.map (·.name)) ∧
    (∀ (scope : Nat) (f : GraphM NodeIndex),
      (∃ n, f = add scope n) ∨ (∃ left right, f = conjoin scope left right) ∨
        (∃ e, f = lower scope e) →
      ∀ g' text member concept,
        f g = (.error (.typeInference text (.unknownMember member concept)), g') →
        concept ∈ decls.map (·.name) ∧
        (∀ d ∈ decls, Reaches (decls.map ConceptDecl.node) concept d.name →
          member ∉ d.members.map (·.1)) ∧
        ∃ receiver, g'.typeOf scope receiver = .ok (.concept concept) ∧
          g'.renderNode scope (.property receiver member) = text) ∧
    ∀ scope receiver member concept, g.typeOf scope receiver = .ok (.concept concept) →
      (∀ d ∈ decls, Reaches (decls.map ConceptDecl.node) concept d.name →
        member ∉ d.members.map (·.1)) →
      add scope (.property receiver member) g =
        (.error (.typeInference (g.renderNode scope (.property receiver member))
          (.unknownMember member concept)), g) := by
  intro g
  have hdeclares : g.Declares := declares_run cs user environment calls
  have hroots : g.RootsIn (decls.map (·.name)) :=
    rootsIn_run ⟨huser, henvironment, fun _ hs => absurd hs List.not_mem_nil⟩ hsubjects
  have hconcepts : g.concepts = cs := (grows_run _ calls).extend.concepts
  rw [← hconcepts] at hcs
  refine ⟨hdeclares decls hcs hroots, fun scope f hf g' text member concept hrun => ?_,
    fun scope receiver member concept hreceiver hmissing => ?_⟩
  · obtain ⟨happends, hkeeps, hblames⟩ : Appends scope f ∧ Keeps f ∧
        Blames scope (.typeInference text (.unknownMember member concept)) f := by
      rcases hf with ⟨n, rfl⟩ | ⟨left, right, rfl⟩ | ⟨e, rfl⟩
      · exact ⟨(appendsOne_add _ _).appends, keeps_add _ _, blames_add _ _ _⟩
      · exact ⟨(appendsOne_conjoin _ _ _).appends, keeps_conjoin _ _ _, blames_conjoin _ _ _ _⟩
      · exact ⟨appends_lower _ _, keeps_lower _ _, blames_lower _ _⟩
    -- the graph after the failure still has declared roots, so its types are declared
    have hroots' := hroots.appends happends
    rw [hrun] at hroots'
    rw [← (hkeeps.extends hrun).concepts] at hcs
    have htypes := hkeeps.stable hrun stable_declares hdeclares decls hcs hroots'
    obtain ⟨n, hn⟩ := hblames g g' hrun
    obtain ⟨receiver, read, type, rfl, hreceiver, hfault, htext⟩ := nodeType_eq_unknownMember hn
    obtain ⟨rfl, rfl, hmissing⟩ := (property_eq_unknownMember_iff hcs).mp hfault
    exact ⟨htypes.typeOf hreceiver concept .concept, hmissing, receiver, hreceiver, htext⟩
  · have hfault := (property_eq_unknownMember_iff hcs).mpr ⟨rfl, rfl, hmissing⟩
    have hnode : g.nodeType scope (.property receiver member) =
        .error (.typeInference (g.renderNode scope (.property receiver member))
          (.unknownMember member concept)) := by
      rw [nodeType, hreceiver]
      exact report_eq_error_iff.mpr ⟨hfault, rfl⟩
    rw [add, hnode]

/-- The owner of an account is a person, and persons have accounts only.  So the owner of the user's
account is stored as a person, and no age of this person is found. -/
theorem stored_types_declared_owner :
    let decls : List ConceptDecl :=
      [{ name := "Person", members := [("account", .object [("owner", .concept "Person")])] }]
    let owner : Expression := .property (.property (.root .user none) "account" none) "owner" none
    ∃ cs, Concepts.build decls = .ok cs ∧
      let g := (new cs "Person" none).run [.addSubject "Person", .lower 0 owner]
      g.HasNode ⟨.common 5, .property (.common 4) "owner", .concept "Person"⟩ ∧
      (∀ m, g.HasNode m → ∀ name, m.type.Names name → name = "Person") ∧
      (lower 0 (.property owner "age" none) g).1 =
        .error (.typeInference "user.account.owner.age" (.unknownMember "age" "Person")) ∧
      ∀ d ∈ decls, Reaches (decls.map ConceptDecl.node) "Person" d.name →
        "age" ∉ d.members.map (·.1) := by
  intro decls owner
  have hbuild : Concepts.build decls = .ok ⟨⟨["Person"], [⟨0, 1⟩]⟩, decls⟩ := by rfl
  refine ⟨_, hbuild, ?_⟩
  intro g
  obtain ⟨htypes, hmembers, -⟩ := stored_types_declared hbuild "Person" none
    [.addSubject "Person", .lower 0 owner] (by decide) (by simp) (by simp [decls])
  have herror : (lower 0 (.property owner "age" none) g).1 =
      .error (.typeInference "user.account.owner.age" (.unknownMember "age" "Person")) := by
    decide +kernel
  have hrun : lower 0 (.property owner "age" none) g = (.error (.typeInference
      "user.account.owner.age" (.unknownMember "age" "Person")),
        (lower 0 (.property owner "age" none) g).2) := by
    rw [← herror, Prod.mk.eta]
  have hstored : g.HasNode ⟨.common 5, .property (.common 4) "owner", .concept "Person"⟩ :=
    .inl (by decide)
  have hnames (m : TypedNode) (hm : g.HasNode m) (name : String) (hname : m.type.Names name) :
      name = "Person" := List.mem_singleton.mp (htypes m hm name hname)
  obtain ⟨-, hmissing, -⟩ := hmembers 0 _ (.inr (.inr ⟨_, rfl⟩)) _ _ _ _ hrun
  exact ⟨hstored, hnames, herror, hmissing⟩

end Graph

end AccessPolicy
