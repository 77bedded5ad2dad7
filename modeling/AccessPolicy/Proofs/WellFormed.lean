import AccessPolicy.Proofs.Hierarchy.Forest
import AccessPolicy.Proofs.TableSize
import Mathlib.Data.List.Duplicate

/-!
# Well-formed models — what compiling accepts

A model is well formed when no name is declared twice, everything that is referred to is declared,
nothing inherits from itself and every condition has a type.  Compiling accepts exactly these
models, and the error for any other model names something that is wrong with it.
-/

namespace AccessPolicy

theorem NestedSet.not_isForest_of_encode {nodes : List HierarchyNode} {error : HierarchyError}
    (h : encode nodes = .error error) : ¬ HierarchyNode.IsForest nodes := by
  intro hforest
  obtain ⟨s, hs⟩ := exists_encode_eq_ok_iff.mpr hforest
  exact nomatch h.symm.trans hs

/-! ## Well-formed models -/

/-- The concept name occurs in the type, perhaps inside arrays and objects. -/
inductive DataType.Names (name : String) : DataType → Prop where
  | concept : Names name (.concept name)
  | element {type : DataType} : Names name type → Names name (.array type)
  | member {members : List (String × DataType)} {member : String} {type : DataType} :
    (member, type) ∈ members → Names name type → Names name (.object members)

namespace Model

def DeclaresConcept (m : Model) (name : String) : Prop := name ∈ m.concepts.map (·.name)

/-- A block of the model with its role and the subject that it is for. -/
structure HasBlock (m : Model) (r : RoleDecl) (b : RoleBlock) (d : SubjectDecl) : Prop where
  role : r ∈ m.roles
  block : b ∈ r.blocks
  subject : d ∈ m.subjects
  name : d.name = b.subject

/-- Names are distinct, and what they refer to is declared. -/
structure Declared (m : Model) : Prop where
  concepts : HierarchyNode.IsForest (m.concepts.map ConceptDecl.node)
  members : ∀ d ∈ m.concepts, ∀ member ∈ d.members, ∀ name, member.2.Names name →
    m.DeclaresConcept name
  user : m.DeclaresConcept m.user
  environment : ∀ name, m.environment = some name → m.DeclaresConcept name
  subjects : (m.subjects.map (·.name)).Nodup
  subjectConcepts : ∀ d ∈ m.subjects, m.DeclaresConcept d.concept
  actions : ∀ d ∈ m.subjects, HierarchyNode.IsForest (d.actions.map ActionDecl.node)
  roles : (m.roles.map (·.name)).Nodup
  blocks : ∀ r ∈ m.roles, ∀ b ∈ r.blocks, b.subject ∈ m.subjects.map (·.name)
  selections : ∀ r b d, m.HasBlock r b d → ∀ names,
    .selection (.actions names) ∈ mentionsAll b.statements →
      ∀ name ∈ names, name ∈ d.actions.map (·.name)

/-- Every condition of a block is well typed, annotations included, for the subject of the block. -/
def ConditionsTyped (m : Model) : Prop :=
  ∀ cs, Concepts.build m.concepts = .ok cs → ∀ r b d, m.HasBlock r b d →
    ∀ e, .condition e ∈ mentionsAll b.statements → e.WellTyped (m.context cs d)

structure WellFormed (m : Model) : Prop extends Declared m where
  conditions : m.ConditionsTyped

/-! ## Faults -/

/-- What the fault says is wrong with the model.  A hierarchy is at fault if it cannot be encoded,
and the fault is the one that encoding it reports. -/
inductive HasFault (m : Model) : ConfigurationFault → Prop where
  | hierarchy {error : HierarchyError} :
    NestedSet.encode (m.concepts.map ConceptDecl.node) = .error error →
    HasFault m (.hierarchy error)
  | memberConcept {d : ConceptDecl} {member unknown : String} {type : DataType} :
    d ∈ m.concepts → (member, type) ∈ d.members → type.Names unknown →
    ¬ m.DeclaresConcept unknown → HasFault m (.memberConcept d.name member unknown)
  | user : ¬ m.DeclaresConcept m.user → HasFault m (.unknownConcept "user" m.user)
  | environment {name : String} : m.environment = some name → ¬ m.DeclaresConcept name →
    HasFault m (.unknownConcept "environment" name)
  | subjectConcept {d : SubjectDecl} : d ∈ m.subjects → ¬ m.DeclaresConcept d.concept →
    HasFault m (.unknownConcept d.name d.concept)
  | duplicateSubject {name : String} : (m.subjects.map (·.name)).Duplicate name →
    HasFault m (.duplicateSubject name)
  | actionHierarchy {d : SubjectDecl} {error : HierarchyError} : d ∈ m.subjects →
    NestedSet.encode (d.actions.map ActionDecl.node) = .error error →
    HasFault m (.actionHierarchy d.name error)
  | duplicateRole {name : String} : (m.roles.map (·.name)).Duplicate name →
    HasFault m (.duplicateRole name)
  | unknownSubject {r : RoleDecl} {b : RoleBlock} : r ∈ m.roles → b ∈ r.blocks →
    b.subject ∉ m.subjects.map (·.name) → HasFault m (.unknownSubject r.name b.subject)
  | unknownAction {r : RoleDecl} {b : RoleBlock} {d : SubjectDecl} {names : List String}
    {name : String} : m.HasBlock r b d →
    .selection (.actions names) ∈ mentionsAll b.statements → name ∈ names →
    name ∉ d.actions.map (·.name) → HasFault m (.unknownAction r.name name d.name)

/-- The error is the one of a condition of a block, for the first node in it that is at fault. -/
def HasTypeError (m : Model) (err : PolicyError) : Prop :=
  ∃ cs r b d e, Concepts.build m.concepts = .ok cs ∧ m.HasBlock r b d ∧
    .condition e ∈ mentionsAll b.statements ∧ e.check (m.context cs d) = .error err ∧
    ∃ p ∈ e.postorder, ∃ fault, err = .typeInference p.text fault

variable {m : Model} {cs : Concepts} {err : PolicyError}

theorem HasFault.not_declared {fault : ConfigurationFault} (h : m.HasFault fault) :
    ¬ m.Declared := by
  intro hm
  cases h with
  | hierarchy hencode => exact NestedSet.not_isForest_of_encode hencode hm.concepts
  | memberConcept hd hmember hnames hno => exact hno (hm.members _ hd _ hmember _ hnames)
  | user hno => exact hno hm.user
  | environment henv hno => exact hno (hm.environment _ henv)
  | subjectConcept hd hno => exact hno (hm.subjectConcepts _ hd)
  | duplicateSubject hdup => exact hdup.not_nodup hm.subjects
  | actionHierarchy hd hencode => exact NestedSet.not_isForest_of_encode hencode (hm.actions _ hd)
  | duplicateRole hdup => exact hdup.not_nodup hm.roles
  | unknownSubject hr hb hno => exact hno (hm.blocks _ hr _ hb)
  | unknownAction hblock hmention hname hno =>
    exact hno (hm.selections _ _ _ hblock _ hmention _ hname)

theorem HasTypeError.not_conditionsTyped (h : m.HasTypeError err) : ¬ m.ConditionsTyped := by
  intro hm
  obtain ⟨cs, r, b, d, e, hcs, hblock, he, hcheck, -⟩ := h
  obtain ⟨type, htype⟩ := (Expression.wellTyped_iff (c := m.context cs d) hcs).mp
    (hm cs hcs r b d hblock e he)
  exact nomatch hcheck.symm.trans htype

end Model

/-! ## Concepts -/

namespace DataType

variable {name : String}

mutual

theorem mem_conceptNames_iff : ∀ type : DataType, name ∈ type.conceptNames ↔ type.Names name
  | .boolean | .number | .string | .null => ⟨nofun, nofun⟩
  | .array type => by
    rw [conceptNames, mem_conceptNames_iff type]
    exact ⟨.element, fun | .element h => h⟩
  | .concept other => by
    rw [conceptNames, List.mem_singleton]
    exact ⟨fun h => h ▸ .concept, fun | .concept => rfl⟩
  | .object members => by
    rw [conceptNames, mem_memberConceptNames_iff members]
    exact ⟨fun ⟨p, hp, h⟩ => .member hp h, fun | .member hp h => ⟨_, hp, h⟩⟩

theorem mem_memberConceptNames_iff : ∀ members : List (String × DataType),
    name ∈ memberConceptNames members ↔ ∃ p ∈ members, p.2.Names name
  | [] => by simp [memberConceptNames]
  | (member, type) :: rest => by
    rw [memberConceptNames, List.mem_append, mem_conceptNames_iff type,
      mem_memberConceptNames_iff rest, List.exists_mem_cons_iff]

end

end DataType

namespace Concepts

variable {cs : Concepts} {decls : List ConceptDecl} {err : PolicyError} {name owner : String}

theorem isForest_of_build (h : build decls = .ok cs) :
    HierarchyNode.IsForest (decls.map ConceptDecl.node) :=
  NestedSet.exists_encode_eq_ok_iff.mp ⟨_, (build_eq_ok h).1⟩

theorem contains_of_build (h : build decls = .ok cs) :
    cs.contains name = true ↔ name ∈ decls.map (·.name) := by
  rw [contains_iff, (build_eq_ok h).2, List.mem_map]

theorem declared_of_build (h : build decls = .ok cs) {d : ConceptDecl} (hd : d ∈ decls)
    {member : String × DataType} (hmember : member ∈ d.members) (hname : member.2.Names name) :
    name ∈ decls.map (·.name) := by
  rw [← contains_of_build h]
  unfold build at h
  split at h
  · exact absurd h (by simp)
  · dsimp only at h
    split at h
    · exact absurd h (by simp)
    · rename_i hnone
      obtain rfl := Except.ok.inj h
      rw [unknownMemberConcept?, List.findSome?_eq_none_iff] at hnone
      have hmembers := List.findSome?_eq_none_iff.mp (hnone d hd) member hmember
      rw [Option.map_eq_none_iff, List.find?_eq_none] at hmembers
      simpa using hmembers name ((DataType.mem_conceptNames_iff _).mpr hname)

theorem build_eq_error (h : build decls = .error err) :
    (∃ error, err = .configuration (.hierarchy error) ∧
      NestedSet.encode (decls.map ConceptDecl.node) = .error error) ∨
    ∃ d ∈ decls, ∃ member type unknown,
      err = .configuration (.memberConcept d.name member unknown) ∧
      (member, type) ∈ d.members ∧ type.Names unknown ∧ unknown ∉ decls.map (·.name) := by
  unfold build at h
  split at h
  · rename_i error hencode
    exact .inl ⟨error, (Except.error.inj h).symm, hencode⟩
  · dsimp only at h
    split at h
    · rename_i concept member unknown hsome
      refine .inr ?_
      obtain ⟨d, hd, hsome⟩ := List.exists_of_findSome?_eq_some hsome
      obtain ⟨⟨member', type⟩, hmember, hsome⟩ := List.exists_of_findSome?_eq_some hsome
      obtain ⟨unknown', hfind, heq⟩ := Option.map_eq_some_iff.mp hsome
      obtain ⟨rfl, rfl, rfl⟩ : d.name = concept ∧ member' = member ∧ unknown' = unknown := by
        simpa using heq
      have hno := List.find?_some hfind
      refine ⟨d, hd, member', type, unknown', (Except.error.inj h).symm, hmember,
        (DataType.mem_conceptNames_iff _).mp (List.mem_of_find?_eq_some hfind), fun hmem => ?_⟩
      rw [contains_iff.mpr (by simpa using hmem)] at hno
      exact absurd hno (by decide)
    · exact absurd h (by simp)

theorem require_eq_ok_iff : cs.require owner name = .ok () ↔ cs.contains name = true := by
  rw [require]
  split <;> simp_all

theorem require_eq_error (h : cs.require owner name = .error err) :
    err = .configuration (.unknownConcept owner name) ∧ cs.contains name ≠ true := by
  rw [require] at h
  split at h
  · exact absurd h (by simp)
  · rename_i hno
    exact ⟨(Except.error.inj h).symm, hno⟩

end Concepts

theorem ActionTree.isForest_of_build {d : SubjectDecl} {t : ActionTree} (h : build d = .ok t) :
    HierarchyNode.IsForest (d.actions.map ActionDecl.node) :=
  NestedSet.exists_encode_eq_ok_iff.mp ⟨_, (build_eq_ok h).1⟩

theorem ActionTree.build_eq_error {d : SubjectDecl} {err : PolicyError}
    (h : build d = .error err) : ∃ error, err = .configuration (.actionHierarchy d.name error) ∧
      NestedSet.encode (d.actions.map ActionDecl.node) = .error error := by
  unfold build at h
  split at h
  · rename_i error hencode
    exact ⟨error, (Except.error.inj h).symm, hencode⟩
  · exact absurd h (by simp)

namespace Model

variable {m : Model} {cs : Concepts} {err : PolicyError}

/-! ## Subjects -/

/-- A name that repeats one of the names seen before the rest repeats one seen before the whole, or
is a duplicate. -/
theorem repeated_cons {seen names : List String} {name first : String}
    (h : name ∈ first :: seen ∧ name ∈ names ∨ names.Duplicate name) :
    name ∈ seen ∧ name ∈ first :: names ∨ (first :: names).Duplicate name := by
  rcases h with ⟨hseen, hname⟩ | hdup
  · rcases List.mem_cons.mp hseen with rfl | hseen
    · exact .inr (.cons_mem hname)
    · exact .inl ⟨hseen, List.mem_cons_of_mem _ hname⟩
  · exact .inr (.cons_duplicate hdup)

theorem contains_of_encodeSubjects {subjects : List EncodedSubject} {seen : List String}
    {ds : List SubjectDecl} (h : encodeSubjects cs seen ds = .ok subjects) :
    ∀ d ∈ ds, cs.contains d.concept = true := by
  induction ds generalizing seen subjects with
  | nil => simp
  | cons d rest ih =>
    rw [encodeSubjects] at h
    split at h
    · obtain ⟨_, herror, -⟩ := Steps.check_bind_eq_ok.mp h
      exact absurd herror (by simp)
    · obtain ⟨_, hconcept, h⟩ := Steps.check_bind_eq_ok.mp h
      obtain ⟨_, -, h⟩ := Steps.check_bind_eq_ok.mp h
      obtain ⟨others, hothers, -⟩ := Steps.check_bind_eq_ok.mp h
      exact List.forall_mem_cons.mpr ⟨Concepts.require_eq_ok_iff.mp hconcept, ih hothers⟩

theorem encodeSubjects_eq_error {seen : List String} {ds : List SubjectDecl}
    (h : encodeSubjects cs seen ds = .error err) :
    (∃ name, err = .configuration (.duplicateSubject name) ∧
      (name ∈ seen ∧ name ∈ ds.map (·.name) ∨ (ds.map (·.name)).Duplicate name)) ∨
    ∃ d ∈ ds, err = .configuration (.unknownConcept d.name d.concept) ∧
        cs.contains d.concept ≠ true ∨
      ∃ error, err = .configuration (.actionHierarchy d.name error) ∧
        NestedSet.encode (d.actions.map ActionDecl.node) = .error error := by
  induction ds generalizing seen with
  | nil => exact nomatch h
  | cons d rest ih =>
    have hd : d ∈ d :: rest := List.mem_cons_self
    rw [encodeSubjects] at h
    split at h
    · rename_i hseen
      exact .inl ⟨d.name, (Except.error.inj h).symm, .inl ⟨hseen, List.mem_cons_self⟩⟩
    · rcases Steps.check_bind_eq_error.mp h with hconcept | ⟨_, -, h⟩
      · exact .inr ⟨d, hd, .inl (Concepts.require_eq_error hconcept)⟩
      rcases Steps.check_bind_eq_error.mp h with hactions | ⟨_, -, h⟩
      · exact .inr ⟨d, hd, .inr (ActionTree.build_eq_error hactions)⟩
      rcases Steps.check_bind_eq_error.mp h with hrest | ⟨_, -, h⟩
      · rcases ih hrest with ⟨name, herr, hname⟩ | ⟨d', hd', hfault⟩
        · exact .inl ⟨name, herr, repeated_cons hname⟩
        · exact .inr ⟨d', List.mem_cons_of_mem _ hd', hfault⟩
      · cases h

/-! ## Blocks -/

variable {r : RoleDecl} {b : RoleBlock} {d : SubjectDecl}

theorem checkBlock_eq_ok (hnames : (m.subjects.map (·.name)).Nodup)
    (h : m.checkBlock cs r.name b = .ok ()) : b.subject ∈ m.subjects.map (·.name) ∧
      ∀ d, m.HasBlock r b d → ∀ mention ∈ mentionsAll b.statements,
        d.checkMention (m.context cs d) r.name mention = .ok () := by
  rw [checkBlock] at h
  split at h
  · exact absurd h (by simp)
  · rename_i d' hfind
    obtain ⟨hmem, hname⟩ := mem_of_find?_name hfind
    refine ⟨List.mem_map.mpr ⟨d', hmem, hname⟩, fun d hd => ?_⟩
    -- only one subject has the name
    obtain rfl : d = d' :=
      List.inj_on_of_nodup_map hnames hd.subject hmem (hd.name.trans hname.symm)
    exact Steps.forM_eq_ok_iff.mp h

theorem checkMention_eq_error {ctx : ConditionContext} {role : String} {mention : Mention}
    (h : d.checkMention ctx role mention = .error err) :
    (∃ e, mention = .condition e ∧ e.check ctx = .error err) ∨
    ∃ names, mention = .selection (.actions names) ∧ ∃ name ∈ names,
      name ∉ d.actions.map (·.name) ∧ err = .configuration (.unknownAction role name d.name) := by
  cases mention with
  | condition e =>
    rcases Steps.check_bind_eq_error.mp h with hcheck | ⟨_, -, h⟩
    · exact .inl ⟨e, rfl, hcheck⟩
    · cases h
  | selection actions =>
    cases actions with
    | everything => exact nomatch h
    | actions names =>
      obtain ⟨name, hname, herr⟩ := Steps.exists_of_forM_eq_error h
      split at herr
      · exact absurd herr (by simp)
      · rename_i hno
        exact .inr ⟨names, rfl, name, hname, hno, (Except.error.inj herr).symm⟩

theorem checkBlock_eq_error (hcs : Concepts.build m.concepts = .ok cs) (hr : r ∈ m.roles)
    (hb : b ∈ r.blocks) (h : m.checkBlock cs r.name b = .error err) :
    m.HasTypeError err ∨ ∃ fault, err = .configuration fault ∧ m.HasFault fault := by
  rw [checkBlock] at h
  split at h
  · rename_i hnone
    exact .inr ⟨_, (Except.error.inj h).symm,
      .unknownSubject hr hb (find?_name_eq_none_iff.mp hnone)⟩
  · rename_i d hfind
    obtain ⟨hmem, hname⟩ := mem_of_find?_name hfind
    have hblock : m.HasBlock r b d := ⟨hr, hb, hmem, hname⟩
    obtain ⟨mention, hmention, herr⟩ := Steps.exists_of_forM_eq_error h
    rcases checkMention_eq_error herr with ⟨e, rfl, hcheck⟩ | ⟨names, rfl, name, hname, hno, herr⟩
    · obtain ⟨before, p, after, fault, hsplit, -, -, hfault⟩ := Expression.exists_first_fault hcheck
      exact .inl ⟨cs, r, b, d, e, hcs, hblock, hmention, hcheck, p, by rw [hsplit]; simp, fault,
        hfault⟩
    · exact .inr ⟨_, herr, .unknownAction hblock hmention hname hno⟩

/-! ## Roles -/

theorem checkRoles_eq_ok {seen : List String} {ds : List RoleDecl}
    (h : m.checkRoles cs seen ds = .ok ()) : (ds.map (·.name)).Nodup ∧ (∀ r ∈ ds, r.name ∉ seen) ∧
      ∀ r ∈ ds, ∀ b ∈ r.blocks, m.checkBlock cs r.name b = .ok () := by
  induction ds generalizing seen with
  | nil => simp
  | cons r rest ih =>
    rw [checkRoles] at h
    split at h
    · exact absurd h (by simp)
    · rename_i hseen
      obtain ⟨_, hblocks, hrest⟩ := Steps.check_bind_eq_ok.mp h
      obtain ⟨hnd, hfresh, hall⟩ := ih hrest
      obtain ⟨hnd', hfresh'⟩ := names_cons hseen hnd hfresh
      exact ⟨hnd', hfresh', List.forall_mem_cons.mpr ⟨Steps.forM_eq_ok_iff.mp hblocks, hall⟩⟩

theorem checkRoles_eq_error {seen : List String} {ds : List RoleDecl}
    (h : m.checkRoles cs seen ds = .error err) :
    (∃ name, err = .configuration (.duplicateRole name) ∧
      (name ∈ seen ∧ name ∈ ds.map (·.name) ∨ (ds.map (·.name)).Duplicate name)) ∨
    ∃ r ∈ ds, ∃ b ∈ r.blocks, m.checkBlock cs r.name b = .error err := by
  induction ds generalizing seen with
  | nil => exact nomatch h
  | cons r rest ih =>
    rw [checkRoles] at h
    split at h
    · rename_i hseen
      exact .inl ⟨r.name, (Except.error.inj h).symm, .inl ⟨hseen, List.mem_cons_self⟩⟩
    · rcases Steps.check_bind_eq_error.mp h with hblocks | ⟨_, -, hrest⟩
      · exact .inr ⟨r, List.mem_cons_self, Steps.exists_of_forM_eq_error hblocks⟩
      · rcases ih hrest with ⟨name, herr, hname⟩ | ⟨r', hr', hfault⟩
        · exact .inl ⟨name, herr, repeated_cons hname⟩
        · exact .inr ⟨r', List.mem_cons_of_mem _ hr', hfault⟩

/-! ## Whole models -/

theorem requireEnvironment_eq_ok (h : m.requireEnvironment cs = .ok ()) :
    ∀ name, m.environment = some name → cs.contains name = true := by
  intro name hname
  rw [requireEnvironment, hname] at h
  exact Concepts.require_eq_ok_iff.mp h

theorem wellFormed_of_validate (h : m.validate = .ok ()) : m.WellFormed := by
  obtain ⟨cs, hcs, h⟩ := Steps.check_bind_eq_ok.mp h
  obtain ⟨_, huser, h⟩ := Steps.check_bind_eq_ok.mp h
  obtain ⟨_, henvironment, h⟩ := Steps.check_bind_eq_ok.mp h
  obtain ⟨subjects, hsubjects, h⟩ := Steps.check_bind_eq_ok.mp h
  obtain ⟨hdecls, hbuild, hnames, -⟩ := encodeSubjects_eq_ok hsubjects
  obtain ⟨hroles, -, hblocks⟩ := checkRoles_eq_ok h
  have hmentions {r : RoleDecl} {b : RoleBlock} {d : SubjectDecl} (hd : m.HasBlock r b d) :=
    (checkBlock_eq_ok hnames (hblocks r hd.role b hd.block)).2 d hd
  exact {
    concepts := Concepts.isForest_of_build hcs
    members := fun d hd member hmember name => Concepts.declared_of_build hcs hd hmember
    user := (Concepts.contains_of_build hcs).mp (Concepts.require_eq_ok_iff.mp huser)
    environment := fun name hname =>
      (Concepts.contains_of_build hcs).mp (requireEnvironment_eq_ok henvironment name hname)
    subjects := hnames
    subjectConcepts := fun d hd =>
      (Concepts.contains_of_build hcs).mp (contains_of_encodeSubjects hsubjects d hd)
    actions := by
      rw [← hdecls]
      exact List.forall_mem_map.mpr fun s hs => ActionTree.isForest_of_build (hbuild s hs)
    roles := hroles
    blocks := fun r hr b hb => (checkBlock_eq_ok hnames (hblocks r hr b hb)).1
    selections := by
      intro r b d hd names hmention name hname
      by_contra hno
      have hall := Steps.forM_eq_ok_iff.mp (hmentions hd _ hmention) name hname
      rw [if_neg hno] at hall
      exact absurd hall (by simp)
    conditions := by
      intro cs' hcs' r b d hd e he
      obtain rfl : cs' = cs := Except.ok.inj (hcs'.symm.trans hcs)
      obtain ⟨type, htype, -⟩ := Steps.check_bind_eq_ok.mp (hmentions hd _ he)
      exact (Expression.wellTyped_iff (c := m.context cs' d) hcs').mpr ⟨type, htype⟩ }

theorem validate_eq_error (h : m.validate = .error err) :
    m.HasTypeError err ∨ ∃ fault, err = .configuration fault ∧ m.HasFault fault := by
  rcases Steps.check_bind_eq_error.mp h with hbuild | ⟨cs, hcs, h⟩
  · rcases Concepts.build_eq_error hbuild with
      ⟨error, herr, hencode⟩ | ⟨d, hd, member, type, unknown, herr, hmember, hnames, hno⟩
    · exact .inr ⟨_, herr, .hierarchy hencode⟩
    · exact .inr ⟨_, herr, .memberConcept hd hmember hnames hno⟩
  have hcontains (name : String) : cs.contains name ≠ true → ¬ m.DeclaresConcept name :=
    mt (Concepts.contains_of_build hcs).mpr
  rcases Steps.check_bind_eq_error.mp h with huser | ⟨_, -, h⟩
  · obtain ⟨herr, hno⟩ := Concepts.require_eq_error huser
    exact .inr ⟨_, herr, .user (hcontains _ hno)⟩
  rcases Steps.check_bind_eq_error.mp h with henvironment | ⟨_, -, h⟩
  · rw [requireEnvironment] at henvironment
    split at henvironment
    · rename_i name hname
      obtain ⟨herr, hno⟩ := Concepts.require_eq_error henvironment
      exact .inr ⟨_, herr, .environment hname (hcontains _ hno)⟩
    · exact absurd henvironment (by simp)
  rcases Steps.check_bind_eq_error.mp h with hsubjects | ⟨subjects, -, h⟩
  · rcases encodeSubjects_eq_error hsubjects with
      ⟨name, herr, ⟨hseen, -⟩ | hdup⟩ | ⟨d, hd, ⟨herr, hno⟩ | ⟨error, herr, hencode⟩⟩
    · exact absurd hseen List.not_mem_nil
    · exact .inr ⟨_, herr, .duplicateSubject hdup⟩
    · exact .inr ⟨_, herr, .subjectConcept hd (hcontains _ hno)⟩
    · exact .inr ⟨_, herr, .actionHierarchy hd hencode⟩
  · rcases checkRoles_eq_error h with ⟨name, herr, ⟨hseen, -⟩ | hdup⟩ | ⟨r, hr, b, hb, hblock⟩
    · exact absurd hseen List.not_mem_nil
    · exact .inr ⟨_, herr, .duplicateRole hdup⟩
    · exact checkBlock_eq_error hcs hr hb hblock

/-- The checks pass exactly the models that are well formed. -/
theorem validate_eq_ok_iff : m.validate = .ok () ↔ m.WellFormed := by
  refine ⟨wellFormed_of_validate, fun hm => ?_⟩
  cases h : m.validate with
  | ok _ => rfl
  | error err =>
    rcases validate_eq_error h with htype | ⟨fault, -, hfault⟩
    · exact absurd hm.conditions htype.not_conditionsTyped
    · exact absurd hm.toDeclared hfault.not_declared

/-- As long as no table outgrows its indices, compiling accepts exactly the well-formed models.
Any other one is refused for a condition that does not type-check, with the error of that check, or
for a fault that it really has in its names and references.  Once the graph is built nothing fails
any more: the tables pass the verification, and the model has its digest. -/
theorem compile_accepts (h : m.FitsIndices) (sourceId : String) :
    ((∃ p, m.compile sourceId = .ok p) ↔ m.WellFormed) ∧
    (∀ err, m.compile sourceId = .error err →
      m.HasTypeError err ∧ ¬ m.ConditionsTyped ∨
      ∃ fault, err = .configuration fault ∧ m.HasFault fault ∧ ¬ m.Declared) ∧
    ∀ g, m.builtGraph = .ok g → g.tables.verify = .ok () ∧
      ∃ p, m.compile sourceId = .ok p ∧ p.schemaVersion = m.schemaVersion sourceId := by
  refine ⟨?_, fun err herr => ?_, fun g hg => ?_⟩
  · rw [← validate_eq_ok_iff, Steps.exists_ok_congr fun _ => compile_eq_error_iff_validate h]
    exact ⟨fun ⟨_, hvalid⟩ => hvalid, fun hvalid => ⟨(), hvalid⟩⟩
  · rcases validate_eq_error ((compile_eq_error_iff_validate h).mp herr) with
      htype | ⟨fault, hfault, hm⟩
    · exact .inl ⟨htype, htype.not_conditionsTyped⟩
    · exact .inr ⟨fault, hfault, hm, hm.not_declared⟩
  · refine ⟨(wellPlaced_of_builtGraph hg).verify, ?_⟩
    obtain ⟨p, hp⟩ := (Steps.exists_ok_congr fun _ => compile_eq_error_iff).mpr ⟨g, hg⟩
    obtain ⟨_, _, hcompiled⟩ := compile_eq_ok hp
    exact ⟨p, hp, hcompiled.schemaVersion⟩

/-- The second model differs from the first in a condition that no data leads to. -/
theorem compile_accepts_unreachable :
    let model (condition : Expression) : Model := {
      user := "Person"
      concepts := [{ name := "Person", members := [("age", .number)] }]
      subjects := [{ name := "Page", concept := "Person", actions := [⟨"read", none⟩] }]
      roles := [{
        name := "Guest"
        blocks := [⟨"Page", [.whenElse (.boolean true none) [.allow ["read"]]
          [.whenever condition [.forbidEverything]]]⟩] }] }
    let m := model (Expression.subject.get "age")
    let m' := model (Expression.subject.get "rank")
    let err := PolicyError.typeInference "subject.rank" (.unknownMember "rank" "Person")
    m.FitsIndices ∧ (∃ p, m.compile "pages" = .ok p) ∧
      m'.FitsIndices ∧ m'.compile "pages" = .error err ∧ m'.HasTypeError err := by
  intro model m m' err
  have hm : m.FitsIndices := fitsIndices_of_nodeCount (by decide)
  have hm' : m'.FitsIndices := fitsIndices_of_nodeCount (by decide)
  have herr : m'.compile "pages" = .error err := (compile_eq_error_iff_validate hm').mpr rfl
  refine ⟨hm, (compile_accepts hm "pages").1.mpr (validate_eq_ok_iff.mp rfl), hm', herr, ?_⟩
  rcases (compile_accepts hm' "pages").2.1 err herr with ⟨htype, -⟩ | ⟨fault, hfault, -⟩
  · exact htype
  · exact nomatch hfault

end Model

end AccessPolicy
