import AccessPolicy.Compile
import AccessPolicy.Proofs.ActionTree
import AccessPolicy.Proofs.Rules

/-!
# Compilation — what a compiled policy consists of

A policy that was compiled has the subjects and roles of its model under their names, each once.
The rules of a role for a subject are the ones for the permissions of all its blocks for it, and
their conditions are read from the tables that the policy keeps.
-/

namespace AccessPolicy

/-- Names that were checked one after the other against the ones seen before. -/
theorem names_cons {α : Type} {name : α → String} {seen : List String} {a : α} {rest : List α}
    (ha : name a ∉ seen) (hnd : (rest.map name).Nodup)
    (hfresh : ∀ b ∈ rest, name b ∉ name a :: seen) :
    ((a :: rest).map name).Nodup ∧ ∀ b ∈ a :: rest, name b ∉ seen := by
  refine ⟨?_, List.forall_mem_cons.mpr ⟨ha, fun b hb hmem => ?_⟩⟩
  · rw [List.map_cons, List.nodup_cons]
    refine ⟨fun hmem => ?_, hnd⟩
    obtain ⟨b, hb, he⟩ := List.mem_map.mp hmem
    exact hfresh b hb (by rw [he]; exact List.mem_cons_self)
  · exact hfresh b hb (List.mem_cons_of_mem _ hmem)

namespace Role

theorem lookup_cons_eq_ite {α : Type} (s name : String) (a : α) (rest : List (String × α)) :
    ((s, a) :: rest).lookup name = if s = name then some a else rest.lookup name := by
  rw [List.lookup_cons]
  by_cases h : s = name
  · simp [h]
  · rw [if_neg h, beq_eq_false_iff_ne.mpr (Ne.symm h)]

theorem lookup_addTo (subject name : String) (more : List Rule)
    (rules : List (String × List Rule)) :
    ((addTo subject more rules).lookup name).getD [] =
      (rules.lookup name).getD [] ++ if subject = name then more else [] := by
  induction rules with
  | nil =>
    rw [addTo, lookup_cons_eq_ite]
    split <;> rfl
  | cons entry rest ih =>
    obtain ⟨s, old⟩ := entry
    rw [addTo]
    split
    · rename_i hs
      subst hs
      rw [lookup_cons_eq_ite, lookup_cons_eq_ite]
      split <;> simp
    · rename_i hs
      rw [lookup_cons_eq_ite, lookup_cons_eq_ite]
      split
      · rename_i hname
        rw [if_neg fun h => hs (hname.trans h.symm)]
        simp
      · exact ih

theorem rulesFor_extend (r : Role) (subject name : String) (more : List Rule) :
    (r.extend subject more).rulesFor name =
      r.rulesFor name ++ if subject = name then more else [] :=
  lookup_addTo subject name more r.rules

end Role

namespace Model

variable {cs : Concepts} {subjects : List EncodedSubject}

/-! ## Subjects -/

theorem encodeSubjects_eq_ok {seen : List String} {ds : List SubjectDecl}
    (h : encodeSubjects cs seen ds = .ok subjects) :
    subjects.map (·.1) = ds ∧ (∀ s ∈ subjects, ActionTree.build s.1 = .ok s.2) ∧
      (ds.map (·.name)).Nodup ∧ ∀ d ∈ ds, d.name ∉ seen := by
  induction ds generalizing seen subjects with
  | nil =>
    obtain rfl := Except.ok.inj h
    simp
  | cons d rest ih =>
    rw [encodeSubjects] at h
    split at h
    · obtain ⟨_, herror, -⟩ := Steps.check_bind_eq_ok.mp h
      exact absurd herror (by simp)
    · rename_i hseen
      obtain ⟨_, -, h⟩ := Steps.check_bind_eq_ok.mp h
      obtain ⟨actions, hactions, h⟩ := Steps.check_bind_eq_ok.mp h
      obtain ⟨others, hothers, h⟩ := Steps.check_bind_eq_ok.mp h
      obtain rfl := Except.ok.inj h
      obtain ⟨hdecls, hbuild, hnd, hfresh⟩ := ih hothers
      refine ⟨by rw [List.map_cons, hdecls], ?_, names_cons hseen hnd hfresh⟩
      exact List.forall_mem_cons.mpr ⟨hactions, hbuild⟩

theorem findSubject_eq_ok {role name : String} {id : Nat} {s : EncodedSubject}
    (h : findSubject role name subjects = .ok (id, s)) :
    subjects[id]? = some s ∧ s.1.name = name := by
  unfold findSubject at h
  split at h
  · exact absurd h (by simp)
  · rename_i id' hid
    split at h
    · exact absurd h (by simp)
    · rename_i s' hs'
      obtain ⟨rfl, rfl⟩ := Prod.mk.inj (Except.ok.inj h)
      refine ⟨hs', ?_⟩
      -- what stands at the found position has the name
      obtain ⟨hlt, hname, -⟩ := List.findIdx?_eq_some_iff_getElem.mp hid
      rw [List.getElem?_eq_getElem hlt] at hs'
      rw [← Option.some.inj hs']
      simpa using hname

/-! ## Roles -/

/-- The rules of the role for each subject are the ones for the permissions of its blocks. -/
structure CompiledRole (subjects : List EncodedSubject) (g : Graph) (d : RoleDecl) (r : Role) :
    Prop where
  name : r.name = d.name
  rules : ∀ {id : Nat} {s : EncodedSubject}, subjects[id]? = some s →
    List.Forall₂ (Renders ⟨d.name, s.1.name, id, s.2⟩ g)
      (guardedAll [] (statementsFor s.1.name d)) (r.rulesFor s.1.name)

theorem CompiledRole.mono {g g' : Graph} {d : RoleDecl} {r : Role} (hext : g.Extends g')
    (h : CompiledRole subjects g d r) : CompiledRole subjects g' d r :=
  ⟨h.name, fun hs => (h.rules hs).imp fun _ _ hr => hr.mono hext⟩

theorem blockRules_eq_ok {role : String} {b : RoleBlock} {g g' : Graph} {rules : List Rule}
    (hg : g.WellPlaced) (h : blockRules role subjects b g = (.ok rules, g')) :
    g.Extends g' ∧ g'.WellPlaced ∧ ∃ id s, subjects[id]? = some s ∧ s.1.name = b.subject ∧
      List.Forall₂ (Renders ⟨role, b.subject, id, s.2⟩ g') (guardedAll [] b.statements) rules := by
  unfold blockRules at h
  split at h
  · exact absurd (congrArg Prod.fst h) (by simp)
  · rename_i id d actions hfind
    obtain ⟨hs, hname⟩ := findSubject_eq_ok hfind
    split at h
    · exact absurd (congrArg Prod.fst h) (by simp)
    · rename_i s hrun
      obtain ⟨hrules, rfl⟩ := Prod.mk.inj h
      obtain ⟨hext, hwell, new, hnew, hall⟩ :=
        Rule.rendered_addBlock b.statements hg (hg.guards_true id) hrun
      rw [← Except.ok.inj hrules, hnew]
      exact ⟨hext, hwell, id, (d, actions), hs, hname, hall⟩

/-- Subjects with the same name are one subject. -/
theorem subject_unique (hnd : (subjects.map (·.1.name)).Nodup) {id id' : Nat}
    {s s' : EncodedSubject} (hs : subjects[id]? = some s) (hs' : subjects[id']? = some s')
    (hname : s.1.name = s'.1.name) : id = id' ∧ s = s' := by
  have hlt : id < (subjects.map (·.1.name)).length := by
    rw [List.length_map]
    exact (List.getElem?_eq_some_iff.mp hs).1
  have hid : id = id' := by
    apply (List.getElem?_inj hlt hnd).mp
    rw [List.getElem?_map, List.getElem?_map, hs, hs', Option.map_some, Option.map_some, hname]
  subst hid
  exact ⟨rfl, Option.some.inj (hs.symm.trans hs')⟩

theorem roleBlocks_eq_ok (hnd : (subjects.map (·.1.name)).Nodup) {r r' : Role}
    {bs : List RoleBlock} {g g' : Graph} (hg : g.WellPlaced)
    (h : roleBlocks subjects r bs g = (.ok r', g')) :
    g.Extends g' ∧ g'.WellPlaced ∧ r'.name = r.name ∧
      ∀ {id : Nat} {s : EncodedSubject}, subjects[id]? = some s →
        ∃ more, r'.rulesFor s.1.name = r.rulesFor s.1.name ++ more ∧
          List.Forall₂ (Renders ⟨r.name, s.1.name, id, s.2⟩ g')
            (guardedAll [] ((bs.filter (·.subject = s.1.name)).flatMap (·.statements))) more := by
  induction bs generalizing r g with
  | nil =>
    obtain ⟨hr, rfl⟩ := Prod.mk.inj h
    rw [← Except.ok.inj hr]
    exact ⟨.refl _, hg, rfl, fun _ => ⟨[], (List.append_nil _).symm, .nil⟩⟩
  | cons b rest ih =>
    obtain ⟨rules, g₁, hblock, hrest⟩ := Steps.bind_eq_ok.mp h
    obtain ⟨hext, hg₁, id', s', hs', hname', hrules⟩ := blockRules_eq_ok hg hblock
    obtain ⟨hext', hg', hname, hmore⟩ := ih hg₁ hrest
    refine ⟨hext.trans hext', hg', hname, fun {id s} hs => ?_⟩
    obtain ⟨more, heq, hall⟩ := hmore hs
    rw [Role.rulesFor_extend] at heq
    -- the rules of the block are appended to those of its subject alone
    by_cases hb : b.subject = s.1.name
    · obtain ⟨rfl, rfl⟩ := subject_unique hnd hs' hs (hname'.trans hb)
      rw [if_pos hb, List.append_assoc] at heq
      refine ⟨rules ++ more, heq, ?_⟩
      rw [List.filter_cons_of_pos (by simpa using hb), List.flatMap_cons, guardedAll_append]
      rw [hb] at hrules
      exact List.rel_append (hrules.imp fun _ _ hr => hr.mono hext') hall
    · rw [if_neg hb, List.append_nil] at heq
      refine ⟨more, heq, ?_⟩
      rw [List.filter_cons_of_neg (by simpa using hb)]
      exact hall

theorem compileRoles_eq_ok (hnd : (subjects.map (·.1.name)).Nodup) {seen : List String}
    {ds : List RoleDecl} {rs : List Role} {g g' : Graph} (hg : g.WellPlaced)
    (h : compileRoles subjects seen ds g = (.ok rs, g')) :
    g.Extends g' ∧ g'.WellPlaced ∧ List.Forall₂ (CompiledRole subjects g') ds rs ∧
      (ds.map (·.name)).Nodup ∧ ∀ d ∈ ds, d.name ∉ seen := by
  induction ds generalizing seen rs g with
  | nil =>
    obtain ⟨hrs, rfl⟩ := Prod.mk.inj h
    rw [← Except.ok.inj hrs]
    exact ⟨.refl _, hg, .nil, List.nodup_nil, by simp⟩
  | cons d rest ih =>
    rw [compileRoles] at h
    split at h
    · obtain ⟨_, _, herror, -⟩ := Steps.bind_eq_ok.mp h
      exact nomatch congrArg Prod.fst herror
    · rename_i hseen
      obtain ⟨r, g₁, hblocks, h⟩ := Steps.bind_eq_ok.mp h
      obtain ⟨others, g₂, hothers, h⟩ := Steps.bind_eq_ok.mp h
      obtain ⟨hrs, rfl⟩ := Prod.mk.inj h
      rw [← Except.ok.inj hrs]
      obtain ⟨hext, hg₁, hname, hrules⟩ := roleBlocks_eq_ok hnd hg hblocks
      obtain ⟨hext', hg₂, hall, hnames, hfresh⟩ := ih hg₁ hothers
      have hrole : CompiledRole subjects g₁ d r := by
        refine ⟨hname, fun hs => ?_⟩
        obtain ⟨more, heq, hmore⟩ := hrules hs
        rw [heq]
        exact hmore
      exact ⟨hext.trans hext', hg₂, .cons (hrole.mono hext') hall, names_cons hseen hnames hfresh⟩

/-! ## The whole model -/

theorem foldl_addSubject (ds : List SubjectDecl) {g : Graph} (hg : g.WellPlaced) :
    (ds.foldl (fun g d => g.addSubject d.concept) g).WellPlaced ∧
      (ds.foldl (fun g d => g.addSubject d.concept) g).subjects.length =
        g.subjects.length + ds.length := by
  induction ds generalizing g with
  | nil => exact ⟨hg, rfl⟩
  | cons d rest ih =>
    obtain ⟨hwell, hlength⟩ := ih (hg.addSubject d.concept)
    refine ⟨hwell, hlength.trans ?_⟩
    rw [Graph.addSubject, List.length_append, List.length_singleton, List.length_cons]
    omega

/-- What a policy takes from its model, with the encoded subjects and the finished graph. -/
structure Compiled (m : Model) (sourceId : String) (p : Policy) (subjects : List EncodedSubject)
    (g : Graph) : Prop where
  schemaVersion : p.schemaVersion = m.schemaVersion sourceId
  concepts : Concepts.build m.concepts = .ok p.concepts
  decls : subjects.map (·.1) = m.subjects
  actions : ∀ s ∈ subjects, ActionTree.build s.1 = .ok s.2
  subjectNames : (m.subjects.map (·.name)).Nodup
  registered : subjects.length ≤ g.subjects.length
  wellPlaced : g.WellPlaced
  common : p.common = g.common
  tables : p.subjects = policySubjects subjects g.tables.subjects
  roleNames : (m.roles.map (·.name)).Nodup
  roles : List.Forall₂ (CompiledRole subjects g) m.roles p.roles

variable {m : Model} {sourceId : String} {p : Policy} {g : Graph}

theorem compile_eq_ok (h : m.compile sourceId = .ok p) :
    ∃ subjects g, Compiled m sourceId p subjects g := by
  unfold compile at h
  obtain ⟨concepts, hconcepts, h⟩ := Steps.check_bind_eq_ok.mp h
  obtain ⟨_, -, h⟩ := Steps.check_bind_eq_ok.mp h
  obtain ⟨_, -, h⟩ := Steps.check_bind_eq_ok.mp h
  obtain ⟨subjects, hsubjects, h⟩ := Steps.check_bind_eq_ok.mp h
  obtain ⟨hdecls, hactions, hnames, -⟩ := encodeSubjects_eq_ok hsubjects
  have hnd : (subjects.map (·.1.name)).Nodup := by
    rw [← hdecls, List.map_map] at hnames
    exact hnames
  obtain ⟨hstart, hlength⟩ := foldl_addSubject m.subjects
    (Graph.wellPlaced_new concepts m.user m.environment)
  cases hrun : compileRoles subjects [] m.roles (m.initialGraph concepts) with
  | mk result g =>
    rw [hrun] at h
    obtain ⟨roles, hresult, hverify⟩ := Steps.check_bind_eq_ok.mp h
    obtain ⟨_, -, hp⟩ := Steps.check_bind_eq_ok.mp hverify
    obtain rfl := Except.ok.inj hp
    rw [hresult] at hrun
    -- the roles are compiled on the graph that has all subjects registered
    obtain ⟨hext, hwell, hroles, hroleNames, -⟩ := compileRoles_eq_ok hnd hstart hrun
    refine ⟨subjects, g, rfl, hconcepts, hdecls, hactions, hnames, ?_, hwell, rfl, rfl, hroleNames,
      hroles⟩
    calc subjects.length
      _ = m.subjects.length := by rw [← hdecls, List.length_map]
      _ = (m.initialGraph concepts).subjects.length := (hlength.trans (Nat.zero_add _)).symm
      _ ≤ g.subjects.length := hext.length_subjects

namespace Compiled

variable {subjects : List EncodedSubject}

theorem encodedNames (h : Compiled m sourceId p subjects g) : (subjects.map (·.1.name)).Nodup := by
  have hnd := h.subjectNames
  rw [← h.decls, List.map_map] at hnd
  exact hnd

/-- A declared subject is found under its name, with the table of its number. -/
theorem subject?_eq (h : Compiled m sourceId p subjects g) {id : Nat} {s : EncodedSubject}
    (hs : subjects[id]? = some s) :
    p.subject? s.1.name = some ⟨s.1.name, s.1.concept, s.2, (g.view id).own⟩ := by
  have hlen : subjects.length ≤ g.tables.subjects.length := by
    rw [Graph.tables, List.length_map]
    exact h.registered
  have hnames : p.subjects.map (·.name) = subjects.map (·.1.name) := by
    calc p.subjects.map (·.name)
      _ = ((subjects.zip g.tables.subjects).map Prod.fst).map (·.1.name) := by
        rw [h.tables, policySubjects, List.map_map, List.map_map]
        rfl
      _ = subjects.map (·.1.name) := by rw [List.map_fst_zip hlen]
  -- the subjects are registered in order, so the number of one is its position
  have hid : id < g.subjects.length :=
    Nat.lt_of_lt_of_le (List.getElem?_eq_some_iff.mp hs).1 h.registered
  have htable : g.tables.subjects[id]? = some (g.view id).own := by
    rw [Graph.tables, List.getElem?_map, Graph.view, List.getElem?_eq_getElem hid]
    rfl
  have hpair : (subjects.zip g.tables.subjects)[id]? = some (s, (g.view id).own) :=
    List.getElem?_zip_eq_some.mpr ⟨hs, htable⟩
  have hmem : ⟨s.1.name, s.1.concept, s.2, (g.view id).own⟩ ∈ p.subjects := by
    apply List.mem_of_getElem? (i := id)
    rw [h.tables, policySubjects, List.getElem?_map, hpair]
    rfl
  exact find?_name (by rw [hnames]; exact h.encodedNames) hmem

theorem exists_encoded (h : Compiled m sourceId p subjects g) {d : SubjectDecl}
    (hd : d ∈ m.subjects) : ∃ (id : Nat) (t : ActionTree), subjects[id]? = some (d, t) := by
  rw [← h.decls] at hd
  obtain ⟨s, hs, rfl⟩ := List.mem_map.mp hd
  obtain ⟨id, hid⟩ := List.getElem?_of_mem hs
  exact ⟨id, s.2, hid⟩

/-- The roles of the policy are found under the names of the declared ones. -/
theorem role?_rel (h : Compiled m sourceId p subjects g) (name : String) :
    Option.Rel (CompiledRole subjects g) (m.roles.find? (·.name = name)) (p.role? name) := by
  have hroles := h.roles
  unfold Policy.role?
  generalize m.roles = ds at hroles
  generalize p.roles = rs at hroles
  -- both searches stop at the same place, as paired roles have one name
  induction hroles with
  | nil => exact .none
  | @cons d r ds rs hrole _ ih =>
    rw [List.find?_cons, List.find?_cons, hrole.name]
    by_cases hname : d.name = name
    · simpa [hname] using hrole
    · simpa [hname] using ih

theorem policyRoleNames (h : Compiled m sourceId p subjects g) :
    (p.roles.map (·.name)).Nodup := by
  have hnames : p.roles.map (·.name) = m.roles.map (·.name) := by
    have hroles := h.roles
    generalize m.roles = ds at hroles
    generalize p.roles = rs at hroles
    induction hroles with
    | nil => rfl
    | cons hrole _ ih => rw [List.map_cons, List.map_cons, hrole.name, ih]
  rw [hnames]
  exact h.roleNames

/-- A subject of the policy has the table of its number. -/
theorem exists_number (h : Compiled m sourceId p subjects g) {s : PolicySubject}
    (hs : s ∈ p.subjects) : ∃ (id : Nat) (d : SubjectDecl) (t : ActionTree),
      subjects[id]? = some (d, t) ∧ s = ⟨d.name, d.concept, t, (g.view id).own⟩ := by
  rw [h.tables, policySubjects] at hs
  obtain ⟨⟨⟨d, t⟩, nodes⟩, hmem, rfl⟩ := List.mem_map.mp hs
  obtain ⟨id, hid⟩ := List.getElem?_of_mem hmem
  obtain ⟨hencoded, hnodes⟩ := List.getElem?_zip_eq_some.mp hid
  refine ⟨id, d, t, hencoded, ?_⟩
  -- the view of a registered number shows the table that stands there
  rw [Graph.tables, List.getElem?_map, Option.map_eq_some_iff] at hnodes
  obtain ⟨table, htable, rfl⟩ := hnodes
  rw [Graph.view, htable]
  rfl

end Compiled

end Model

end AccessPolicy
