import AccessPolicy.Proofs.Interpretation

/-!
# Role independence — what a role decides does not depend on the others

All roles of a model share one graph, so another role may move the conditions of this one to other
indices.  The rules stay the ones for the same permissions, though, and match where these are
reached: of two models that differ in their other roles, requests under the common ones are answered
alike.
-/

namespace AccessPolicy

namespace Evaluator

/-- Rules for the same permissions match alike, in whichever graph their conditions are stored. -/
theorem matchedRules_eq_of_renders {c : RuleContext} {g g' : Graph} (hfits : g.Fits c.scope)
    (hfits' : g'.Fits c.scope) {values values' : NodeIndex → Json} {cs : Concepts}
    {data : Root → Json}
    (hvalues : ∀ {i e}, (g.view c.scope).Spells i e → values i = e.evaluate cs data)
    (hvalues' : ∀ {i e}, (g'.view c.scope).Spells i e → values' i = e.evaluate cs data)
    {ps : List GuardedPermission} {rules rules' : List Rule}
    (hall : List.Forall₂ (Renders c g) ps rules) (hall' : List.Forall₂ (Renders c g') ps rules')
    (role : String) (index : Nat) :
    matchedRules values role index rules = matchedRules values' role index rules' := by
  induction hall generalizing rules' index with
  | nil =>
    cases hall'
    rfl
  | cons hrule _ ih =>
    cases hall' with
    | cons hrule' hrest' =>
      obtain ⟨t, hspells, ht⟩ := hrule.condition hfits
      obtain ⟨t', hspells', ht'⟩ := hrule'.condition hfits'
      have hmode := hrule.mode.trans hrule'.mode.symm
      have hactions := Except.ok.inj (hrule.actions.symm.trans hrule'.actions)
      -- both conditions stand for the guards of one permission
      rw [matchedRules, matchedRules, hvalues hspells, hvalues' hspells', ht, ht', ih hrest',
        hrule.mask, hrule'.mask, hmode, hactions]

section

variable {e e' : Evaluator} {r : AccessRequest} {s s' : PolicySubject}
  (hs : e.requireSubject r.subject = .ok s) (hs' : e'.requireSubject r.subject = .ok s')
  (hactions : s.actions = s'.actions) (hmerge : e.plainMerge r s = e'.plainMerge r s')
include hs hs' hactions hmerge

/-- Evaluators decide alike where they find subjects of one name with the same actions and match the
same rules; the tables of the subjects may differ. -/
theorem plainDecide_congr (hname : s.name = s'.name) (action : String) :
    e.plainDecide r action = e'.plainDecide r action := by
  have haction : requireAction s action = requireAction s' action := by
    rw [requireAction, requireAction, hname, hactions]
  rw [plainDecide, plainDecide, hs, hs']
  show (requireAction s action >>= _) = (requireAction s' action >>= _)
  rw [haction, hmerge, hname]

theorem plainActionsWith_congr (wanted : Resolution) :
    e.plainActionsWith r wanted = e'.plainActionsWith r wanted := by
  rw [plainActionsWith, plainActionsWith, hs, hs']
  show (e.plainMerge r s >>= _) = (e'.plainMerge r s' >>= _)
  rw [hmerge, hactions]

end

end Evaluator

namespace Model

variable {m m' : Model} {sourceId sourceId' : String} {p p' : Policy}
  {subjects subjects' : List EncodedSubject} {g g' : Graph}

/-- Subjects are encoded in one way only. -/
theorem encoded_unique (hdecls : subjects.map (·.1) = subjects'.map (·.1))
    (hactions : ∀ s ∈ subjects, ActionTree.build s.1 = .ok s.2)
    (hactions' : ∀ s ∈ subjects', ActionTree.build s.1 = .ok s.2) : subjects = subjects' := by
  induction subjects generalizing subjects' with
  | nil =>
    cases subjects' with
    | nil => rfl
    | cons => exact absurd hdecls (by simp)
  | cons s rest ih =>
    cases subjects' with
    | nil => exact absurd hdecls (by simp)
    | cons s' rest' =>
      rw [List.forall_mem_cons] at hactions hactions'
      obtain ⟨hdecl, hrest⟩ := List.cons.inj hdecls
      have htree := hactions.1.symm.trans ((congrArg ActionTree.build hdecl).trans hactions'.1)
      rw [ih hrest hactions.2 hactions'.2, Prod.ext hdecl (Except.ok.inj htree)]

/-- Some role of the name is declared by both models, and in the same way. -/
def DeclaresAlike (m m' : Model) (name : String) : Prop :=
  ∃ d, d ∈ m.roles ∧ d ∈ m'.roles ∧ d.name = name

namespace Compiled

theorem exists_role (h : Compiled m sourceId p subjects g) {d : RoleDecl} (hd : d ∈ m.roles) :
    ∃ role, p.role? d.name = some role ∧ CompiledRole subjects g d role := by
  have hrel := h.role?_rel d.name
  rw [find?_name h.roleNames hd] at hrel
  cases hrole : p.role? d.name with
  | none =>
    rw [hrole] at hrel
    cases hrel
  | some role =>
    rw [hrole] at hrel
    cases hrel with
    | some hcompiled => exact ⟨role, rfl, hcompiled⟩

theorem fits_view (h : Compiled m sourceId p subjects g) (hfits : m.Fits p) {id : Nat}
    {s : EncodedSubject} (hs : subjects[id]? = some s) : g.Fits id :=
  ⟨by rw [← h.common]; exact hfits.common,
    hfits.nodes _ (Evaluator.mem_subjects (h.subject?_eq hs))⟩

theorem subject?_eq_none (h : Compiled m sourceId p subjects g) {name : String}
    (hname : name ∉ m.subjects.map (·.name)) : p.subject? name = none := by
  cases hs : p.subject? name with
  | none => rfl
  | some s =>
    -- every subject of the policy is a declared one
    have hfound := List.find?_some hs
    obtain ⟨id, d, t, hid, rfl⟩ := h.exists_number (Evaluator.mem_subjects hs)
    refine absurd ?_ hname
    rw [← of_decide_eq_true hfound, ← h.decls]
    exact List.mem_map_of_mem (List.mem_map_of_mem (List.mem_of_getElem? hid))

section

variable (h : Compiled m sourceId p subjects g) (h' : Compiled m' sourceId' p' subjects g')
include h h'

/-- The subject of a request is found in both policies, under one number, or refused by both. -/
theorem requireSubject_cases (settings settings' : Settings) (name : String) :
    (∃ (id : Nat) (d : SubjectDecl) (t : ActionTree), subjects[id]? = some (d, t) ∧
      Evaluator.requireSubject ⟨p, settings⟩ name =
        .ok ⟨d.name, d.concept, t, (g.view id).own⟩ ∧
      Evaluator.requireSubject ⟨p', settings'⟩ name =
        .ok ⟨d.name, d.concept, t, (g'.view id).own⟩) ∨
    ∃ err, Evaluator.requireSubject ⟨p, settings⟩ name = .error err ∧
      Evaluator.requireSubject ⟨p', settings'⟩ name = .error err := by
  by_cases hdeclared : name ∈ m.subjects.map (·.name)
  · obtain ⟨d, hd, rfl⟩ := List.mem_map.mp hdeclared
    obtain ⟨id, t, hid⟩ := h.exists_encoded hd
    refine .inl ⟨id, d, t, hid, ?_, ?_⟩
    · rw [Evaluator.requireSubject, h.subject?_eq hid]
    · rw [Evaluator.requireSubject, h'.subject?_eq hid]
  · have hdeclared' : name ∉ m'.subjects.map (·.name) := by rwa [← h'.decls, h.decls]
    refine .inr ⟨.usage (.unknownSubject name), ?_, ?_⟩
    · rw [Evaluator.requireSubject, h.subject?_eq_none hdeclared]
    · rw [Evaluator.requireSubject, h'.subject?_eq_none hdeclared']

/-- The roles of a request that are declared alike match alike. -/
theorem matchedRoles_eq {id : Nat} {d : SubjectDecl} {t : ActionTree}
    (hid : subjects[id]? = some (d, t)) (hfits : g.Fits id) (hfits' : g'.Fits id)
    {values values' : NodeIndex → Json} {cs : Concepts} {data : Root → Json}
    (hvalues : ∀ {i e}, (g.view id).Spells i e → values i = e.evaluate cs data)
    (hvalues' : ∀ {i e}, (g'.view id).Spells i e → values' i = e.evaluate cs data)
    {names : List String} (hnames : ∀ name ∈ names, DeclaresAlike m m' name) :
    Evaluator.matchedRoles values d.name (names.filterMap p.role?) =
      Evaluator.matchedRoles values' d.name (names.filterMap p'.role?) := by
  induction names with
  | nil => rfl
  | cons name rest ih =>
    obtain ⟨⟨decl, hdecl, hdecl', rfl⟩, hrest⟩ := List.forall_mem_cons.mp hnames
    obtain ⟨role, hrole, hcompiled⟩ := h.exists_role hdecl
    obtain ⟨role', hrole', hcompiled'⟩ := h'.exists_role hdecl'
    have hrules := Evaluator.matchedRules_eq_of_renders hfits hfits' hvalues hvalues'
      (hcompiled.rules hid) (hcompiled'.rules hid) decl.name 0
    have hothers := ih hrest
    unfold Evaluator.matchedRoles at hothers ⊢
    rw [List.filterMap_cons_some hrole, List.filterMap_cons_some hrole', List.flatMap_cons,
      List.flatMap_cons, hcompiled.name, hcompiled'.name, hrules, hothers]

variable (hconcepts : p.concepts = p'.concepts) (hfits : m.Fits p) (hfits' : m'.Fits p')
  {r : AccessRequest} (hroles : ∀ name ∈ r.roles, DeclaresAlike m m' name)
include hconcepts hfits hfits' hroles

/-- Without a cache, the two policies find the same rules for a declared subject. -/
theorem plainMerge_eq {id : Nat} {d : SubjectDecl} {t : ActionTree}
    (hid : subjects[id]? = some (d, t)) (settings settings' : Settings) :
    Evaluator.plainMerge ⟨p, settings⟩ r ⟨d.name, d.concept, t, (g.view id).own⟩ =
      Evaluator.plainMerge ⟨p', settings'⟩ r ⟨d.name, d.concept, t, (g'.view id).own⟩ := by
  have hactive : Evaluator.activeRoles ⟨p, settings⟩ r.roles = .ok (r.roles.filterMap p.role?) :=
    h.activeRoles_eq fun _ name hname => by
      obtain ⟨decl, hdecl, -, rfl⟩ := hroles name hname
      exact List.mem_map_of_mem hdecl
  have hactive' : Evaluator.activeRoles ⟨p', settings'⟩ r.roles =
      .ok (r.roles.filterMap p'.role?) :=
    h'.activeRoles_eq fun _ name hname => by
      obtain ⟨decl, -, hdecl', rfl⟩ := hroles name hname
      exact List.mem_map_of_mem hdecl'
  let s : PolicySubject := ⟨d.name, d.concept, t, (g.view id).own⟩
  let s' : PolicySubject := ⟨d.name, d.concept, t, (g'.view id).own⟩
  have hvalues {i : NodeIndex} {e : Expression} (he : (g.view id).Spells i e) :
      (Evaluator.freshValues ⟨p, settings⟩ r s).value i = e.evaluate p.concepts r.data :=
    h.freshValues_spells hfits.concepts rfl he
  have hvalues' {i : NodeIndex} {e : Expression} (he : (g'.view id).Spells i e) :
      (Evaluator.freshValues ⟨p', settings'⟩ r s').value i = e.evaluate p.concepts r.data := by
    rw [hconcepts]
    exact h'.freshValues_spells hfits'.concepts rfl he
  have hmatched := h.matchedRoles_eq h' hid (h.fits_view hfits hid) (h'.fits_view hfits' hid)
    hvalues hvalues' hroles
  rw [Evaluator.plainMerge, Evaluator.plainMerge, hactive, hactive']
  exact congrArg (fun matched => Except.ok (MergedRules.mk matched)) hmatched

theorem plainDecide_eq_plainDecide (settings settings' : Settings) (action : String) :
    Evaluator.plainDecide ⟨p, settings⟩ r action =
      Evaluator.plainDecide ⟨p', settings'⟩ r action := by
  rcases h.requireSubject_cases h' settings settings' r.subject with
    ⟨id, d, t, hid, hs, hs'⟩ | ⟨err, hs, hs'⟩
  · have hmerge := h.plainMerge_eq h' hconcepts hfits hfits' hroles hid settings settings'
    exact Evaluator.plainDecide_congr hs hs' rfl hmerge rfl action
  · rw [Evaluator.plainDecide_eq_error hs, Evaluator.plainDecide_eq_error hs']

theorem plainActionsWith_eq_plainActionsWith (settings settings' : Settings)
    (wanted : Resolution) : Evaluator.plainActionsWith ⟨p, settings⟩ r wanted =
      Evaluator.plainActionsWith ⟨p', settings'⟩ r wanted := by
  rcases h.requireSubject_cases h' settings settings' r.subject with
    ⟨id, d, t, hid, hs, hs'⟩ | ⟨err, hs, hs'⟩
  · have hmerge := h.plainMerge_eq h' hconcepts hfits hfits' hroles hid settings settings'
    exact Evaluator.plainActionsWith_congr hs hs' rfl hmerge wanted
  · rw [Evaluator.plainActionsWith_eq_error hs, Evaluator.plainActionsWith_eq_error hs']

end

/-- The list of actions of a declared subject is no error. -/
theorem exists_plainActionsWith (h : Compiled m sourceId p subjects g) (settings : Settings)
    {r : AccessRequest} (hsubject : r.subject ∈ m.subjects.map (·.name))
    (hroles : settings.strictRoles = true → ∀ name ∈ r.roles, name ∈ m.roles.map (·.name))
    (wanted : Resolution) :
    ∃ names, Evaluator.plainActionsWith ⟨p, settings⟩ r wanted = .ok names := by
  obtain ⟨d, hd, hname⟩ := List.mem_map.mp hsubject
  obtain ⟨id, t, hid⟩ := h.exists_encoded hd
  have hs := h.subject?_eq hid
  rw [Evaluator.plainActionsWith, Evaluator.requireSubject, ← hname, hs]
  simp only [bind, Except.bind, Evaluator.plainMerge, h.activeRoles_eq hroles]
  exact ⟨_, rfl⟩

end Compiled

/-- Roles compile independently of each other.  Two models with the same concepts and subjects are
compiled, in whatever order their roles are declared and whatever other roles they have.  A request
all of whose roles are declared alike in both gets the same answers from both, on new caches: the
whole decision for every action, errors included, and the lists of allowed and of forbidden actions.
For a declared subject and its actions these answers are no errors. -/
theorem roles_compile_independently (hcompile : m.compile sourceId = .ok p)
    (hcompile' : m'.compile sourceId' = .ok p') (hconcepts : m.concepts = m'.concepts)
    (hsubjects : m.subjects = m'.subjects) (hfits : m.Fits p) (hfits' : m'.Fits p')
    (settings settings' : Settings) {capacity capacity' : Nat} {cache cache' : ValueCache}
    (hcache : Cache.new capacity = .ok cache) (hcache' : Cache.new capacity' = .ok cache')
    {r : AccessRequest} (hroles : ∀ name ∈ r.roles, DeclaresAlike m m' name) :
    (∀ action, (Evaluator.decide ⟨p, settings⟩ r action cache).1 =
      (Evaluator.decide ⟨p', settings'⟩ r action cache').1) ∧
    (Evaluator.allowedActions ⟨p, settings⟩ r cache).1 =
      (Evaluator.allowedActions ⟨p', settings'⟩ r cache').1 ∧
    (Evaluator.forbiddenActions ⟨p, settings⟩ r cache).1 =
      (Evaluator.forbiddenActions ⟨p', settings'⟩ r cache').1 ∧
    ∀ d ∈ m.subjects, r.subject = d.name →
      (∀ action ∈ d.actions.map (·.name), ∃ decision,
        (Evaluator.decide ⟨p, settings⟩ r action cache).1 = .ok decision) ∧
      (∃ names, (Evaluator.allowedActions ⟨p, settings⟩ r cache).1 = .ok names) ∧
      ∃ names, (Evaluator.forbiddenActions ⟨p, settings⟩ r cache).1 = .ok names := by
  obtain ⟨subjects, g, h⟩ := compile_eq_ok hcompile
  obtain ⟨subjects', g', h'⟩ := compile_eq_ok hcompile'
  obtain rfl : subjects = subjects' :=
    encoded_unique (by rw [h.decls, h'.decls, hsubjects]) h.actions h'.actions
  have hpolicies : p.concepts = p'.concepts :=
    Except.ok.inj (h.concepts.symm.trans ((congrArg Concepts.build hconcepts).trans h'.concepts))
  have hdeclared : settings.strictRoles = true → ∀ name ∈ r.roles, name ∈ m.roles.map (·.name) := by
    intro _ name hname
    obtain ⟨d, hd, -, rfl⟩ := hroles name hname
    exact List.mem_map_of_mem hd
  have hdecide (action : String) := Evaluator.decide_new (e := ⟨p, settings⟩) h.ordered hcache r
    action
  have hactions (wanted : Resolution) := Evaluator.actionsWith_new (e := ⟨p, settings⟩) h.ordered
    hcache r wanted
  have hsame (wanted : Resolution) : (Evaluator.actionsWith ⟨p, settings⟩ r wanted cache).1 =
      (Evaluator.actionsWith ⟨p', settings'⟩ r wanted cache').1 := by
    rw [hactions, Evaluator.actionsWith_new (e := ⟨p', settings'⟩) h'.ordered hcache']
    exact h.plainActionsWith_eq_plainActionsWith h' hpolicies hfits hfits' hroles _ _ _
  refine ⟨fun action => ?_, hsame .allowed, hsame .forbidden, fun d hd hsubject => ⟨?_, ?_, ?_⟩⟩
  · rw [hdecide, Evaluator.decide_new (e := ⟨p', settings'⟩) h'.ordered hcache']
    exact h.plainDecide_eq_plainDecide h' hpolicies hfits hfits' hroles _ _ _
  · intro action haction
    obtain ⟨matched, hplain⟩ := h.plainDecide_eq hfits hd hsubject hdeclared haction
    exact ⟨_, (hdecide action).trans hplain⟩
  · have hmem : r.subject ∈ m.subjects.map (·.name) := hsubject ▸ List.mem_map_of_mem hd
    obtain ⟨names, hplain⟩ := h.exists_plainActionsWith settings hmem hdeclared .allowed
    exact ⟨names, (hactions _).trans hplain⟩
  · have hmem : r.subject ∈ m.subjects.map (·.name) := hsubject ▸ List.mem_map_of_mem hd
    obtain ⟨names, hplain⟩ := h.exists_plainActionsWith settings hmem hdeclared .forbidden
    exact ⟨names, (hactions _).trans hplain⟩

/-- A guard that is declared first takes the indices that the visitor's condition would have; the
visitor enters the same doors. -/
theorem roles_compile_independently_visitor :
    let flag := Expression.subject.get "open"
    let visitor : RoleDecl := ⟨"visitor", [⟨"Door", [.whenElse flag [.allowEverything]
      [.forbid ["enter"]]]⟩]⟩
    let guard : RoleDecl := ⟨"guard", [⟨"Door", [.whenever (flag.equals (Expression.user.get "late"))
      [.allow ["lock"]]]⟩]⟩
    let m : Model := {
      user := "Person"
      concepts := [{ name := "Person", members := [("late", .boolean)] },
        { name := "Door", members := [("open", .boolean)] }]
      subjects := [⟨"Door", "Door", [⟨"enter", none⟩, ⟨"lock", none⟩]⟩]
      roles := [visitor] }
    let m' : Model := { m with roles := [guard, visitor] }
    let r : AccessRequest :=
      { user := .null, roles := ["visitor"], subject := "Door", resource := .obj [] }
    let cache : ValueCache := ⟨128, [], 0, 0, 0⟩
    let conditions (roles : List Role) : List NodeIndex :=
      (roles.flatMap fun role => role.rulesFor "Door").map (·.condition)
    ∃ p p', m.compile "one" = .ok p ∧ m'.compile "two" = .ok p' ∧
      conditions p.roles = [.subject 1, .subject 2] ∧
      conditions (p'.roles.drop 1) = [.subject 1, .subject 3] ∧
      (Evaluator.decide ⟨p, {}⟩ r "enter" cache).1 = (Evaluator.decide ⟨p', {}⟩ r "enter" cache).1 ∧
      (Evaluator.allowedActions ⟨p, {}⟩ r cache).1 = (Evaluator.allowedActions ⟨p', {}⟩ r cache).1 ∧
      ∃ decision, (Evaluator.decide ⟨p, {}⟩ r "enter" cache).1 = .ok decision := by
  intro flag visitor guard m m' r cache conditions
  obtain ⟨p, hcompile, hp⟩ := Steps.exists_eq_ok_of_any (x := m.compile "one")
    (q := fun p => (p.common.length ≤ 2 ^ 31 ∧ ∀ s ∈ p.subjects, s.nodes.length ≤ 2 ^ 31) ∧
      conditions p.roles = [.subject 1, .subject 2])
    (by decide +kernel)
  obtain ⟨p', hcompile', hp'⟩ := Steps.exists_eq_ok_of_any (x := m'.compile "two")
    (q := fun p => (p.common.length ≤ 2 ^ 31 ∧ ∀ s ∈ p.subjects, s.nodes.length ≤ 2 ^ 31) ∧
      conditions (p.roles.drop 1) = [.subject 1, .subject 3])
    (by decide +kernel)
  obtain ⟨⟨hcommon, hnodes⟩, hconditions⟩ := of_decide_eq_true hp
  obtain ⟨⟨hcommon', hnodes'⟩, hconditions'⟩ := of_decide_eq_true hp'
  have hcache : Cache.new 128 = .ok cache := rfl
  have hroles : ∀ name ∈ r.roles, DeclaresAlike m m' name := by
    intro name hname
    obtain rfl := List.mem_singleton.mp hname
    exact ⟨visitor, List.mem_cons_self, List.mem_cons_of_mem _ List.mem_cons_self, rfl⟩
  obtain ⟨hdecide, hallowed, -, hreturns⟩ := roles_compile_independently hcompile hcompile' rfl rfl
    ⟨by decide, by decide, hcommon, hnodes⟩ ⟨by decide, by decide, hcommon', hnodes'⟩ {} {} hcache
    hcache hroles
  exact ⟨p, p', hcompile, hcompile', hconditions, hconditions', hdecide "enter", hallowed,
    (hreturns _ List.mem_cons_self rfl).1 "enter" List.mem_cons_self⟩

end Model

end AccessPolicy
