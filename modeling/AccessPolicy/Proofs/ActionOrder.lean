import AccessPolicy.Proofs.Hierarchy.Forest
import AccessPolicy.Proofs.Interpretation

/-!
# Action order — decisions respect how actions extend one another

The masks of a compiled policy are closed: one that allows an action allows every finer one, and one
that forbids an action forbids every coarser one.  Joining masks keeps this, so it holds of whatever
rules match, and a decision for an action says something about the actions above and below it.
-/

namespace AccessPolicy

/-! ## Closed masks -/

/-- Positions below a position that lies below another lie below the other. -/
theorem NestedSet.isSubOfAt?_trans {s : NestedSet} {i j k : Nat}
    (hij : s.isSubOfAt? i j = some true) (hjk : s.isSubOfAt? j k = some true) :
    s.isSubOfAt? i k = some true := by
  simp only [isSubOfAt?, bind, Option.bind_eq_some_iff] at hij hjk ⊢
  obtain ⟨x, hx, y, hy, hxy⟩ := hij
  obtain ⟨y', hy', z, hz, hyz⟩ := hjk
  obtain rfl := Option.some.inj (hy.symm.trans hy')
  refine ⟨x, hx, z, hz, ?_⟩
  simp only [Interval.isSubOf, pure, Option.some.injEq, Bool.and_eq_true,
    decide_eq_true_eq] at hxy hyz ⊢
  exact ⟨UInt32.le_trans hyz.1 hxy.1, UInt32.le_trans hxy.2 hyz.2⟩

namespace ActionTree

variable {d : SubjectDecl} {t : ActionTree}

/-- What holds of an action holds of every finer one if it is allowed, and of every coarser one if
it is forbidden. -/
def Closed (t : ActionTree) (mode : AccessMode) (mask : Bitmask) : Prop :=
  ∀ x y, t.actions.isSubOfAt? x y = some true → match mode with
    | .allow => mask.isSet y = true → mask.isSet x = true
    | .forbid => mask.isSet x = true → mask.isSet y = true

theorem lt_size_of_isSubOfAt? (h : build d = .ok t) {x y : Nat}
    (hxy : t.actions.isSubOfAt? x y = some true) : x < t.actions.size ∧ y < t.actions.size := by
  have hanswered : t.actions.isSubOfAt? x y ≠ none := by simp [hxy]
  rw [ne_eq, NestedSet.isSubOfAt?_eq_none_iff (build_eq_ok h).1, List.length_map] at hanswered
  rw [size_of_build h]
  omega

theorem closed_closureOf (h : build d = .ok t) (mode : AccessMode) (target : Nat) :
    t.Closed mode ((closureOf t.actions target).forMode mode) := by
  intro x y hxy
  have hlt := lt_size_of_isSubOfAt? h hxy
  cases mode with
  | allow =>
    intro hy
    rw [ActionClosure.forMode, closureOf, isSet_finer] at hy ⊢
    exact ⟨hlt.1, NestedSet.isSubOfAt?_trans hxy hy.2⟩
  | forbid =>
    intro hx
    rw [ActionClosure.forMode, closureOf, isSet_coarser] at hx ⊢
    exact ⟨hlt.2, NestedSet.isSubOfAt?_trans hx.2 hxy⟩

theorem closed_unionAll {mode : AccessMode} {masks : List Bitmask}
    (h : ∀ mask ∈ masks, t.Closed mode mask) : t.Closed mode (.unionAll masks) := by
  intro x y hxy
  cases mode with
  | allow =>
    intro hy
    rw [Bitmask.isSet_unionAll, List.any_eq_true] at hy ⊢
    obtain ⟨mask, hmask, hy⟩ := hy
    exact ⟨mask, hmask, h mask hmask x y hxy hy⟩
  | forbid =>
    intro hx
    rw [Bitmask.isSet_unionAll, List.any_eq_true] at hx ⊢
    obtain ⟨mask, hmask, hx⟩ := hx
    exact ⟨mask, hmask, h mask hmask x y hxy hx⟩

theorem closed_mergedClosure (h : build d = .ok t) (bits : List Nat) (mode : AccessMode) :
    t.Closed mode (t.mergedClosure bits mode) := by
  apply closed_unionAll
  intro mask hmask
  obtain ⟨bit, -, hmask⟩ := List.mem_filterMap.mp hmask
  -- a closure that was found is the closure of its bit
  obtain ⟨closure, hclosure, rfl⟩ := Option.map_eq_some_iff.mp hmask
  rw [((closure?_eq_some_iff h).mp hclosure).2]
  exact closed_closureOf h mode bit

end ActionTree

/-! ## Merged rules -/

namespace MergedRules

variable {t : ActionTree} {m : MergedRules} {x y : Nat}

/-- Every matched rule has a mask that is closed for its mode. -/
def Closed (t : ActionTree) (m : MergedRules) : Prop :=
  ∀ matched ∈ m.matched, t.Closed matched.1.mode matched.2

theorem Closed.mask (h : m.Closed t) (mode : AccessMode) : t.Closed mode (m.mask mode) := by
  apply ActionTree.closed_unionAll
  intro mask hmask
  obtain ⟨matched, hmatched, rfl⟩ := List.mem_map.mp hmask
  obtain ⟨hmem, hmode⟩ := List.mem_filter.mp hmatched
  obtain rfl := of_decide_eq_true hmode
  exact h matched hmem

theorem resolve_eq_forbidden_iff {c : BitCoord} : m.resolve c = .forbidden ↔
    m.matched.isEmpty = false ∧ (m.mask .forbid).isSetAt c = true := by
  unfold resolve
  cases m.matched.isEmpty <;> cases (m.mask .forbid).isSetAt c <;>
    cases (m.mask .allow).isSetAt c <;> simp

theorem resolve_eq_allowed_iff {c : BitCoord} : m.resolve c = .allowed ↔
    m.matched.isEmpty = false ∧ (m.mask .forbid).isSetAt c = false ∧
      (m.mask .allow).isSetAt c = true := by
  unfold resolve
  cases m.matched.isEmpty <;> cases (m.mask .forbid).isSetAt c <;>
    cases (m.mask .allow).isSetAt c <;> simp

theorem Closed.forbidden_above (h : m.Closed t) (hxy : t.actions.isSubOfAt? x y = some true)
    (hx : m.resolve (.ofIndex x) = .forbidden) : m.resolve (.ofIndex y) = .forbidden := by
  rw [resolve_eq_forbidden_iff] at hx ⊢
  exact ⟨hx.1, h.mask .forbid x y hxy hx.2⟩

theorem Closed.allowed_below (h : m.Closed t) (hxy : t.actions.isSubOfAt? x y = some true)
    (hy : m.resolve (.ofIndex y) = .allowed) : m.resolve (.ofIndex x) = .allowed := by
  rw [resolve_eq_allowed_iff] at hy ⊢
  refine ⟨hy.1, ?_, h.mask .allow x y hxy hy.2.2⟩
  -- were the finer action forbidden, the coarser one would be so too
  rw [← Bool.not_eq_true]
  intro hx
  exact absurd (h.mask .forbid x y hxy hx) (Bool.not_eq_true _ ▸ hy.2.1)

end MergedRules

/-! ## Compiled rules -/

namespace Model.Compiled

variable {m : Model} {sourceId : String} {p : Policy} {subjects : List EncodedSubject} {g : Graph}

theorem exists_encoded_of_subject? (h : Compiled m sourceId p subjects g) {name : String}
    {s : PolicySubject} (hs : p.subject? name = some s) :
    ∃ (id : Nat) (d : SubjectDecl), subjects[id]? = some (d, s.actions) ∧ s.name = d.name := by
  have hmem := Evaluator.mem_subjects hs
  rw [h.tables, policySubjects] at hmem
  obtain ⟨⟨⟨d, t⟩, nodes⟩, hzip, rfl⟩ := List.mem_map.mp hmem
  obtain ⟨id, hid⟩ := List.getElem?_of_mem (List.of_mem_zip hzip).1
  exact ⟨id, d, hid, rfl⟩

/-- Every rule of a compiled policy has a closed mask. -/
theorem closed_rule (h : Compiled m sourceId p subjects g) {name : String} {s : PolicySubject}
    (hs : p.subject? name = some s) {roleName : String} {role : Role}
    (hrole : p.role? roleName = some role) {rule : Rule} (hrule : rule ∈ role.rulesFor s.name) :
    s.actions.Closed rule.mode rule.mask := by
  obtain ⟨id, d, hid, hname⟩ := h.exists_encoded_of_subject? hs
  have hbuild : ActionTree.build d = .ok s.actions := h.actions _ (List.mem_of_getElem? hid)
  have hmem : role ∈ p.roles := List.mem_of_find?_eq_some hrole
  obtain ⟨decl, -, hcompiled⟩ := exists_of_mem_right h.roles hmem
  rw [hname] at hrule
  obtain ⟨permission, -, hrenders⟩ := exists_of_mem_right (hcompiled.rules hid) hrule
  rw [hrenders.mask]
  exact ActionTree.closed_mergedClosure hbuild rule.actions rule.mode

end Model.Compiled

/-! ## Matching -/

namespace Evaluator

variable {e : Evaluator} {r : AccessRequest} {s : PolicySubject} {x : MatchedRule × Bitmask}

/-- Whatever the values, what matches is a rule with its own mode and mask. -/
theorem mem_matchRules {role : String} {index : Nat} {rules : List Rule} {v : SubjectValues}
    (hx : x ∈ (matchRules role index rules v).1) :
    ∃ rule ∈ rules, x.1.mode = rule.mode ∧ x.2 = rule.mask := by
  induction rules generalizing index v with
  | nil => exact absurd hx List.not_mem_nil
  | cons rule rest ih =>
    have hrun : (matchRules role index (rule :: rest) v).1 =
        if (holds rule.condition v).1 then
          (⟨role, index, rule.mode⟩, rule.mask) ::
            (matchRules role (index + 1) rest (holds rule.condition v).2).1
        else (matchRules role (index + 1) rest (holds rule.condition v).2).1 := rfl
    rw [hrun] at hx
    have hrest (hx : x ∈ (matchRules role (index + 1) rest (holds rule.condition v).2).1) :
        ∃ rule' ∈ rule :: rest, x.1.mode = rule'.mode ∧ x.2 = rule'.mask := by
      obtain ⟨rule', hrule', hx⟩ := ih hx
      exact ⟨rule', List.mem_cons_of_mem _ hrule', hx⟩
    split at hx
    · rcases List.mem_cons.mp hx with rfl | hx
      · exact ⟨rule, List.mem_cons_self, rfl, rfl⟩
      · exact hrest hx
    · exact hrest hx

theorem mem_matchRoles {subject : String} {roles : List Role} {v : SubjectValues}
    (hx : x ∈ (matchRoles subject roles v).1) :
    ∃ role ∈ roles, ∃ rule ∈ role.rulesFor subject, x.1.mode = rule.mode ∧ x.2 = rule.mask := by
  induction roles generalizing v with
  | nil => exact absurd hx List.not_mem_nil
  | cons role rest ih =>
    have hrun : (matchRoles subject (role :: rest) v).1 =
        (matchRules role.name 0 (role.rulesFor subject) v).1 ++
          (matchRoles subject rest (matchRules role.name 0 (role.rulesFor subject) v).2).1 := rfl
    rw [hrun] at hx
    rcases List.mem_append.mp hx with hx | hx
    · exact ⟨role, List.mem_cons_self, mem_matchRules hx⟩
    · obtain ⟨role', hrole', hx⟩ := ih hx
      exact ⟨role', List.mem_cons_of_mem _ hrole', hx⟩

theorem mem_activeRoles {names : List String} {roles : List Role}
    (h : e.activeRoles names = .ok roles) {role : Role} (hrole : role ∈ roles) :
    ∃ name, e.policy.role? name = some role := by
  obtain ⟨-, rfl⟩ := activeRoles_eq_ok_iff.mp h
  obtain ⟨name, -, hname⟩ := List.mem_filterMap.mp hrole
  exact ⟨name, hname⟩

/-- Whatever is cached, the rules that a request matches have closed masks. -/
theorem closed_matchCached {m : Model} {sourceId : String} {subjects : List Model.EncodedSubject}
    {g : Graph} (h : Model.Compiled m sourceId e.policy subjects g)
    (hs : e.policy.subject? r.subject = some s) {roles : List Role}
    (hroles : e.activeRoles r.roles = .ok roles) (c : ValueCache) :
    (e.matchCached r s roles c).1.Closed s.actions := by
  intro x hx
  obtain ⟨role, hrole, rule, hrule, hmode, hmask⟩ := mem_matchRoles hx
  obtain ⟨name, hname⟩ := mem_activeRoles hroles hrole
  rw [hmode, hmask]
  exact h.closed_rule hs hname hrule

/-! ## Answers -/

variable {roles : List Role}

theorem merge_run (hroles : e.activeRoles r.roles = .ok roles) (c : ValueCache) :
    e.merge r s c = (.ok (e.matchCached r s roles c).1, (e.matchCached r s roles c).2) := by
  rw [merge, Steps.check_bind_run, hroles]
  rfl

theorem decide_run (hs : e.requireSubject r.subject = .ok s) {action : String} {coord : BitCoord}
    (haction : requireAction s action = .ok coord) (hroles : e.activeRoles r.roles = .ok roles)
    (c : ValueCache) : ∃ x, (e.decide r action c).1 = .ok x ∧
      x.resolution = (e.matchCached r s roles c).1.resolve coord := by
  rw [decide, Steps.check_bind_run, hs]
  simp only
  rw [Steps.check_bind_run, haction]
  simp only
  rw [Steps.bind_run, merge_run hroles]
  exact ⟨_, rfl, rfl⟩

theorem actionsWith_run (hs : e.requireSubject r.subject = .ok s)
    (hroles : e.activeRoles r.roles = .ok roles) (wanted : Resolution) (c : ValueCache) :
    ∃ names, (e.actionsWith r wanted c).1 = .ok names ∧ ∀ action, action ∈ names ↔
      ∃ bit, s.actions.names[bit]? = some action ∧
        (e.matchCached r s roles c).1.resolve (.ofIndex bit) = wanted := by
  rw [actionsWith, Steps.check_bind_run, hs]
  simp only
  rw [Steps.bind_run, merge_run hroles]
  refine ⟨_, rfl, fun action => ?_⟩
  simp [List.mem_zipIdx_iff_getElem?]

end Evaluator

/-! ## Decisions -/

namespace Model

variable {m : Model} {sourceId : String} {p : Policy}

/-- Decisions respect the order of actions.  When the roles of a request are accepted and one action
extends another, both are decided, whatever is cached: if the coarser one is allowed, so is the
finer one, and if the finer one is forbidden, so is the coarser one.  The actions that are allowed
and the ones that are forbidden are listed accordingly. -/
theorem decisions_respect_extension (hcompile : m.compile sourceId = .ok p) {settings : Settings}
    {r : AccessRequest} {roles : List Role}
    (hroles : Evaluator.activeRoles ⟨p, settings⟩ r.roles = .ok roles) {finer coarser : String}
    (hbelow : p.isSubAction? r.subject finer coarser = some true) (cache : ValueCache) :
    ∃ x y allowed forbidden,
      (Evaluator.decide ⟨p, settings⟩ r coarser cache).1 = .ok x ∧
      (Evaluator.decide ⟨p, settings⟩ r finer cache).1 = .ok y ∧
      (x.resolution = .allowed → y.resolution = .allowed) ∧
      (y.resolution = .forbidden → x.resolution = .forbidden) ∧
      (Evaluator.allowedActions ⟨p, settings⟩ r cache).1 = .ok allowed ∧
      (coarser ∈ allowed → finer ∈ allowed) ∧
      (Evaluator.forbiddenActions ⟨p, settings⟩ r cache).1 = .ok forbidden ∧
      (finer ∈ forbidden → coarser ∈ forbidden) := by
  obtain ⟨subjects, g, h⟩ := compile_eq_ok hcompile
  rw [Policy.isSubAction?, Option.bind_eq_some_iff] at hbelow
  obtain ⟨s, hs, hbelow⟩ := hbelow
  obtain ⟨i, j, hi, hj, hij⟩ := NestedSet.exists_position_of_isSubOf? hbelow
  have hsubject : Evaluator.requireSubject ⟨p, settings⟩ r.subject = .ok s := by
    rw [Evaluator.requireSubject, hs]
  have haction {action : String} {bit : Nat} (hbit : s.actions.bit? action = some bit) :
      Evaluator.requireAction s action = .ok (.ofIndex bit) := by
    rw [Evaluator.requireAction, ActionTree.coord?, hbit, Option.map_some]
  -- one merge of rules answers all four questions, and its masks are closed
  have hclosed := Evaluator.closed_matchCached (e := ⟨p, settings⟩) h hs hroles cache
  obtain ⟨x, hx, hcoarser⟩ := Evaluator.decide_run hsubject (haction hj) hroles cache
  obtain ⟨y, hy, hfiner⟩ := Evaluator.decide_run hsubject (haction hi) hroles cache
  obtain ⟨allowed, hallowed, hmemAllowed⟩ :=
    Evaluator.actionsWith_run hsubject hroles .allowed cache
  obtain ⟨forbidden, hforbidden, hmemForbidden⟩ :=
    Evaluator.actionsWith_run hsubject hroles .forbidden cache
  obtain ⟨id, d, hid, -⟩ := h.exists_encoded_of_subject? hs
  have hbuild : ActionTree.build d = .ok s.actions := h.actions _ (List.mem_of_getElem? hid)
  have hname {action : String} {bit : Nat} :
      s.actions.names[bit]? = some action ↔ s.actions.bit? action = some bit := by
    rw [ActionTree.bit?_eq_some_iff hbuild, ActionTree.names, ActionTree.ids_of_build hbuild]
  refine ⟨x, y, allowed, forbidden, hx, hy, ?_, ?_, hallowed, ?_, hforbidden, ?_⟩
  · rw [hcoarser, hfiner]
    exact hclosed.allowed_below hij
  · rw [hcoarser, hfiner]
    exact hclosed.forbidden_above hij
  · rw [hmemAllowed, hmemAllowed]
    rintro ⟨bit, hbit, hresolve⟩
    obtain rfl := Option.some.inj (hj.symm.trans (hname.mp hbit))
    exact ⟨i, hname.mpr hi, hclosed.allowed_below hij hresolve⟩
  · rw [hmemForbidden, hmemForbidden]
    rintro ⟨bit, hbit, hresolve⟩
    obtain rfl := Option.some.inj (hi.symm.trans (hname.mp hbit))
    exact ⟨j, hname.mpr hj, hclosed.forbidden_above hij hresolve⟩

/-- Who may read a document may share it, because sharing is a way of editing, and editing one of
reading. -/
theorem decisions_respect_extension_share :
    let m : Model := {
      user := "Person"
      concepts := [{ name := "Person" }]
      subjects := [⟨"Document", "Person",
        [⟨"share", some "edit"⟩, ⟨"edit", some "read"⟩, ⟨"read", none⟩, ⟨"list", none⟩]⟩]
      roles := [{ name := "reader", blocks := [⟨"Document", [.allow ["read"]]⟩] },
        { name := "hidden", blocks := [⟨"Document", [.forbid ["list"]]⟩] }] }
    let r : AccessRequest :=
      { user := .null, roles := ["hidden", "reader"], subject := "Document", resource := .null }
    ∃ p x y, m.compile "documents" = .ok p ∧
      (Evaluator.decide ⟨p, {}⟩ r "read" ⟨128, [], 0, 0, 0⟩).1 = .ok x ∧ x.resolution = .allowed ∧
      (Evaluator.decide ⟨p, {}⟩ r "share" ⟨128, [], 0, 0, 0⟩).1 = .ok y ∧
      y.resolution = .allowed := by
  intro m r
  obtain ⟨p, hcompile, hp⟩ := Steps.exists_eq_ok_of_any (x := m.compile "documents")
    (q := fun p => p.isSubAction? "Document" "share" "read" = some true ∧
      (Evaluator.activeRoles ⟨p, {}⟩ r.roles).toOption.any (fun _ => true) ∧
      (Evaluator.plainDecide ⟨p, {}⟩ r "read").toOption.any (·.resolution = .allowed))
    (by decide +kernel)
  obtain ⟨hbelow, hroles, hread⟩ := of_decide_eq_true hp
  obtain ⟨roles, hroles, -⟩ := Steps.exists_eq_ok_of_any hroles
  obtain ⟨decision, hplain, hallowed⟩ := Steps.exists_eq_ok_of_any hread
  obtain ⟨subjects, g, h⟩ := compile_eq_ok hcompile
  have hcache : Cache.new 128 = .ok (⟨128, [], 0, 0, 0⟩ : ValueCache) := rfl
  obtain ⟨cache', hrun⟩ := Evaluator.answer_new (e := ⟨p, {}⟩) (r := r)
    (fun P hP => Evaluator.answers_decide h.ordered hP "read") hcache
  obtain ⟨x, y, -, -, hx, hy, hfiner, -⟩ :=
    decisions_respect_extension hcompile hroles hbelow ⟨128, [], 0, 0, 0⟩
  have hxread : x.resolution = .allowed := by
    rw [hrun, hplain] at hx
    rw [← Except.ok.inj hx]
    exact of_decide_eq_true hallowed
  exact ⟨p, x, y, hcompile, hx, hxread, hy, hfiner hxread⟩

end Model

end AccessPolicy
