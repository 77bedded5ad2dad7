import AccessPolicy.Proofs.ActionOrder

/-!
# Active roles — only which roles are active matters

The masks of all matched rules are joined, so neither the order of the roles nor their repetition
shows in what is resolved.  With more roles more rules match: no action stops being forbidden, and
one stops being allowed only where a rule of an added role forbids it.
-/

namespace AccessPolicy

/-! ## Merged rules -/

namespace MergedRules

variable {m m' : MergedRules} {i : Nat}

/-- A mask holds what the matched rules of its mode hold. -/
theorem isSetAt_mask_iff {mode : AccessMode} : (m.mask mode).isSetAt (.ofIndex i) = true ↔
    ∃ x ∈ m.matched, x.1.mode = mode ∧ x.2.isSet i = true := by
  show (m.mask mode).isSet i = true ↔ _
  rw [mask, Bitmask.isSet_unionAll, List.any_map, List.any_filter, List.any_eq_true]
  simp

theorem forbidden_iff : m.resolve (.ofIndex i) = .forbidden ↔
    ∃ x ∈ m.matched, x.1.mode = .forbid ∧ x.2.isSet i = true := by
  rw [resolve_eq_forbidden_iff, isSetAt_mask_iff, and_iff_right_iff_imp]
  -- where a rule matches, the list of matched rules is not empty
  rintro ⟨x, hx, -⟩
  rw [List.isEmpty_eq_false_iff]
  exact List.ne_nil_of_mem hx

theorem allowed_iff : m.resolve (.ofIndex i) = .allowed ↔
    (∃ x ∈ m.matched, x.1.mode = .allow ∧ x.2.isSet i = true) ∧
      m.resolve (.ofIndex i) ≠ .forbidden := by
  rw [ne_eq, resolve_eq_forbidden_iff, resolve_eq_allowed_iff, ← isSetAt_mask_iff]
  cases hempty : m.matched.isEmpty with
  | false => simp [and_comm]
  | true =>
    have hmask : (m.mask .allow).isSetAt (.ofIndex i) ≠ true := by
      rw [ne_eq, isSetAt_mask_iff, List.isEmpty_iff.mp hempty]
      simp
    simp [hmask]

/-- The order of the matched rules and their repetition do not show in what is resolved. -/
theorem resolve_congr (h : ∀ x, x ∈ m.matched ↔ x ∈ m'.matched) (i : Nat) :
    m.resolve (.ofIndex i) = m'.resolve (.ofIndex i) := by
  have hempty : m.matched.isEmpty = m'.matched.isEmpty := by
    rw [Bool.eq_iff_iff, List.isEmpty_iff, List.isEmpty_iff, List.eq_nil_iff_forall_not_mem,
      List.eq_nil_iff_forall_not_mem]
    exact forall_congr' fun x => not_congr (h x)
  have hmask (mode : AccessMode) :
      (m.mask mode).isSetAt (.ofIndex i) = (m'.mask mode).isSetAt (.ofIndex i) := by
    rw [Bool.eq_iff_iff, isSetAt_mask_iff, isSetAt_mask_iff]
    exact exists_congr fun x => and_congr_left fun _ => h x
  rw [resolve, resolve, hempty, hmask, hmask]

section

variable (hsub : m.matched ⊆ m'.matched)
include hsub

/-- What is forbidden stays forbidden when more rules match. -/
theorem forbidden_of_subset (h : m.resolve (.ofIndex i) = .forbidden) :
    m'.resolve (.ofIndex i) = .forbidden := by
  rw [forbidden_iff] at h ⊢
  obtain ⟨x, hx, hset⟩ := h
  exact ⟨x, hsub hx, hset⟩

/-- What is allowed stays allowed when more rules match, unless one of these forbids it. -/
theorem allowed_of_subset (h : m.resolve (.ofIndex i) = .allowed) :
    m'.resolve (.ofIndex i) = .allowed ∨ m'.resolve (.ofIndex i) = .forbidden ∧
      ∃ x ∈ m'.matched, x ∉ m.matched ∧ x.1.mode = .forbid ∧ x.2.isSet i = true := by
  obtain ⟨⟨x, hx, hset⟩, hnot⟩ := allowed_iff.mp h
  by_cases hforbidden : m'.resolve (.ofIndex i) = .forbidden
  · obtain ⟨y, hy, hyset⟩ := forbidden_iff.mp hforbidden
    -- had the rule matched before, the action would have been forbidden then
    have hnew : y ∉ m.matched := fun hold => hnot (forbidden_iff.mpr ⟨y, hold, hyset⟩)
    exact .inr ⟨hforbidden, y, hy, hnew, hyset⟩
  · exact .inl (allowed_iff.mpr ⟨⟨x, hsub hx, hset⟩, hforbidden⟩)

end

end MergedRules

/-! ## Answers to two requests -/

/-- Both requests are refused, or both are answered, and the answers are related. -/
inductive AnsweredAlike {α β : Type} (R : α → β → Prop) :
    Except PolicyError α → Except PolicyError β → Prop
  | refused (err err' : PolicyError) : AnsweredAlike R (.error err) (.error err')
  | answered {a : α} {b : β} (h : R a b) : AnsweredAlike R (.ok a) (.ok b)

namespace AnsweredAlike

variable {α β γ δ : Type} {R : α → β → Prop} {S : γ → δ → Prop} {x : Except PolicyError α}
  {y : Except PolicyError β}

theorem of_ok (hok : (∃ a, x = .ok a) ↔ ∃ b, y = .ok b)
    (h : ∀ a b, x = .ok a → y = .ok b → R a b) : AnsweredAlike R x y := by
  cases x with
  | error err =>
    cases y with
    | error err' => exact .refused err err'
    | ok b =>
      obtain ⟨a, ha⟩ := hok.mpr ⟨b, rfl⟩
      exact nomatch ha
  | ok a =>
    obtain ⟨b, rfl⟩ := hok.mp ⟨a, rfl⟩
    exact .answered (h a b rfl rfl)

/-- After the same check. -/
theorem check_bind {f : α → Except PolicyError γ} {g : α → Except PolicyError δ}
    (h : ∀ a, x = .ok a → AnsweredAlike S (f a) (g a)) : AnsweredAlike S (x >>= f) (x >>= g) := by
  cases x with
  | error err => exact .refused err err
  | ok a => exact h a rfl

theorem bind_pure (hxy : AnsweredAlike R x y) {f : α → γ} {g : β → δ}
    (h : ∀ a b, R a b → S (f a) (g b)) :
    AnsweredAlike S (x >>= fun a => pure (f a)) (y >>= fun b => pure (g b)) := by
  cases hxy with
  | refused err err' => exact .refused err err'
  | answered hab => exact .answered (h _ _ hab)

end AnsweredAlike

/-! ## Roles of a request -/

namespace Evaluator

variable {e : Evaluator} {r : AccessRequest} {s : PolicySubject} {m m' : MergedRules}
  {roles' : List String}

theorem exists_plainMerge_iff : (∃ m, e.plainMerge r s = .ok m) ↔
    ∀ name ∈ r.roles, e.refusesRole name = false := by
  simp only [plainMerge, Steps.check_bind_eq_ok, activeRoles_eq_ok_iff]
  constructor
  · rintro ⟨m, roles, ⟨hnames, -⟩, -⟩
    exact hnames
  · intro hnames
    exact ⟨_, _, ⟨hnames, rfl⟩, rfl⟩

/-- What matches are rules of the roles that the request names. -/
theorem mem_plainMerge_iff (h : e.plainMerge r s = .ok m) {x : MatchedRule × Bitmask} :
    x ∈ m.matched ↔ ∃ name ∈ r.roles, ∃ role, e.policy.role? name = some role ∧
      x ∈ matchedRules (e.freshValues r s).value role.name 0 (role.rulesFor s.name) := by
  obtain ⟨roles, hroles, h⟩ := Steps.check_bind_eq_ok.mp h
  obtain ⟨-, rfl⟩ := activeRoles_eq_ok_iff.mp hroles
  obtain rfl := Except.ok.inj h
  simp only [matchedRoles, List.mem_flatMap, List.mem_filterMap]
  constructor
  · rintro ⟨role, ⟨name, hname, hrole⟩, hx⟩
    exact ⟨name, hname, role, hrole, hx⟩
  · rintro ⟨name, hname, role, hrole, hx⟩
    exact ⟨role, ⟨name, hname, hrole⟩, hx⟩

theorem exists_of_requireAction {action : String} {coord : BitCoord}
    (h : requireAction s action = .ok coord) :
    ∃ i, s.actions.bit? action = some i ∧ coord = .ofIndex i := by
  rw [requireAction, ActionTree.coord?] at h
  cases hbit : s.actions.bit? action with
  | none => simp [hbit] at h
  | some i =>
    rw [hbit] at h
    exact ⟨i, rfl, (Except.ok.inj h).symm⟩

/-! ### The same roles -/

/-- A name that is not skipped is in both lists or in neither. -/
def SameRoles (e : Evaluator) (names names' : List String) : Prop :=
  ∀ name, e.settings.strictRoles = true ∨ (e.policy.role? name).isSome = true →
    (name ∈ names ↔ name ∈ names')

theorem SameRoles.accepted_iff {names names' : List String} (h : e.SameRoles names names') :
    (∀ name ∈ names, e.refusesRole name = false) ↔
      ∀ name ∈ names', e.refusesRole name = false := by
  cases hstrict : e.settings.strictRoles with
  | true => exact forall_congr' fun name => imp_congr_left (h name (.inl hstrict))
  | false => simp [refusesRole, hstrict]

theorem plainMerge_alike (h : e.SameRoles r.roles roles') :
    AnsweredAlike (fun m m' => ∀ x, x ∈ m.matched ↔ x ∈ m'.matched) (e.plainMerge r s)
      (e.plainMerge { r with roles := roles' } s) := by
  refine .of_ok ?_ fun m m' hm hm' x => ?_
  · rw [exists_plainMerge_iff, exists_plainMerge_iff]
    exact h.accepted_iff
  · rw [mem_plainMerge_iff hm, mem_plainMerge_iff hm']
    refine exists_congr fun name => ?_
    -- a name without a role adds no rules, whether it is in the lists or not
    cases hrole : e.policy.role? name with
    | none => simp
    | some role => exact and_congr_left fun _ => h name (.inr (by rw [hrole]; rfl))

/-- The same roles in another order resolve every action alike. -/
theorem plainDecide_alike (h : e.SameRoles r.roles roles') (action : String) :
    AnsweredAlike (fun x y => x.resolution = y.resolution ∧ x.allowed = y.allowed)
      (e.plainDecide r action) (e.plainDecide { r with roles := roles' } action) := by
  refine .check_bind fun s _ => .check_bind fun coord hcoord => ?_
  refine (plainMerge_alike h).bind_pure fun m m' hsame => ?_
  obtain ⟨i, -, rfl⟩ := exists_of_requireAction hcoord
  have hresolve := MergedRules.resolve_congr hsame i
  exact ⟨hresolve, by rw [hresolve]⟩

theorem plainActionsWith_alike (h : e.SameRoles r.roles roles') (wanted : Resolution) :
    AnsweredAlike (· = ·) (e.plainActionsWith r wanted)
      (e.plainActionsWith { r with roles := roles' } wanted) := by
  refine .check_bind fun s _ => (plainMerge_alike h).bind_pure fun m m' hsame => ?_
  simp only [MergedRules.resolve_congr hsame]

/-! ### More roles -/

section

variable (hm : e.plainMerge r s = .ok m) (hm' : e.plainMerge { r with roles := roles' } s = .ok m')
include hm hm'

theorem subset_of_added_roles (hsub : r.roles ⊆ roles') : m.matched ⊆ m'.matched := by
  intro x hx
  rw [mem_plainMerge_iff hm] at hx
  rw [mem_plainMerge_iff hm']
  obtain ⟨name, hname, hx⟩ := hx
  exact ⟨name, hsub hname, hx⟩

/-- What matches only with the added roles is a rule of one of these. -/
theorem exists_added_rule {x : MatchedRule × Bitmask} (hx : x ∈ m'.matched)
    (hnew : x ∉ m.matched) : x.1.role ∈ roles' ∧ x.1.role ∉ r.roles ∧
      ∃ role rule, e.policy.role? x.1.role = some role ∧
        (role.rulesFor s.name)[x.1.ruleIndex]? = some rule ∧ rule.mode = x.1.mode ∧
        rule.mask = x.2 := by
  obtain ⟨name, hname, role, hrole, hmatched⟩ := (mem_plainMerge_iff hm').mp hx
  have hadded : name ∉ r.roles := fun hold =>
    hnew ((mem_plainMerge_iff hm).mpr ⟨name, hold, role, hrole, hmatched⟩)
  have hfound := List.find?_some hrole
  have hrolename : role.name = name := of_decide_eq_true hfound
  obtain ⟨k, rule, hrule, rfl, -⟩ := mem_matchedRules_iff.mp hmatched
  simp only [hrolename, Nat.zero_add]
  exact ⟨hname, hadded, role, rule, hrole, hrule, rfl, rfl⟩

/-- What was allowed is still allowed, or a rule of an added role forbids it. -/
theorem allowed_or_added_rule (hsub : r.roles ⊆ roles') {i : Nat}
    (h : m.resolve (.ofIndex i) = .allowed) : m'.resolve (.ofIndex i) = .allowed ∨
      m'.resolve (.ofIndex i) = .forbidden ∧ ∃ y ∈ m'.matched.map (·.1), y.mode = .forbid ∧
        y.role ∈ roles' ∧ y.role ∉ r.roles ∧ ∃ role rule, e.policy.role? y.role = some role ∧
          (role.rulesFor s.name)[y.ruleIndex]? = some rule ∧ rule.mode = .forbid ∧
          rule.mask.isSet i = true := by
  rcases MergedRules.allowed_of_subset (subset_of_added_roles hm hm' hsub) h with
    h | ⟨h, x, hx, hnew, hforbid, hset⟩
  · exact .inl h
  · obtain ⟨hin, hout, role, rule, hrole, hrule, hmode, hmask⟩ := exists_added_rule hm hm' hx hnew
    refine .inr ⟨h, x.1, List.mem_map_of_mem hx, hforbid, hin, hout, role, rule, hrole, hrule,
      hmode.trans hforbid, ?_⟩
    rw [hmask]
    exact hset

end

/-! ### Accepted requests -/

section

variable (hs : e.requireSubject r.subject = .ok s)
include hs

/-- The first name that is refused is the reason why a request is. -/
theorem plainDecide_eq_unknownRole {action : String} {coord : BitCoord}
    (haction : requireAction s action = .ok coord) {name : String}
    (hname : r.roles.find? e.refusesRole = some name) :
    e.plainDecide r action = .error (.usage (.unknownRole name)) := by
  rw [plainDecide, hs]
  show (requireAction s action >>= _) = _
  rw [haction]
  show (e.plainMerge r s >>= _) = _
  rw [plainMerge, activeRoles_eq_match, hname]
  rfl

end

end Evaluator

/-! ## Requests to a compiled policy -/

namespace Model

variable {m : Model} {sourceId : String} {p : Policy}

/-- The names in a request that count: all of them in strict mode, otherwise the declared ones. -/
def activeNames (m : Model) (settings : Settings) (names : List String) : List String :=
  if settings.strictRoles then names else names.filter fun name => name ∈ m.roles.map (·.name)

theorem mem_activeNames_iff {settings : Settings} {names : List String} {name : String} :
    name ∈ m.activeNames settings names ↔
      name ∈ names ∧ (settings.strictRoles = true ∨ name ∈ m.roles.map (·.name)) := by
  rw [activeNames]
  cases settings.strictRoles <;> simp

namespace Compiled

variable {subjects : List EncodedSubject} {g : Graph}

/-- Lists of names that count alike name the same roles of the policy. -/
theorem sameRoles (h : Compiled m sourceId p subjects g) {settings : Settings}
    {names names' : List String}
    (hnames : ∀ name, name ∈ m.activeNames settings names ↔ name ∈ m.activeNames settings names') :
    Evaluator.SameRoles ⟨p, settings⟩ names names' := by
  intro name hcounts
  have hname := hnames name
  rw [h.isSome_role?_iff] at hcounts
  rwa [mem_activeNames_iff, mem_activeNames_iff, and_iff_left hcounts,
    and_iff_left hcounts] at hname

/-- Whether unknown roles are an error does not matter where there are none. -/
theorem plainMerge_settings (h : Compiled m sourceId p subjects g) {r : AccessRequest}
    (hroles : ∀ name ∈ r.roles, name ∈ m.roles.map (·.name)) (settings settings' : Settings)
    (s : PolicySubject) :
    Evaluator.plainMerge ⟨p, settings⟩ r s = Evaluator.plainMerge ⟨p, settings'⟩ r s := by
  rw [Evaluator.plainMerge, Evaluator.plainMerge, h.activeRoles_eq fun _ => hroles,
    h.activeRoles_eq fun _ => hroles]
  rfl

theorem exists_plainMerge (h : Compiled m sourceId p subjects g) {settings : Settings}
    {r : AccessRequest}
    (hroles : settings.strictRoles = true → ∀ name ∈ r.roles, name ∈ m.roles.map (·.name))
    (s : PolicySubject) : ∃ merged, Evaluator.plainMerge ⟨p, settings⟩ r s = .ok merged := by
  rw [Evaluator.plainMerge, h.activeRoles_eq hroles]
  exact ⟨_, rfl⟩

/-- A declared subject and its actions are found in the policy. -/
theorem exists_requireSubject (h : Compiled m sourceId p subjects g) {d : SubjectDecl}
    (hd : d ∈ m.subjects) : ∃ s, p.subject? d.name = some s ∧ s.name = d.name ∧
      ∀ action ∈ d.actions.map (·.name), ∃ i, s.actions.coord? action = some (.ofIndex i) := by
  obtain ⟨id, t, hid⟩ := h.exists_encoded hd
  refine ⟨_, h.subject?_eq hid, rfl, fun action haction => ?_⟩
  have hbuild : ActionTree.build d = .ok t := h.actions _ (List.mem_of_getElem? hid)
  obtain ⟨i, hi⟩ := ActionTree.exists_bit? hbuild haction
  exact ⟨i, by rw [ActionTree.coord?, hi]; rfl⟩

/-! ### The same active roles -/

section

variable (h : Compiled m sourceId p subjects g) {settings : Settings} {r : AccessRequest}
  {c c' : ValueCache} (hc : Evaluator.Trusts ⟨p, settings⟩ r c)
  (hc' : Evaluator.Trusts ⟨p, settings⟩ r c')
include h hc hc'

theorem decide_alike {roles' : List String}
    (hroles : Evaluator.SameRoles ⟨p, settings⟩ r.roles roles') (action : String) :
    AnsweredAlike (fun x y => x.resolution = y.resolution ∧ x.allowed = y.allowed)
      (Evaluator.decide ⟨p, settings⟩ r action c).1
      (Evaluator.decide ⟨p, settings⟩ { r with roles := roles' } action c').1 := by
  -- neither keys nor values follow from the roles
  have hc₂ : Evaluator.Trusts ⟨p, settings⟩ { r with roles := roles' } c' := hc'
  rw [hc.decide_eq h.ordered, hc₂.decide_eq h.ordered]
  exact Evaluator.plainDecide_alike hroles action

theorem actionsWith_alike {roles' : List String}
    (hroles : Evaluator.SameRoles ⟨p, settings⟩ r.roles roles') (wanted : Resolution) :
    AnsweredAlike (· = ·) (Evaluator.actionsWith ⟨p, settings⟩ r wanted c).1
      (Evaluator.actionsWith ⟨p, settings⟩ { r with roles := roles' } wanted c').1 := by
  have hc₂ : Evaluator.Trusts ⟨p, settings⟩ { r with roles := roles' } c' := hc'
  rw [hc.actionsWith_eq h.ordered, hc₂.actionsWith_eq h.ordered]
  exact Evaluator.plainActionsWith_alike hroles wanted

variable (hroles : ∀ name ∈ r.roles, name ∈ m.roles.map (·.name)) (settings' : Settings)
include hroles

theorem decide_settings (action : String) : (Evaluator.decide ⟨p, settings⟩ r action c).1 =
    (Evaluator.decide ⟨p, settings'⟩ r action c').1 := by
  have hc₂ : Evaluator.Trusts ⟨p, settings'⟩ r c' := hc'
  rw [hc.decide_eq h.ordered, hc₂.decide_eq h.ordered, Evaluator.plainDecide,
    Evaluator.plainDecide]
  simp only [h.plainMerge_settings hroles settings settings']
  rfl

theorem actionsWith_settings (wanted : Resolution) :
    (Evaluator.actionsWith ⟨p, settings⟩ r wanted c).1 =
      (Evaluator.actionsWith ⟨p, settings'⟩ r wanted c').1 := by
  have hc₂ : Evaluator.Trusts ⟨p, settings'⟩ r c' := hc'
  rw [hc.actionsWith_eq h.ordered, hc₂.actionsWith_eq h.ordered, Evaluator.plainActionsWith,
    Evaluator.plainActionsWith]
  simp only [h.plainMerge_settings hroles settings settings']
  rfl

end

/-! ### Unknown roles -/

/-- In strict mode the names that are refused are the ones that are not declared. -/
theorem refusesRole_strict (h : Compiled m sourceId p subjects g) {settings : Settings}
    (hstrict : settings.strictRoles = true) :
    Evaluator.refusesRole ⟨p, settings⟩ = fun name => decide (name ∉ m.roles.map (·.name)) := by
  funext name
  rw [Evaluator.refusesRole, Bool.eq_iff_iff, decide_eq_true_iff, ← h.isSome_role?_iff]
  simp [hstrict]

/-- A request for a declared action is refused for its first unknown role, or decided. -/
theorem decide_strict (h : Compiled m sourceId p subjects g) {settings : Settings}
    (hstrict : settings.strictRoles = true) {r : AccessRequest} {d : SubjectDecl}
    (hd : d ∈ m.subjects) (hsubject : r.subject = d.name) {action : String}
    (haction : action ∈ d.actions.map (·.name)) {c : ValueCache}
    (hc : Evaluator.Trusts ⟨p, settings⟩ r c) :
    match r.roles.find? fun name => name ∉ m.roles.map (·.name) with
    | some name => Evaluator.decide ⟨p, settings⟩ r action c =
        (.error (.usage (.unknownRole name)), c)
    | none => ∃ x, (Evaluator.decide ⟨p, settings⟩ r action c).1 = .ok x := by
  obtain ⟨s, hfound, -, hcoords⟩ := h.exists_requireSubject hd
  obtain ⟨i, hi⟩ := hcoords action haction
  have hs : Evaluator.requireSubject ⟨p, settings⟩ r.subject = .ok s := by
    rw [hsubject, Evaluator.requireSubject, hfound]
  have hcoord : Evaluator.requireAction s action = .ok (.ofIndex i) := by
    rw [Evaluator.requireAction, hi]
  rw [← h.refusesRole_strict hstrict]
  cases hfind : r.roles.find? (Evaluator.refusesRole ⟨p, settings⟩) with
  | some name =>
    have hrefused := Evaluator.plainDecide_eq_unknownRole hs hcoord hfind
    exact Evaluator.refuses_decide _ r action _ hrefused c
  | none =>
    rw [List.find?_eq_none] at hfind
    obtain ⟨merged, hmerge⟩ := Evaluator.exists_plainMerge_iff.mpr
      fun name hname => Bool.eq_false_iff.mpr (hfind name hname)
    rw [hc.decide_eq h.ordered]
    exact ⟨_, Evaluator.plainDecide_eq_ok hs hmerge hcoord⟩

end Compiled

/-- Only the set of active roles matters, on any caches that are trusted.  Requests that differ in
their roles and name the same active ones are both refused or resolve every action alike, and the
lists of allowed and of forbidden actions are the same.  If all roles of a request are declared, its
answers do not follow from the settings.  In strict mode a request for a declared action of a
declared subject is refused exactly if one of its roles is not declared, and the first such name is
the one that is reported. -/
theorem only_active_roles_matter (hcompile : m.compile sourceId = .ok p) (settings : Settings)
    (r : AccessRequest) {c c' : ValueCache} (hc : Evaluator.Trusts ⟨p, settings⟩ r c)
    (hc' : Evaluator.Trusts ⟨p, settings⟩ r c') :
    (∀ roles', (∀ name, name ∈ m.activeNames settings r.roles ↔
        name ∈ m.activeNames settings roles') →
      (∀ action, AnsweredAlike (fun x y => x.resolution = y.resolution ∧ x.allowed = y.allowed)
        (Evaluator.decide ⟨p, settings⟩ r action c).1
        (Evaluator.decide ⟨p, settings⟩ { r with roles := roles' } action c').1) ∧
      AnsweredAlike (· = ·) (Evaluator.allowedActions ⟨p, settings⟩ r c).1
        (Evaluator.allowedActions ⟨p, settings⟩ { r with roles := roles' } c').1 ∧
      AnsweredAlike (· = ·) (Evaluator.forbiddenActions ⟨p, settings⟩ r c).1
        (Evaluator.forbiddenActions ⟨p, settings⟩ { r with roles := roles' } c').1) ∧
    ((∀ name ∈ r.roles, name ∈ m.roles.map (·.name)) → ∀ settings' : Settings,
      (∀ action, (Evaluator.decide ⟨p, settings⟩ r action c).1 =
        (Evaluator.decide ⟨p, settings'⟩ r action c').1) ∧
      (Evaluator.allowedActions ⟨p, settings⟩ r c).1 =
        (Evaluator.allowedActions ⟨p, settings'⟩ r c').1 ∧
      (Evaluator.forbiddenActions ⟨p, settings⟩ r c).1 =
        (Evaluator.forbiddenActions ⟨p, settings'⟩ r c').1) ∧
    (settings.strictRoles = true → ∀ d ∈ m.subjects, r.subject = d.name →
      ∀ action ∈ d.actions.map (·.name),
        ((∃ err, (Evaluator.decide ⟨p, settings⟩ r action c).1 = .error err) ↔
          ∃ name ∈ r.roles, name ∉ m.roles.map (·.name)) ∧
        ∀ name, r.roles.find? (fun name => name ∉ m.roles.map (·.name)) = some name →
          Evaluator.decide ⟨p, settings⟩ r action c =
            (.error (.usage (.unknownRole name)), c)) := by
  obtain ⟨subjects, g, h⟩ := compile_eq_ok hcompile
  refine ⟨fun roles' hroles => ?_, fun hroles settings' => ?_, ?_⟩
  · have hsame := h.sameRoles hroles
    exact ⟨h.decide_alike hc hc' hsame, h.actionsWith_alike hc hc' hsame .allowed,
      h.actionsWith_alike hc hc' hsame .forbidden⟩
  · exact ⟨h.decide_settings hc hc' hroles settings',
      h.actionsWith_settings hc hc' hroles settings' .allowed,
      h.actionsWith_settings hc hc' hroles settings' .forbidden⟩
  · intro hstrict d hd hsubject action haction
    have hdecide := h.decide_strict hstrict hd hsubject haction hc
    cases hfind : r.roles.find? fun name => name ∉ m.roles.map (·.name) with
    | some name =>
      rw [hfind] at hdecide
      have hfound := List.find?_some hfind
      have hunknown : name ∉ m.roles.map (·.name) := of_decide_eq_true hfound
      refine ⟨iff_of_true ⟨_, by rw [hdecide]⟩ ⟨name, List.mem_of_find?_eq_some hfind, hunknown⟩,
        fun name' hname' => ?_⟩
      obtain rfl := Option.some.inj hname'
      exact hdecide
    | none =>
      rw [hfind] at hdecide
      obtain ⟨x, hx⟩ := hdecide
      rw [List.find?_eq_none] at hfind
      refine ⟨iff_of_false ?_ ?_, fun name hname => nomatch hname⟩
      · rintro ⟨err, herr⟩
        exact nomatch hx.symm.trans herr
      · rintro ⟨name, hname, hunknown⟩
        exact hfind name hname (decide_eq_true hunknown)

/-- An editor who is locked out may name the roles in any order and more than once; a name that no
role has is skipped or reported. -/
theorem only_active_roles_matter_locked :
    let m : Model := {
      user := "Person"
      concepts := [{ name := "Person" }]
      subjects := [⟨"Document", "Person", [⟨"read", none⟩, ⟨"edit", some "read"⟩]⟩]
      roles := [⟨"editor", [⟨"Document", [.allowEverything]⟩]⟩,
        ⟨"locked", [⟨"Document", [.forbid ["edit"]]⟩]⟩] }
    let r (roles : List String) : AccessRequest :=
      { user := .null, roles, subject := "Document", resource := .null }
    let cache : ValueCache := ⟨128, [], 0, 0, 0⟩
    let lenient : Settings := { strictRoles := false }
    ∃ p, m.compile "documents" = .ok p ∧
      AnsweredAlike (fun x y => x.resolution = y.resolution ∧ x.allowed = y.allowed)
        (Evaluator.decide ⟨p, {}⟩ (r ["editor", "locked", "editor"]) "edit" cache).1
        (Evaluator.decide ⟨p, {}⟩ (r ["locked", "editor"]) "edit" cache).1 ∧
      AnsweredAlike (· = ·)
        (Evaluator.allowedActions ⟨p, lenient⟩ (r ["ghost", "editor"]) cache).1
        (Evaluator.allowedActions ⟨p, lenient⟩ (r ["editor"]) cache).1 ∧
      (Evaluator.decide ⟨p, {}⟩ (r ["locked", "editor"]) "edit" cache).1 =
        (Evaluator.decide ⟨p, lenient⟩ (r ["locked", "editor"]) "edit" cache).1 ∧
      Evaluator.decide ⟨p, {}⟩ (r ["editor", "ghost", "spirit"]) "edit" cache =
        (.error (.usage (.unknownRole "ghost")), cache) := by
  intro m r cache lenient
  obtain ⟨p, hcompile, -⟩ := Steps.exists_eq_ok_of_any (x := m.compile "documents")
    (q := fun _ => true) (by decide +kernel)
  have hcache : Cache.new 128 = .ok cache := rfl
  have hmatters (settings : Settings) (roles : List String) :=
    only_active_roles_matter hcompile settings (r roles) (Evaluator.trusts_new _ _ hcache)
      (Evaluator.trusts_new _ _ hcache)
  obtain ⟨hsame, -, -⟩ := hmatters {} ["editor", "locked", "editor"]
  obtain ⟨hskipped, -, -⟩ := hmatters lenient ["ghost", "editor"]
  obtain ⟨-, hsettings, -⟩ := hmatters {} ["locked", "editor"]
  obtain ⟨-, -, hunknown⟩ := hmatters {} ["editor", "ghost", "spirit"]
  refine ⟨p, hcompile, (hsame ["locked", "editor"] fun name => ?_).1 "edit",
    (hskipped ["editor"] fun name => ?_).2.1, (hsettings (by decide) lenient).1 "edit",
    (hunknown rfl _ List.mem_cons_self rfl "edit" (by decide)).2 "ghost" (by decide)⟩
  · simp [mem_activeNames_iff, r]
    tauto
  · have hactive : m.activeNames lenient ["ghost", "editor"] =
        m.activeNames lenient ["editor"] := by decide
    rw [hactive]

/-- Adding roles is monotone, on any caches that are trusted.  A request whose roles are accepted is
asked again with more roles.  Every declared action is decided both times: if it was forbidden, it
stays so; if it was allowed, it stays so or is forbidden, and then by a rule that matches and
belongs to a role that was not among the first.  If none of the added roles has a rule that forbids,
whatever was allowed stays allowed. -/
theorem added_roles_monotone (hcompile : m.compile sourceId = .ok p) {settings : Settings}
    {r : AccessRequest} {roles' : List String} (hsub : r.roles ⊆ roles') {d : SubjectDecl}
    (hd : d ∈ m.subjects) (hsubject : r.subject = d.name)
    (haccepted : settings.strictRoles = true → ∀ name ∈ roles', name ∈ m.roles.map (·.name))
    {c c' : ValueCache} (hc : Evaluator.Trusts ⟨p, settings⟩ r c)
    (hc' : Evaluator.Trusts ⟨p, settings⟩ r c') :
    (∀ action ∈ d.actions.map (·.name), ∃ s coord x x',
      p.subject? r.subject = some s ∧ s.actions.coord? action = some coord ∧
      (Evaluator.decide ⟨p, settings⟩ r action c).1 = .ok x ∧
      (Evaluator.decide ⟨p, settings⟩ { r with roles := roles' } action c').1 = .ok x' ∧
      (x.resolution = .forbidden → x'.resolution = .forbidden) ∧
      (x.resolution = .allowed → x'.resolution = .allowed ∨ x'.resolution = .forbidden ∧
        ∃ y ∈ x'.matched, y.mode = .forbid ∧ y.role ∉ r.roles ∧ ∃ role rule,
          p.role? y.role = some role ∧ (role.rulesFor r.subject)[y.ruleIndex]? = some rule ∧
          rule.mode = .forbid ∧ rule.mask.isSetAt coord = true)) ∧
    ∃ forbidden forbidden' allowed allowed',
      (Evaluator.forbiddenActions ⟨p, settings⟩ r c).1 = .ok forbidden ∧
      (Evaluator.forbiddenActions ⟨p, settings⟩ { r with roles := roles' } c').1 =
        .ok forbidden' ∧
      forbidden ⊆ forbidden' ∧
      (Evaluator.allowedActions ⟨p, settings⟩ r c).1 = .ok allowed ∧
      (Evaluator.allowedActions ⟨p, settings⟩ { r with roles := roles' } c').1 = .ok allowed' ∧
      ((∀ name ∈ roles', name ∉ r.roles → ∀ role, p.role? name = some role →
        ∀ rule ∈ role.rulesFor r.subject, rule.mode ≠ .forbid) → allowed ⊆ allowed') := by
  obtain ⟨subjects, g, h⟩ := compile_eq_ok hcompile
  have hc₂ : Evaluator.Trusts ⟨p, settings⟩ { r with roles := roles' } c' := hc'
  obtain ⟨s, hfound, hname, hcoords⟩ := h.exists_requireSubject hd
  rw [← hsubject] at hfound hname
  have hs : Evaluator.requireSubject ⟨p, settings⟩ r.subject = .ok s := by
    rw [Evaluator.requireSubject, hfound]
  -- one merge of rules answers every question about the one request, and one about the other
  obtain ⟨merged, hm⟩ := h.exists_plainMerge (r := r)
    (fun hstrict name hname => haccepted hstrict name (hsub hname)) s
  obtain ⟨merged', hm'⟩ := h.exists_plainMerge (r := { r with roles := roles' }) haccepted s
  have hsubset := Evaluator.subset_of_added_roles hm hm' hsub
  obtain ⟨forbidden, hforbidden, hmemForbidden⟩ :=
    Evaluator.plainActionsWith_eq_ok hs hm .forbidden
  obtain ⟨forbidden', hforbidden', hmemForbidden'⟩ :=
    Evaluator.plainActionsWith_eq_ok (r := { r with roles := roles' }) hs hm' .forbidden
  obtain ⟨allowed, hallowed, hmemAllowed⟩ := Evaluator.plainActionsWith_eq_ok hs hm .allowed
  obtain ⟨allowed', hallowed', hmemAllowed'⟩ :=
    Evaluator.plainActionsWith_eq_ok (r := { r with roles := roles' }) hs hm' .allowed
  refine ⟨fun action haction => ?_, forbidden, forbidden', allowed, allowed',
    (hc.actionsWith_eq h.ordered _).trans hforbidden,
    (hc₂.actionsWith_eq h.ordered _).trans hforbidden', ?_,
    (hc.actionsWith_eq h.ordered _).trans hallowed,
    (hc₂.actionsWith_eq h.ordered _).trans hallowed', ?_⟩
  · obtain ⟨i, hi⟩ := hcoords action haction
    have hcoord : Evaluator.requireAction s action = .ok (.ofIndex i) := by
      rw [Evaluator.requireAction, hi]
    refine ⟨s, .ofIndex i, _, _, hfound, hi,
      (hc.decide_eq h.ordered _).trans (Evaluator.plainDecide_eq_ok hs hm hcoord),
      (hc₂.decide_eq h.ordered _).trans
        (Evaluator.plainDecide_eq_ok (r := { r with roles := roles' }) hs hm' hcoord),
      MergedRules.forbidden_of_subset hsubset, fun hwas => ?_⟩
    rcases Evaluator.allowed_or_added_rule hm hm' hsub hwas with
      hstays | ⟨hnow, y, hy, hforbid, -, hnew, hrule⟩
    · exact .inl hstays
    · rw [hname] at hrule
      exact .inr ⟨hnow, y, hy, hforbid, hnew, hrule⟩
  · intro action haction
    rw [hmemForbidden] at haction
    rw [hmemForbidden']
    obtain ⟨i, hi, hresolve⟩ := haction
    exact ⟨i, hi, MergedRules.forbidden_of_subset hsubset hresolve⟩
  · intro hno action haction
    rw [hmemAllowed] at haction
    rw [hmemAllowed']
    obtain ⟨i, hi, hresolve⟩ := haction
    refine ⟨i, hi, ?_⟩
    rcases Evaluator.allowed_or_added_rule hm hm' hsub hresolve with
      hstays | ⟨-, y, -, -, hin, hnew, role, rule, hrole, hrule, hmode, -⟩
    · exact hstays
    · -- the rule would be one that no added role has
      rw [hname] at hrule
      exact absurd hmode (hno y.role hin hnew role hrole rule (List.mem_of_getElem? hrule))

/-- Who reads may edit as well once an editor, and a lock takes this away by its own rule. -/
theorem added_roles_monotone_locked :
    let m : Model := {
      user := "Person"
      concepts := [{ name := "Person" }]
      subjects := [⟨"Document", "Person", [⟨"read", none⟩, ⟨"edit", some "read"⟩]⟩]
      roles := [⟨"reader", [⟨"Document", [.allow ["read"]]⟩]⟩,
        ⟨"editor", [⟨"Document", [.allowEverything]⟩]⟩,
        ⟨"locked", [⟨"Document", [.forbid ["edit"]]⟩]⟩] }
    let r (roles : List String) : AccessRequest :=
      { user := .null, roles, subject := "Document", resource := .null }
    let cache : ValueCache := ⟨128, [], 0, 0, 0⟩
    ∃ p, m.compile "documents" = .ok p ∧
      (∃ allowed allowed',
        (Evaluator.allowedActions ⟨p, {}⟩ (r ["reader"]) cache).1 = .ok allowed ∧
        (Evaluator.allowedActions ⟨p, {}⟩ (r ["editor", "reader"]) cache).1 = .ok allowed' ∧
        allowed ⊆ allowed') ∧
      ∃ x x', (Evaluator.decide ⟨p, {}⟩ (r ["reader"]) "read" cache).1 = .ok x ∧
        (Evaluator.decide ⟨p, {}⟩ (r ["locked", "reader"]) "read" cache).1 = .ok x' ∧
        (x.resolution = .allowed → x'.resolution = .allowed ∨ x'.resolution = .forbidden ∧
          ∃ y ∈ x'.matched, y.mode = .forbid ∧ y.role ∉ ["reader"]) := by
  intro m r cache
  obtain ⟨p, hcompile, hp⟩ := Steps.exists_eq_ok_of_any (x := m.compile "documents")
    (q := fun p => (p.role? "editor").all fun role =>
      (role.rulesFor "Document").all (·.mode ≠ .forbid)) (by decide +kernel)
  have hcache : Cache.new 128 = .ok cache := rfl
  have htrusts (roles : List String) : Evaluator.Trusts ⟨p, {}⟩ (r roles) cache :=
    Evaluator.trusts_new _ _ hcache
  obtain ⟨-, -, -, allowed, allowed', -, -, -, hallowed, hallowed', hsub⟩ :=
    added_roles_monotone hcompile
      (show (r ["reader"]).roles ⊆ ["editor", "reader"] from List.subset_cons_self _ _)
      List.mem_cons_self rfl (by decide) (htrusts _) (htrusts _)
  obtain ⟨hdecide, -⟩ :=
    added_roles_monotone hcompile
      (show (r ["reader"]).roles ⊆ ["locked", "reader"] from List.subset_cons_self _ _)
      List.mem_cons_self rfl (by decide) (htrusts _) (htrusts _)
  obtain ⟨_, _, x, x', -, -, hx, hx', -, hkept⟩ := hdecide "read" (by decide)
  refine ⟨p, hcompile, ⟨allowed, allowed', hallowed, hallowed', hsub ?_⟩, x, x', hx, hx',
    fun hwas => ?_⟩
  · -- the only added role is the one of editors
    intro name hname hnew role hrole rule hrule
    obtain rfl : name = "editor" := by simp_all [r]
    rw [hrole] at hp
    exact of_decide_eq_true (List.all_eq_true.mp hp rule hrule)
  · rcases hkept hwas with hstays | ⟨hnow, y, hy, hmode, hrole, -⟩
    · exact .inl hstays
    · exact .inr ⟨hnow, y, hy, hmode, hrole⟩

end Model

end AccessPolicy
