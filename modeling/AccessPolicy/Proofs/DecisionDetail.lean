import AccessPolicy.Proofs.ActiveRoles
import AccessPolicy.Proofs.SchemaVersion
import AccessPolicy.Proofs.SharedCache

/-!
# Decision detail — the matched rules explain the answer

A decision names each rule that matched by its role, its place among the rules of the role for the
subject, and its mode.  These names are all it takes to look the masks up and to resolve the action
again.  The lists of allowed and of forbidden actions resolve every action of the subject the same
way, though they address actions by bit and not by name.
-/

namespace AccessPolicy

namespace Policy

/-- The rules of a role for a subject; a name that no role has stands for none. -/
def rulesOf (p : Policy) (role subject : String) : List Rule :=
  ((p.role? role).map (·.rulesFor subject)).getD []

/-- The rule that a decision names. -/
def ruleAt? (p : Policy) (subject : String) (y : MatchedRule) : Option Rule :=
  (p.rulesOf y.role subject)[y.ruleIndex]?

/-- How rules that are given by their names resolve an action: forbidden if the mask of one that
forbids has its bit, otherwise allowed if that of one that allows has it. -/
def resolveNamed (p : Policy) (subject : String) (ys : List MatchedRule) (c : BitCoord) :
    Resolution :=
  let reached (mode : AccessMode) : Bool :=
    ys.any fun y => y.mode = mode && (p.ruleAt? subject y).any (·.mask.isSetAt c)
  if ys.isEmpty then .noMatchingRule
  else if reached .forbid then .forbidden
  else if reached .allow then .allowed
  else .notGranted

end Policy

namespace Evaluator

/-- Is the rule's condition, read in new values of the request, truthy? -/
def readsTruthy (e : Evaluator) (r : AccessRequest) (s : PolicySubject) (rule : Rule) : Bool :=
  (SubjectValues.read rule.condition (e.freshValues r s)).any (·.1.truthy)

/-- The names of the rules that match a request.  The roles are taken in the order of the request, a
role that is given twice also twice, and the rules of each in their order. -/
def explain (e : Evaluator) (r : AccessRequest) (s : PolicySubject) : List MatchedRule :=
  r.roles.flatMap fun role =>
    (e.policy.rulesOf role s.name).zipIdx.filterMap fun (rule, k) =>
      if e.readsTruthy r s rule then some ⟨role, k, rule.mode⟩ else none

variable {e : Evaluator} {r : AccessRequest} {s : PolicySubject} {m : MergedRules}

/-! ## Names of matched rules -/

theorem map_fst_matchedRules (values : NodeIndex → Json) (role : String) (start : Nat)
    (rules : List Rule) : (matchedRules values role start rules).map (·.1) =
      (rules.zipIdx start).filterMap fun (rule, k) =>
        if (values rule.condition).truthy then some ⟨role, k, rule.mode⟩ else none := by
  induction rules generalizing start with
  | nil => rfl
  | cons rule rest ih =>
    rw [matchedRules, List.zipIdx_cons, List.filterMap_cons]
    by_cases hholds : (values rule.condition).truthy = true
    · simp only [hholds, if_true, List.map_cons]
      rw [ih]
    · simp only [hholds]
      exact ih (start + 1)

theorem readsTruthy_eq (hpolicy : e.policy.Ordered) (hs : s ∈ e.policy.subjects) (rule : Rule) :
    e.readsTruthy r s rule = ((e.freshValues r s).value rule.condition).truthy := by
  have hsound : (e.freshValues r s).Sound :=
    SubjectValues.sound_new (hpolicy.subjects s hs) (CommonValues.sound_new hpolicy.common _ _) _
  obtain ⟨w, hread, -⟩ := SubjectValues.read_run hsound rule.condition
  rw [readsTruthy, hread]
  rfl

/-- Merging keeps the names that explain the request. -/
theorem map_fst_plainMerge (hpolicy : e.policy.Ordered) (hs : s ∈ e.policy.subjects)
    (hm : e.plainMerge r s = .ok m) : m.matched.map (·.1) = e.explain r s := by
  obtain ⟨roles, hroles, hm⟩ := Steps.check_bind_eq_ok.mp hm
  obtain ⟨-, rfl⟩ := activeRoles_eq_ok_iff.mp hroles
  obtain rfl := Except.ok.inj hm
  show (matchedRoles _ _ _).map _ = _
  unfold explain matchedRoles
  simp only [readsTruthy_eq hpolicy hs]
  induction r.roles with
  | nil => rfl
  | cons name rest ih =>
    rw [List.flatMap_cons, ← ih]
    cases hrole : e.policy.role? name with
    | none =>
      -- a name without a role is skipped on one side and has no rules on the other
      rw [List.filterMap_cons_none hrole, Policy.rulesOf, hrole]
      rfl
    | some role =>
      have hfound := List.find?_some hrole
      have hname : role.name = name := of_decide_eq_true hfound
      rw [List.filterMap_cons_some hrole, List.flatMap_cons, List.map_append,
        map_fst_matchedRules, hname, Policy.rulesOf, hrole]
      rfl

/-- What matched is found again under its name, with its mask. -/
theorem exists_ruleAt? (hm : e.plainMerge r s = .ok m) {x : MatchedRule × Bitmask}
    (hx : x ∈ m.matched) : ∃ rule, e.policy.ruleAt? s.name x.1 = some rule ∧ rule.mask = x.2 := by
  obtain ⟨name, -, role, hrole, hx⟩ := (mem_plainMerge_iff hm).mp hx
  obtain ⟨k, rule, hrule, rfl, -⟩ := mem_matchedRules_iff.mp hx
  have hfound := List.find?_some hrole
  have hname : role.name = name := of_decide_eq_true hfound
  refine ⟨rule, ?_, rfl⟩
  simp only [Policy.ruleAt?, Policy.rulesOf, hname, hrole, Nat.zero_add]
  exact hrule

/-- Looking the masks up again resolves as merging them does. -/
theorem resolve_eq_resolveNamed (hm : e.plainMerge r s = .ok m) (i : Nat) :
    m.resolve (.ofIndex i) =
      e.policy.resolveNamed s.name (m.matched.map (·.1)) (.ofIndex i) := by
  have hreached (mode : AccessMode) : (m.mask mode).isSetAt (.ofIndex i) =
      (m.matched.map (·.1)).any fun y =>
        y.mode = mode && (e.policy.ruleAt? s.name y).any (·.mask.isSetAt (.ofIndex i)) := by
    rw [Bool.eq_iff_iff, MergedRules.isSetAt_mask_iff, List.any_map, List.any_eq_true]
    apply exists_congr
    intro x
    apply and_congr_right
    intro hx
    obtain ⟨rule, hrule, hmask⟩ := exists_ruleAt? hm hx
    rw [Function.comp_apply, hrule, Option.any_some, hmask, Bool.and_eq_true, decide_eq_true_iff]
    rfl
  have hempty : (m.matched.map (·.1)).isEmpty = m.matched.isEmpty := List.isEmpty_map
  unfold MergedRules.resolve Policy.resolveNamed
  rw [hreached, hreached, hempty]

/-! ## Answers -/

theorem exists_of_plainDecide_eq_ok {action : String} {x : AccessDecision}
    (h : e.plainDecide r action = .ok x) : ∃ s i m, e.policy.subject? r.subject = some s ∧
      s.actions.bit? action = some i ∧ e.plainMerge r s = .ok m ∧
      x.matched = m.matched.map (·.1) ∧ x.resolution = m.resolve (.ofIndex i) := by
  obtain ⟨s, hs, h⟩ := Steps.check_bind_eq_ok.mp h
  obtain ⟨coord, hcoord, h⟩ := Steps.check_bind_eq_ok.mp h
  obtain ⟨m, hm, h⟩ := Steps.check_bind_eq_ok.mp h
  obtain ⟨i, hi, rfl⟩ := exists_of_requireAction hcoord
  obtain rfl := Except.ok.inj h
  exact ⟨s, i, m, requireSubject_eq_ok hs, hi, hm, rfl, rfl⟩

theorem exists_of_plainActionsWith_eq_ok {wanted : Resolution} {names : List String}
    (h : e.plainActionsWith r wanted = .ok names) : ∃ s m, e.policy.subject? r.subject = some s ∧
      e.plainMerge r s = .ok m ∧ names.Sublist s.actions.names ∧
      ∀ action, action ∈ names ↔
        ∃ i, s.actions.names[i]? = some action ∧ m.resolve (.ofIndex i) = wanted := by
  obtain ⟨s, hs, hanswer⟩ := Steps.check_bind_eq_ok.mp h
  obtain ⟨m, hm, hanswer⟩ := Steps.check_bind_eq_ok.mp hanswer
  obtain ⟨names', hnames', hmem⟩ := plainActionsWith_eq_ok hs hm wanted
  obtain rfl := Except.ok.inj (hnames'.symm.trans h)
  refine ⟨s, m, requireSubject_eq_ok hs, hm, ?_, hmem⟩
  obtain rfl := Except.ok.inj hanswer
  -- filtering keeps the order, and the names go with their bits in order
  have hsub := (List.filter_sublist (l := s.actions.names.zipIdx)
    (p := fun x => m.resolve (.ofIndex x.2) == wanted)).map Prod.fst
  rwa [List.zipIdx_map_fst] at hsub

end Evaluator

/-! ## Compiled policies -/

theorem map_mode_of_renders {c : RuleContext} {g : Graph} {ps : List GuardedPermission}
    {rules : List Rule} (h : List.Forall₂ (Renders c g) ps rules) :
    rules.map (·.mode) = ps.map (·.permission.1) := by
  induction h with
  | nil => rfl
  | cons hrule _ ih => rw [List.map_cons, List.map_cons, ih, hrule.mode]

namespace Model.Compiled

variable {m : Model} {sourceId : String} {p : Policy} {subjects : List EncodedSubject} {g : Graph}

/-- A role has one rule for each permission of its blocks for the subject, block after block. -/
theorem mode_rulesOf (h : Compiled m sourceId p subjects g) {role : RoleDecl}
    (hrole : role ∈ m.roles) {d : SubjectDecl} (hd : d ∈ m.subjects) :
    (p.rulesOf role.name d.name).map (·.mode) =
      (guardedAll [] (statementsFor d.name role)).map (·.permission.1) := by
  obtain ⟨id, t, hid⟩ := h.exists_encoded hd
  have hfind : m.roles.find? (·.name = role.name) = some role := find?_name h.roleNames hrole
  have hrel := h.role?_rel role.name
  rw [hfind] at hrel
  cases hcompiled : p.role? role.name with
  | none =>
    rw [hcompiled] at hrel
    cases hrel
  | some compiled =>
    rw [hcompiled] at hrel
    cases hrel with
    | some hrole =>
      rw [Policy.rulesOf, hcompiled]
      exact map_mode_of_renders (hrole.rules hid)

theorem rulesOf_undeclared (h : Compiled m sourceId p subjects g) {name : String}
    (hname : name ∉ m.roles.map (·.name)) (subject : String) : p.rulesOf name subject = [] := by
  rw [← h.isSome_role?_iff, Bool.not_eq_true, Option.isSome_eq_false_iff,
    Option.isNone_iff_eq_none] at hname
  rw [Policy.rulesOf, hname]
  rfl

theorem exists_decl_of_subject? (h : Compiled m sourceId p subjects g) {name : String}
    {s : PolicySubject} (hs : p.subject? name = some s) : ∃ d ∈ m.subjects, d.name = name ∧
      s.name = name ∧ ActionTree.build d = .ok s.actions := by
  obtain ⟨id, d, hid, hname⟩ := h.exists_encoded_of_subject? hs
  have hmem := List.mem_of_getElem? hid
  have hfound := List.find?_some hs
  have hsname : s.name = name := of_decide_eq_true hfound
  refine ⟨d, ?_, hname.symm.trans hsname, hsname, h.actions _ hmem⟩
  rw [← h.decls]
  exact List.mem_map_of_mem hmem

end Model.Compiled

/-! ## Runs -/

/-- The resolution that the actions of a listing have. -/
def Query.wanted? : Query → Option Resolution
  | .allowedActions _ => some .allowed
  | .forbiddenActions _ => some .forbidden
  | .decide _ _ | .can _ _ => none

namespace Evaluator

variable {e : Evaluator}

theorem plainDecide_of_plainAsk {r : AccessRequest} {action : String} {x : AccessDecision}
    (h : e.plainAsk (.decide r action) = .ok (.decision x)) : e.plainDecide r action = .ok x := by
  obtain ⟨x', hx', h⟩ := Steps.check_bind_eq_ok.mp h
  obtain rfl : x' = x := by injection Except.ok.inj h
  exact hx'

theorem plainActionsWith_of_plainAsk {q : Query} {wanted : Resolution}
    (hq : q.wanted? = some wanted) {names : List String} (h : e.plainAsk q = .ok (.actions names)) :
    e.plainActionsWith q.request wanted = .ok names := by
  have hlisted {wanted : Resolution}
      (h : (do return .actions (← e.plainActionsWith q.request wanted) :
        Except PolicyError Answer) = .ok (.actions names)) :
      e.plainActionsWith q.request wanted = .ok names := by
    obtain ⟨names', hnames', h⟩ := Steps.check_bind_eq_ok.mp h
    obtain rfl : names' = names := by injection Except.ok.inj h
    exact hnames'
  cases q with
  | allowedActions r =>
    obtain rfl := Option.some.inj hq
    exact hlisted h
  | forbiddenActions r =>
    obtain rfl := Option.some.inj hq
    exact hlisted h
  | decide r action => exact nomatch hq
  | can r action => exact nomatch hq

/-- Where a listing is answered, every action of the subject is decided, and listed if its
resolution is the one that is asked for. -/
theorem exists_plainDecide_of_listed {m : Model} {sourceId : String}
    {subjects : List Model.EncodedSubject} {g : Graph}
    (h : Model.Compiled m sourceId e.policy subjects g) {r : AccessRequest} {wanted : Resolution}
    {names : List String} (hnames : e.plainActionsWith r wanted = .ok names) :
    ∃ d ∈ m.subjects, d.name = r.subject ∧ names.Sublist (d.actions.map (·.name)) ∧ names.Nodup ∧
      ∀ action ∈ d.actions.map (·.name), ∃ x, e.plainDecide r action = .ok x ∧
        (action ∈ names ↔ x.resolution = wanted) := by
  obtain ⟨s, merged, hs, hmerge, hsub, hmem⟩ := exists_of_plainActionsWith_eq_ok hnames
  obtain ⟨d, hd, hname, -, hbuild⟩ := h.exists_decl_of_subject? hs
  have hids : s.actions.names = d.actions.map (·.name) := ActionTree.ids_of_build hbuild
  have hnodup : (d.actions.map (·.name)).Nodup := by
    obtain ⟨hnodup, -⟩ := NestedSet.encode_eq_ok (ActionTree.build_eq_ok hbuild).1
    rwa [HierarchyNode.ids, List.map_map] at hnodup
  rw [hids] at hsub
  refine ⟨d, hd, hname, hsub, hsub.nodup hnodup, fun action haction => ?_⟩
  obtain ⟨i, hi⟩ := ActionTree.exists_bit? hbuild haction
  have hfound : e.requireSubject r.subject = .ok s := by rw [requireSubject, hs]
  have hcoord : requireAction s action = .ok (.ofIndex i) := by
    rw [requireAction, ActionTree.coord?, hi]
    rfl
  refine ⟨_, plainDecide_eq_ok hfound hmerge hcoord, ?_⟩
  rw [hmem, hids]
  constructor
  · rintro ⟨j, hj, hresolve⟩
    -- a name has one bit, the one that the decision reads
    obtain rfl := Option.some.inj (hi.symm.trans ((ActionTree.bit?_eq_some_iff hbuild).mpr hj))
    exact hresolve
  · intro hresolve
    exact ⟨i, (ActionTree.bit?_eq_some_iff hbuild).mp hi, hresolve⟩

end Evaluator

/-- Where one look-up is made over and over, it is enough that its own two keys differ. -/
theorem LookUp.distinct_of_forall_eq {N : Json → Prop} (hnumbers : Key.TextsApart N) {l₀ : LookUp}
    (hversion : Key.Sized l₀.evaluator.policy.schemaVersion) (hholds : l₀.request.Holds N)
    (hkeys : Blake3.hex l₀.commonBytes ≠ Blake3.hex l₀.subjectBytes) {ls : List LookUp}
    (hls : ∀ l ∈ ls, l = l₀) : LookUp.Distinct N ls where
  numbers := hnumbers
  policies l hl l' hl' _ := by rw [hls l hl, hls l' hl']
  versions l hl := by rwa [hls l hl]
  requests l hl := by rwa [hls l hl]
  digests := by
    have hhashed (x : List UInt8) (hx : x ∈ ls.flatMap LookUp.hashed) :
        x = l₀.commonBytes ∨ x = l₀.subjectBytes := by
      obtain ⟨l, hl, hx⟩ := List.mem_flatMap.mp hx
      rw [hls l hl] at hx
      simpa [LookUp.hashed] using hx
    intro x hx y hy hxy
    rcases hhashed x hx with rfl | rfl <;> rcases hhashed y hy with rfl | rfl
    · rfl
    · exact absurd hxy hkeys
    · exact absurd hxy.symm hkeys
    · rfl

namespace CacheCall

/-- In a run of evaluators of compiled policies every query is answered as without a cache. -/
theorem reply_eq_plainAsk {N : Json → Prop} {calls : List CacheCall}
    (hdistinct : LookUp.Distinct N (calls.filterMap lookUp?))
    (hcompiled : ∀ e q, .ask e q ∈ calls → ∃ m sourceId, Model.compile m sourceId = .ok e.policy)
    {capacity : Nat} {c : ValueCache} (hc : Cache.new capacity = .ok c) {i : Nat} {e : Evaluator}
    {q : Query} (hi : calls[i]? = some (.ask e q)) :
    (runAll calls c).1[i]? = some (.answer (e.plainAsk q)) := by
  have hordered (e : Evaluator) (q : Query) (hcall : .ask e q ∈ calls) : e.policy.Ordered := by
    obtain ⟨m, sourceId, hcompile⟩ := hcompiled e q hcall
    obtain ⟨subjects, g, h⟩ := Model.compile_eq_ok hcompile
    exact h.ordered
  exact runAll_ask hdistinct hordered (fun _ hcall => hcall) (Cache.all_of_new hc) hi

/-- Decisions are explained, whatever was asked before on the cache.  Evaluators of compiled
policies share a cache on which the keys of different requests differ.  The matched rules of a
decision are those whose conditions read truthy, role after role as the request lists them and in
the order of the rules, and the resolution follows from the masks of the rules that they name.  The
rules of a declared role for a subject are those for the permissions of all its blocks for the
subject, one block after the other, and other names have no rules.  The lists of allowed and of
forbidden actions follow the declaration without repetition; where one is answered, every action of
the subject is decided as well, and is in the list exactly if its resolution is the listed one. -/
theorem decisions_are_explained {N : Json → Prop} {calls : List CacheCall}
    (hdistinct : LookUp.Distinct N (calls.filterMap lookUp?))
    (hcompiled : ∀ e q, .ask e q ∈ calls → ∃ m sourceId, Model.compile m sourceId = .ok e.policy)
    {capacity : Nat} {c : ValueCache} (hc : Cache.new capacity = .ok c) {e : Evaluator} {m : Model}
    {sourceId : String} (hcompile : m.compile sourceId = .ok e.policy) :
    (∀ (i : Nat) r action x, calls[i]? = some (.ask e (.decide r action)) →
      (runAll calls c).1[i]? = some (.answer (.ok (.decision x))) →
      ∃ s coord, e.policy.subject? r.subject = some s ∧ s.actions.coord? action = some coord ∧
        x.matched = e.explain r s ∧
        x.resolution = e.policy.resolveNamed r.subject x.matched coord) ∧
    (∀ role ∈ m.roles, ∀ d ∈ m.subjects, (e.policy.rulesOf role.name d.name).map (·.mode) =
      (guardedAll [] (Model.statementsFor d.name role)).map (·.permission.1)) ∧
    (∀ name, name ∉ m.roles.map (·.name) → ∀ subject, e.policy.rulesOf name subject = []) ∧
    ∀ (i : Nat) (q : Query) wanted names, q.wanted? = some wanted → calls[i]? = some (.ask e q) →
      (runAll calls c).1[i]? = some (.answer (.ok (.actions names))) →
      ∃ d ∈ m.subjects, d.name = q.request.subject ∧ names.Sublist (d.actions.map (·.name)) ∧
        names.Nodup ∧ ∀ action ∈ d.actions.map (·.name), ∀ j : Nat,
          calls[j]? = some (.ask e (.decide q.request action)) →
          ∃ x, (runAll calls c).1[j]? = some (.answer (.ok (.decision x))) ∧
            (action ∈ names ↔ x.resolution = wanted) := by
  obtain ⟨subjects, g, h⟩ := Model.compile_eq_ok hcompile
  have hanswer {i : Nat} {q : Query} {a : Answer} (hi : calls[i]? = some (.ask e q))
      (ha : (runAll calls c).1[i]? = some (.answer (.ok a))) : e.plainAsk q = .ok a := by
    rw [reply_eq_plainAsk hdistinct hcompiled hc hi] at ha
    injection Option.some.inj ha
  refine ⟨fun i r action x hi ha => ?_, fun role hrole d hd => h.mode_rulesOf hrole hd,
    fun name hname subject => h.rulesOf_undeclared hname subject,
    fun i q wanted names hq hi ha => ?_⟩
  · have hplain := Evaluator.plainDecide_of_plainAsk (hanswer hi ha)
    obtain ⟨s, bit, merged, hs, hbit, hmerge, hmatched, hresolution⟩ :=
      Evaluator.exists_of_plainDecide_eq_ok hplain
    obtain ⟨d, -, -, hname, -⟩ := h.exists_decl_of_subject? hs
    refine ⟨s, .ofIndex bit, hs, by rw [ActionTree.coord?, hbit]; rfl, ?_, ?_⟩
    · rw [hmatched]
      exact Evaluator.map_fst_plainMerge h.ordered (Evaluator.mem_subjects hs) hmerge
    · rw [hresolution, hmatched, ← hname]
      exact Evaluator.resolve_eq_resolveNamed hmerge bit
  · have hplain := Evaluator.plainActionsWith_of_plainAsk hq (hanswer hi ha)
    obtain ⟨d, hd, hname, hsub, hnodup, hdecided⟩ :=
      Evaluator.exists_plainDecide_of_listed h hplain
    refine ⟨d, hd, hname, hsub, hnodup, fun action haction j hj => ?_⟩
    obtain ⟨x, hx, hlisted⟩ := hdecided action haction
    refine ⟨x, ?_, hlisted⟩
    rw [reply_eq_plainAsk hdistinct hcompiled hc hj, Evaluator.plainAsk, hx]
    rfl

set_option maxRecDepth 8192 in
/-- A role with rules in two blocks, given twice beside a name that is skipped: what the one block
allows the other forbids, and both rules are named twice. -/
theorem decisions_are_explained_twice :
    let m : Model := {
      user := "U"
      concepts := [{ name := "U" }]
      subjects := [⟨"S", "U", [⟨"a", none⟩, ⟨"b", none⟩]⟩]
      roles := [⟨"R", [⟨"S", [.allowEverything]⟩, ⟨"S", [.forbid ["b"]]⟩]⟩] }
    let r : AccessRequest :=
      { user := .null, roles := ["R", "ghost", "R"], subject := "S", resource := .int 7 }
    let e (p : Policy) : Evaluator := ⟨p, { strictRoles := false }⟩
    let calls (p : Policy) : List CacheCall :=
      [.ask (e p) (.decide r "b"), .clear, .ask (e p) (.allowedActions r)]
    ∃ p x names, m.compile "" = .ok p ∧
      (runAll (calls p) ⟨1, [], 0, 0, 0⟩).1[0]? = some (.answer (.ok (.decision x))) ∧
      x.matched = [⟨"R", 0, .allow⟩, ⟨"R", 1, .forbid⟩, ⟨"R", 0, .allow⟩, ⟨"R", 1, .forbid⟩] ∧
      x.resolution = .forbidden ∧
      (runAll (calls p) ⟨1, [], 0, 0, 0⟩).1[2]? = some (.answer (.ok (.actions names))) ∧
      names.Sublist ["a", "b"] ∧ "b" ∉ names := by
  intro m r e calls
  let version := "c4ba08f8cc7805f4c20e494794681581f1692ab3eb7734fa7a7b734e7743d23e"
  let common := "4dec6a33e072e9b4b1f31dfd44edb2f0abebb94412f36fc4a0fde7e5fd03dffb"
  obtain ⟨p, hcompile, hp⟩ := Steps.exists_eq_ok_of_any (x := m.compile "")
    (q := fun p => ((e p).plainDecide r "b").toOption.any (·.resolution = .forbidden) ∧
      ((e p).plainActionsWith r .allowed).toOption.any (fun _ => true) ∧
      (p.subject? "S").all fun s => (e p).explain r s =
        [⟨"R", 0, .allow⟩, ⟨"R", 1, .forbid⟩, ⟨"R", 0, .allow⟩, ⟨"R", 1, .forbid⟩])
    (by decide +kernel)
  obtain ⟨hdecided, hlisted, hexplained⟩ := of_decide_eq_true hp
  obtain ⟨x, hx, hforbidden⟩ := Steps.exists_eq_ok_of_any hdecided
  obtain ⟨names, hnames, -⟩ := Steps.exists_eq_ok_of_any hlisted
  have hversion : p.schemaVersion = version := by
    obtain ⟨subjects, g, h⟩ := Model.compile_eq_ok hcompile
    rw [h.schemaVersion, Model.schemaVersion, Model.versionBytes_eq_utf8, Key.utf8,
      String.toList_ofList]
    -- hashing reads each byte many times, so they are spelled out first
    conv_lhs => arg 1; cbv
    decide +kernel
  -- the two keys of the request, one after the other
  have hcommon : Key.common version .null .null = common := by decide +kernel
  have hsubject : Key.subject version common "S" (.int 7) ≠ common := by decide +kernel
  have hkeys : Blake3.hex (LookUp.commonBytes ⟨e p, r⟩) ≠
      Blake3.hex (LookUp.subjectBytes ⟨e p, r⟩) := by
    show Key.common p.schemaVersion .null .null ≠
      Key.subject p.schemaVersion (Key.common p.schemaVersion .null .null) "S" (.int 7)
    rw [hversion, hcommon]
    exact hsubject.symm
  have hask (e' : Evaluator) (q : Query) (h : .ask e' q ∈ calls p) : e' = e p ∧ q.request = r := by
    simp only [calls, List.mem_cons, CacheCall.ask.injEq, List.not_mem_nil, or_false, reduceCtorEq,
      false_or] at h
    rcases h with ⟨rfl, rfl⟩ | ⟨rfl, rfl⟩ <;> exact ⟨rfl, rfl⟩
  have hdistinct : LookUp.Distinct (fun n => n = .int 7) ((calls p).filterMap lookUp?) := by
    apply LookUp.distinct_of_forall_eq _ _ _ hkeys
    · intro l hl
      obtain ⟨q, hq, hr⟩ := exists_call hl
      obtain ⟨hl₁, hl₂⟩ := hask _ q hq
      cases l
      exact congrArg₂ LookUp.mk hl₁ (hr.trans hl₂)
    · rintro x y rfl rfl -
      rfl
    · show Key.Sized p.schemaVersion
      rw [hversion]
      decide
    · exact ⟨trivial, trivial, ⟨rfl, by decide⟩, show Key.Sized "S" by decide⟩
  have hcompiled (e' : Evaluator) (q : Query) (h : .ask e' q ∈ calls p) :
      ∃ m sourceId, Model.compile m sourceId = .ok e'.policy := by
    rw [(hask e' q h).1]
    exact ⟨m, "", hcompile⟩
  have hc : Cache.new 1 = .ok (⟨1, [], 0, 0, 0⟩ : ValueCache) := rfl
  obtain ⟨hdecisions, -, -, hlistings⟩ :=
    decisions_are_explained hdistinct hcompiled hc (e := e p) hcompile
  have hreply₀ :
      (runAll (calls p) ⟨1, [], 0, 0, 0⟩).1[0]? = some (.answer (.ok (.decision x))) := by
    have hreply := reply_eq_plainAsk hdistinct hcompiled hc (i := 0) (q := .decide r "b") rfl
    rw [hreply, Evaluator.plainAsk, hx]
    rfl
  have hreply₂ :
      (runAll (calls p) ⟨1, [], 0, 0, 0⟩).1[2]? = some (.answer (.ok (.actions names))) := by
    have hreply := reply_eq_plainAsk hdistinct hcompiled hc (i := 2) (q := .allowedActions r) rfl
    rw [hreply, Evaluator.plainAsk, hnames]
    rfl
  obtain ⟨s, coord, hs, -, hmatched, -⟩ := hdecisions 0 r "b" x rfl hreply₀
  obtain ⟨d, hd, -, hsub, -, hdecided⟩ :=
    hlistings 2 (.allowedActions r) .allowed names rfl rfl hreply₂
  obtain rfl := List.mem_singleton.mp hd
  obtain ⟨x', hx', hb⟩ := hdecided "b" (by decide) 0 rfl
  rw [hreply₀] at hx'
  obtain rfl : x = x' := by simpa using hx'
  have hresolution : x.resolution = .forbidden := of_decide_eq_true hforbidden
  have hs' : p.subject? "S" = some s := hs
  rw [hs'] at hexplained
  refine ⟨p, x, names, hcompile, hreply₀, hmatched.trans (of_decide_eq_true hexplained),
    hresolution, hreply₂, hsub, ?_⟩
  rw [hb, hresolution]
  decide

end CacheCall

end AccessPolicy
