import AccessPolicy.Proofs.Compile
import AccessPolicy.Proofs.Matching

/-!
# Interpretation — decisions follow from the model

The rules that match a request are, one by one, those of the permissions that walking the model
reaches for it.  Their masks hold what the permissions say, so a compiled policy decides as the
model does.
-/

namespace AccessPolicy

/-! ## Selections -/

theorem mem_mapM {α β : Type} {f : α → Except PolicyError β} {as : List α} {bs : List β}
    (h : as.mapM f = .ok bs) (b : β) : b ∈ bs ↔ ∃ a ∈ as, f a = .ok b := by
  have hall := Steps.forall₂_of_mapM h
  clear h
  induction hall with
  | nil => simp
  | cons ha _ ih =>
    rw [List.mem_cons, List.exists_mem_cons_iff, ha, Except.ok.injEq, eq_comm]
    exact or_congr Iff.rfl ih

section

variable {d : SubjectDecl} {t : ActionTree} (hbuild : ActionTree.build d = .ok t)
include hbuild

/-- A selection names the bits of its targets. -/
theorem mem_select {c : RuleContext} (hc : c.actions = t) {selection : ActionSelection}
    {bits : List Nat} (h : Rule.select c selection = .ok bits) (b : Nat) :
    b ∈ bits ↔ ∃ target ∈ d.targets selection, t.bit? target = some b := by
  cases selection with
  | everything =>
    -- every bit of the tree belongs to an action of the subject
    obtain rfl := Except.ok.inj h
    rw [hc, List.mem_range, SubjectDecl.targets]
    constructor
    · intro hb
      obtain ⟨target, htarget⟩ := ActionTree.exists_name hbuild hb
      have hmem := List.mem_of_getElem? ((ActionTree.bit?_eq_some_iff hbuild).mp htarget)
      exact ⟨target, hmem, htarget⟩
    · rintro ⟨target, -, htarget⟩
      exact ActionTree.bit_lt_size hbuild htarget
  | actions names =>
    rw [mem_mapM h]
    refine exists_congr fun name => and_congr_right fun _ => ?_
    rw [Rule.bitOf_eq_ok_iff, hc]

theorem reaches_iff_spreads (p : Permission) (action : String) : d.reaches p action = true ↔
    ∃ target ∈ d.targets p.2, d.Spreads p.1 target action := by
  have hencode := (ActionTree.build_eq_ok hbuild).1
  obtain ⟨mode, selection⟩ := p
  rw [SubjectDecl.reaches, List.any_eq_true]
  refine exists_congr fun target => and_congr_right fun _ => ?_
  cases mode <;> exact HierarchyNode.isBelow_iff_reaches hencode

end

/-! ## Resolutions -/

theorem SubjectDecl.resolve_eq_noMatchingRule_iff (d : SubjectDecl) {reached : List Permission}
    {action : String} : d.resolve reached action = .noMatchingRule ↔ reached = [] := by
  unfold resolve
  cases reached with
  | nil => simp
  | cons p rest =>
    rw [List.isEmpty_cons, if_neg Bool.false_ne_true]
    refine iff_of_false ?_ (List.cons_ne_nil p rest)
    split
    · exact Resolution.noConfusion
    · split <;> exact Resolution.noConfusion

theorem any_reaches_iff {d : SubjectDecl} {t : ActionTree}
    (hbuild : ActionTree.build d = .ok t) {reached : List Permission} {mode : AccessMode}
    {action : String} :
    (reached.any fun p => p.1 = mode && d.reaches p action) = true ↔
      ∃ p ∈ reached, p.1 = mode ∧ ∃ target ∈ d.targets p.2, d.Spreads mode target action := by
  rw [List.any_eq_true]
  refine exists_congr fun p => and_congr_right fun _ => ?_
  rw [Bool.and_eq_true, decide_eq_true_eq, reaches_iff_spreads hbuild]
  refine and_congr_right fun hmode => ?_
  rw [hmode]

theorem resolve_eq_forbidden_iff {d : SubjectDecl} {t : ActionTree}
    (hbuild : ActionTree.build d = .ok t) {reached : List Permission} {action : String} :
    d.resolve reached action = .forbidden ↔ ∃ p ∈ reached, p.1 = .forbid ∧
      ∃ target ∈ d.targets p.2, d.Spreads .forbid target action := by
  rw [SubjectDecl.resolve, ← any_reaches_iff hbuild]
  cases reached with
  | nil => simp
  | cons p rest =>
    rw [List.isEmpty_cons, if_neg Bool.false_ne_true]
    split
    · rename_i h
      exact iff_of_true rfl h
    · rename_i h
      refine iff_of_false ?_ h
      split <;> exact Resolution.noConfusion

theorem resolve_eq_allowed_iff {d : SubjectDecl} {t : ActionTree}
    (hbuild : ActionTree.build d = .ok t) {reached : List Permission} {action : String}
    (hforbidden : d.resolve reached action ≠ .forbidden) :
    d.resolve reached action = .allowed ↔ ∃ p ∈ reached, p.1 = .allow ∧
      ∃ target ∈ d.targets p.2, d.Spreads .allow target action := by
  rw [← any_reaches_iff hbuild]
  unfold SubjectDecl.resolve at hforbidden ⊢
  cases reached with
  | nil => simp
  | cons p rest =>
    rw [List.isEmpty_cons, if_neg Bool.false_ne_true] at hforbidden ⊢
    split at hforbidden
    · exact absurd rfl hforbidden
    · rename_i h
      rw [if_neg h]
      split
      · rename_i h
        exact iff_of_true rfl h
      · rename_i h
        exact iff_of_false Resolution.noConfusion h

/-! ## Masks -/

/-- The matched rule has the mode of the permission and the closure of its targets. -/
def Matches (d : SubjectDecl) (t : ActionTree) (p : Permission) (x : MatchedRule × Bitmask) :
    Prop :=
  x.1.mode = p.1 ∧
    ∃ bits, (∀ b, b ∈ bits ↔ ∃ target ∈ d.targets p.2, t.bit? target = some b) ∧
      x.2 = t.mergedClosure bits p.1

section

variable {d : SubjectDecl} {t : ActionTree} (hbuild : ActionTree.build d = .ok t)
  (hsize : d.actions.length ≤ 2 ^ 31)
include hbuild hsize

/-- The mask of a matched rule holds an action exactly when its permission says something about
it. -/
theorem isSet_of_matches {p : Permission} {x : MatchedRule × Bitmask} (hx : Matches d t p x)
    {action : String} {y : Nat} (hy : t.bit? action = some y) :
    x.2.isSet y = d.reaches p action := by
  obtain ⟨-, bits, hbits, hmask⟩ := hx
  rw [Bool.eq_iff_iff, hmask, ActionTree.isSet_mergedClosure hbuild hsize hy,
    reaches_iff_spreads hbuild]
  constructor
  · rintro ⟨target, b, hb, htarget, hspreads⟩
    obtain ⟨target', hmem, htarget'⟩ := (hbits b).mp hb
    -- a bit stands for one action, so the target of the bit is one of the permission
    rw [ActionTree.bit?_eq_some_iff hbuild] at htarget htarget'
    obtain rfl := Option.some.inj (htarget.symm.trans htarget')
    exact ⟨target, hmem, hspreads⟩
  · rintro ⟨target, hmem, hspreads⟩
    obtain ⟨b, hb⟩ := ActionTree.exists_bit? hbuild hspreads.target_mem
    exact ⟨target, b, (hbits b).mpr ⟨target, hmem, hb⟩, hb, hspreads⟩

theorem isSet_mask {reached : List Permission} {matched : List (MatchedRule × Bitmask)}
    (hall : List.Forall₂ (Matches d t) reached matched) {action : String} {y : Nat}
    (hy : t.bit? action = some y) (mode : AccessMode) :
    ((MergedRules.mk matched).mask mode).isSet y =
      reached.any fun p => p.1 = mode && d.reaches p action := by
  rw [MergedRules.mask, Bitmask.isSet_unionAll]
  induction hall with
  | nil => rfl
  | @cons p x _ _ hx _ ih =>
    rw [List.any_cons, List.filter_cons, hx.1]
    by_cases hmode : p.1 = mode
    · simp [hmode, ih, isSet_of_matches hbuild hsize hx hy]
    · simp [hmode, ih]

/-- Merging the matched rules resolves an action as the reached permissions do. -/
theorem resolve_matched {reached : List Permission} {matched : List (MatchedRule × Bitmask)}
    (hall : List.Forall₂ (Matches d t) reached matched) {action : String} {y : Nat}
    (hy : t.bit? action = some y) :
    (MergedRules.mk matched).resolve (.ofIndex y) = d.resolve reached action := by
  have hempty : matched.isEmpty = reached.isEmpty := by
    cases hall <;> rfl
  have hmask (mode : AccessMode) : ((MergedRules.mk matched).mask mode).isSetAt (.ofIndex y) =
      reached.any fun p => p.1 = mode && d.reaches p action := isSet_mask hbuild hsize hall hy mode
  rw [MergedRules.resolve, SubjectDecl.resolve, hempty, hmask, hmask]

end

/-! ## Matched rules and reached permissions -/

/-- Of the rules for some permissions, those match whose permissions are reached. -/
theorem matches_matchedRules {d : SubjectDecl} {t : ActionTree}
    (hbuild : ActionTree.build d = .ok t) {c : RuleContext} (hc : c.actions = t) {g : Graph}
    (hfits : g.Fits c.scope) {values : NodeIndex → Json} {cs : Concepts} {data : Root → Json}
    (hvalues : ∀ {i e}, (g.view c.scope).Spells i e → values i = e.evaluate cs data)
    {ps : List GuardedPermission} {rules : List Rule} (hall : List.Forall₂ (Renders c g) ps rules)
    (role : String) (index : Nat) :
    List.Forall₂ (Matches d t) (passing (fun e => (e.evaluate cs data).truthy) ps)
      (Evaluator.matchedRules values role index rules) := by
  induction hall generalizing index with
  | nil => exact .nil
  | @cons p rule ps rules hrule _ ih =>
    obtain ⟨e, hspells, he⟩ := hrule.condition hfits
    rw [Evaluator.matchedRules, hvalues hspells, he cs data, passing, List.filter_cons]
    -- a permission passes and its rule matches under the same condition
    split
    · refine .cons ⟨hrule.mode, rule.actions, mem_select hbuild hc hrule.actions, ?_⟩ (ih _)
      rw [hrule.mask, hc, hrule.mode]
    · exact ih _

namespace Model

variable {m : Model} {sourceId : String} {p : Policy} {subjects : List EncodedSubject} {g : Graph}

/-- No numbering wraps: concepts, the actions of a subject and the nodes of a table can all be told
apart by 32-bit numbers. -/
structure Fits (m : Model) (p : Policy) : Prop where
  concepts : m.concepts.length ≤ 2 ^ 31
  actions : ∀ d ∈ m.subjects, d.actions.length ≤ 2 ^ 31
  common : p.common.length ≤ 2 ^ 31
  nodes : ∀ s ∈ p.subjects, s.nodes.length ≤ 2 ^ 31

namespace Compiled

theorem ordered (h : Compiled m sourceId p subjects g) : p.Ordered where
  common := by
    rw [Policy.commonProgram, h.common]
    exact h.wellPlaced.common.ordered p.concepts
  subjects s hs := by
    rw [h.tables, policySubjects] at hs
    obtain ⟨⟨encoded, nodes⟩, hmem, rfl⟩ := List.mem_map.mp hs
    have htable := (List.of_mem_zip hmem).2
    unfold Graph.tables at htable
    obtain ⟨table, htable', rfl⟩ := List.mem_map.mp htable
    intro position n hn
    exact (h.wellPlaced.own table htable').ordered p.concepts hn

/-- The names of the roles are the declared ones. -/
theorem isSome_role?_iff (h : Compiled m sourceId p subjects g) (name : String) :
    (p.role? name).isSome = true ↔ name ∈ m.roles.map (·.name) := by
  have hdeclared : (m.roles.find? (·.name = name)).isSome = true ↔ name ∈ m.roles.map (·.name) := by
    simp [List.find?_isSome]
  rw [← hdeclared]
  have hrel := h.role?_rel name
  cases hfind : m.roles.find? (·.name = name) <;> cases hrole : p.role? name <;>
    rw [hfind, hrole] at hrel <;> cases hrel <;> rfl

theorem activeRoles_eq (h : Compiled m sourceId p subjects g) {settings : Settings}
    {names : List String}
    (hnames : settings.strictRoles = true → ∀ name ∈ names, name ∈ m.roles.map (·.name)) :
    Evaluator.activeRoles ⟨p, settings⟩ names = .ok (names.filterMap p.role?) := by
  refine Evaluator.activeRoles_eq_ok_iff.mpr ⟨fun name hname => ?_, rfl⟩
  rw [Evaluator.refusesRole]
  cases hstrict : settings.strictRoles with
  | false => rfl
  | true =>
    -- in strict mode the name is declared, and declared roles are compiled
    have hrole := (h.isSome_role?_iff name).mpr (hnames hstrict name hname)
    obtain ⟨role, hrole⟩ := Option.isSome_iff_exists.mp hrole
    show (true && (p.role? name).isNone) = false
    rw [hrole]
    rfl

/-- The active roles match rule by rule what walking their statements reaches. -/
theorem matches_reached (h : Compiled m sourceId p subjects g) {id : Nat} {d : SubjectDecl}
    {t : ActionTree} (hs : subjects[id]? = some (d, t)) (hfits : g.Fits id) {r : AccessRequest}
    (hsubject : r.subject = d.name) (values : NodeIndex → Json)
    (hvalues : ∀ {i e}, (g.view id).Spells i e → values i = e.evaluate p.concepts r.data) :
    List.Forall₂ (Matches d t) (m.reached p.concepts r)
      (Evaluator.matchedRoles values d.name (r.roles.filterMap p.role?)) := by
  have hbuild : ActionTree.build d = .ok t := h.actions _ (List.mem_of_getElem? hs)
  rw [reached, hsubject]
  -- undeclared names have no role on either side; a declared one adds the same to both
  induction r.roles with
  | nil => exact .nil
  | cons name rest ih =>
    have hrel := h.role?_rel name
    rw [List.flatMap_cons]
    cases hd : m.roles.find? (·.name = name) with
    | none =>
      rw [hd] at hrel
      cases hr : p.role? name with
      | none =>
        rw [List.filterMap_cons_none hr]
        exact ih
      | some role =>
        rw [hr] at hrel
        cases hrel
    | some decl =>
      rw [hd] at hrel
      cases hr : p.role? name with
      | none =>
        rw [hr] at hrel
        cases hrel
      | some role =>
        rw [hr] at hrel
        cases hrel with
        | some hrole =>
          rw [List.filterMap_cons_some hr, Evaluator.matchedRoles, List.flatMap_cons]
          have hrules := matches_matchedRules hbuild (c := ⟨decl.name, d.name, id, t⟩) rfl hfits
            hvalues (hrole.rules hs) role.name 0
          rw [passingAll_guarded] at hrules
          exact List.rel_append hrules ih

/-- In the values of a request an index has the value of its tree on the data of the request. -/
theorem freshValues_spells (h : Compiled m sourceId p subjects g)
    (hsize : m.concepts.length ≤ 2 ^ 31) {settings : Settings} {r : AccessRequest} {id : Nat}
    {s : PolicySubject} (hs : s.nodes = (g.view id).own) {i : NodeIndex} {e : Expression}
    (hspells : (g.view id).Spells i e) :
    (Evaluator.freshValues ⟨p, settings⟩ r s).value i = e.evaluate p.concepts r.data := by
  have hroot : (Evaluator.freshValues ⟨p, settings⟩ r s).root = r.data := by
    funext root
    cases root <;> rfl
  rw [← hroot]
  refine hspells.value (h.wellPlaced.view id) (Concepts.isInstance_eq h.concepts hsize) ?_ ?_
  · rw [← hs]
    rfl
  · show Program.ofTable p.concepts p.common = Program.ofTable p.concepts g.common
    rw [h.common]

/-- Without a cache, a request with known names gets what interpreting the model gives. -/
theorem plainDecide_eq (h : Compiled m sourceId p subjects g) (hfits : m.Fits p)
    {settings : Settings} {r : AccessRequest} {d : SubjectDecl} (hd : d ∈ m.subjects)
    (hsubject : r.subject = d.name)
    (hroles : settings.strictRoles = true → ∀ name ∈ r.roles, name ∈ m.roles.map (·.name))
    {action : String} (haction : action ∈ d.actions.map (·.name)) :
    ∃ matched, Evaluator.plainDecide ⟨p, settings⟩ r action = .ok {
      allowed := m.resolve p.concepts r d action == .allowed
      subject := d.name
      action
      matched
      resolution := m.resolve p.concepts r d action } := by
  obtain ⟨id, t, hid⟩ := h.exists_encoded hd
  have hbuild : ActionTree.build d = .ok t := h.actions _ (List.mem_of_getElem? hid)
  obtain ⟨y, hy⟩ := ActionTree.exists_bit? hbuild haction
  let s : PolicySubject := ⟨d.name, d.concept, t, (g.view id).own⟩
  have hs : p.subject? d.name = some s := h.subject?_eq hid
  have hview : g.Fits id :=
    ⟨by rw [← h.common]; exact hfits.common, hfits.nodes s (Evaluator.mem_subjects hs)⟩
  let values := (Evaluator.freshValues ⟨p, settings⟩ r s).value
  have hmatches := h.matches_reached hid hview hsubject values
    (h.freshValues_spells hfits.concepts rfl)
  have hresolve := resolve_matched hbuild (hfits.actions d hd) hmatches hy
  have hfound : Evaluator.requireSubject ⟨p, settings⟩ r.subject = .ok s := by
    rw [Evaluator.requireSubject, hsubject, hs]
  have hcoord : Evaluator.requireAction s action = .ok (.ofIndex y) := by
    rw [Evaluator.requireAction, ActionTree.coord?, hy]
    rfl
  have hmerge : Evaluator.plainMerge ⟨p, settings⟩ r s =
      .ok ⟨Evaluator.matchedRoles values d.name (r.roles.filterMap p.role?)⟩ := by
    rw [Evaluator.plainMerge, h.activeRoles_eq hroles]
    rfl
  rw [resolve, ← hresolve]
  exact ⟨_, Evaluator.plainDecide_eq_ok hfound hmerge hcoord⟩

end Compiled

/-! ## Deciding -/

/-- Compiling and deciding is interpreting the model: a request for a declared action of a declared
subject, under declared roles or not in strict mode, is answered on a new cache.  No rule matches if
the statements of its roles reach no permission; otherwise the action is forbidden if a permission
that was reached forbids an action that is or extends it, otherwise allowed if one allows an action
that it is or extends, and otherwise not granted. -/
theorem decide_interprets (hcompile : m.compile sourceId = .ok p) (hfits : m.Fits p)
    {settings : Settings} {cache : ValueCache} (hcache : Cache.new settings.capacity = .ok cache)
    {r : AccessRequest} {d : SubjectDecl} (hd : d ∈ m.subjects) (hsubject : r.subject = d.name)
    (hroles : settings.strictRoles = true → ∀ name ∈ r.roles, name ∈ m.roles.map (·.name))
    {action : String} (haction : action ∈ d.actions.map (·.name)) :
    p.concepts.decls = m.concepts ∧
    ∃ decision cache', Evaluator.decide ⟨p, settings⟩ r action cache = (.ok decision, cache') ∧
      decision.subject = d.name ∧ decision.action = action ∧
      (decision.allowed = true ↔ decision.resolution = .allowed) ∧
      (decision.resolution = .noMatchingRule ↔ m.reached p.concepts r = []) ∧
      (decision.resolution = .forbidden ↔ ∃ q ∈ m.reached p.concepts r, q.1 = .forbid ∧
        ∃ target ∈ d.targets q.2,
          HierarchyNode.Reaches (d.actions.map ActionDecl.node) target action) ∧
      (decision.resolution ≠ .forbidden → (decision.resolution = .allowed ↔
        ∃ q ∈ m.reached p.concepts r, q.1 = .allow ∧ ∃ target ∈ d.targets q.2,
          HierarchyNode.Reaches (d.actions.map ActionDecl.node) action target)) := by
  obtain ⟨subjects, g, h⟩ := compile_eq_ok hcompile
  obtain ⟨matched, hplain⟩ := h.plainDecide_eq hfits hd hsubject hroles haction
  obtain ⟨cache', hrun⟩ := Evaluator.answer_new (e := ⟨p, settings⟩) (r := r)
    (fun P hP => Evaluator.answers_decide h.ordered hP action) hcache
  rw [hplain] at hrun
  obtain ⟨id, t, hid⟩ := h.exists_encoded hd
  have hbuild : ActionTree.build d = .ok t := h.actions _ (List.mem_of_getElem? hid)
  have hdecls := (Concepts.build_eq_ok h.concepts).2
  exact ⟨hdecls, _, cache', hrun, rfl, rfl, beq_iff_eq, d.resolve_eq_noMatchingRule_iff,
    resolve_eq_forbidden_iff hbuild, resolve_eq_allowed_iff hbuild⟩

/-- A stranger may not even read a document: editing it is forbidden, and who edits reads. -/
theorem decide_interprets_stranger :
    let m : Model := {
      user := "Person"
      concepts := [{ name := "Person", members := [("name", .string)] },
        { name := "Document", members := [("owner", .string)] }]
      subjects := [⟨"Document", "Document", [⟨"read", none⟩, ⟨"edit", some "read"⟩]⟩]
      roles := [{ name := "author", blocks := [⟨"Document",
        [.whenElse ((Expression.user.get "name").equals (Expression.subject.get "owner"))
          [.allowEverything] [.forbid ["edit"]]]⟩] }] }
    let r : AccessRequest := {
      user := .obj [("name", .str "ann")]
      roles := ["author"]
      subject := "Document"
      resource := .obj [("owner", .str "bob")] }
    ∃ p decision cache', m.compile "documents" = .ok p ∧
      Evaluator.decide ⟨p, {}⟩ r "read" ⟨128, [], 0, 0, 0⟩ = (.ok decision, cache') ∧
      decision.resolution = .forbidden := by
  intro m r
  obtain ⟨p, hcompile, hp⟩ := Steps.exists_eq_ok_of_any (x := m.compile "documents")
    (q := fun p => (p.common.length ≤ 2 ^ 31 ∧ ∀ s ∈ p.subjects, s.nodes.length ≤ 2 ^ 31) ∧
      m.reached p.concepts r = [(.forbid, .actions ["edit"])])
    (by decide +kernel)
  obtain ⟨⟨hcommon, hnodes⟩, hreached⟩ := of_decide_eq_true hp
  have hcache : Cache.new ({} : Settings).capacity = .ok (⟨128, [], 0, 0, 0⟩ : ValueCache) := rfl
  let d : SubjectDecl := ⟨"Document", "Document", [⟨"read", none⟩, ⟨"edit", some "read"⟩]⟩
  have hd : d ∈ m.subjects := List.mem_singleton_self d
  have haction : "read" ∈ d.actions.map (·.name) := List.mem_cons_self
  obtain ⟨-, decision, cache', hdecide, -, -, -, -, hforbidden, -⟩ := decide_interprets hcompile
    ⟨by decide, by decide, hcommon, hnodes⟩ hcache hd (r := r) rfl (by decide) haction
  refine ⟨p, decision, cache', hcompile, hdecide, hforbidden.mpr ?_⟩
  rw [hreached]
  refine ⟨_, List.mem_singleton_self _, rfl, "edit", List.mem_singleton_self _, ?_⟩
  exact .up (n := ⟨"edit", some "read"⟩) (List.mem_cons_of_mem _ List.mem_cons_self) rfl
    (.self List.mem_cons_self)

end Model

end AccessPolicy
