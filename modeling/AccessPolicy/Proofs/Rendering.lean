import AccessPolicy.Proofs.Bitmask
import AccessPolicy.Proofs.Evaluation.Lowering
import AccessPolicy.Proofs.Rules

/-!
# Rendering — rules follow the branches of their statements

Statements of a subject become one rule for each permission, in their order.  Read from the finished
tables, a rule applies exactly where the conditions on the way to its permission turn out as they
should; so of the branches of a `when` and its alternatives never more than one has rules that
apply.
-/

namespace AccessPolicy

/-! ## Rules divided among branches -/

mutual

/-- The rules are those of the statement, one for each permission; of the branches of every `when`
in it, at most one has rules that apply. -/
def Statement.Divides (applies : Rule → Bool) : Statement → List Rule → Prop
  | .permission _ _, rules => ∃ r, rules = [r]
  | .when w, rules => ∃ parts, rules = parts.flatten ∧ w.Divides applies parts ∧
      parts.countP (·.any applies) ≤ 1

/-- The parts are the rules of the branches, body first. -/
def When.Divides (applies : Rule → Bool) : When → List (List Rule) → Prop
  | .mk _ body alternative, parts => ∃ first others, parts = first :: others ∧
      dividesAll applies body first ∧ alternative.Divides applies others

def ElseBranch.Divides (applies : Rule → Bool) : ElseBranch → List (List Rule) → Prop
  | .none, parts => parts = []
  | .elseWhen next, parts => next.Divides applies parts
  | .otherwise body, parts => ∃ part, parts = [part] ∧ dividesAll applies body part

/-- The rules are those of the statements, one after the other. -/
def dividesAll (applies : Rule → Bool) : List Statement → List Rule → Prop
  | [], rules => rules = []
  | s :: rest, rules => ∃ first others, rules = first ++ others ∧ s.Divides applies first ∧
      dividesAll applies rest others

end

section

variable {applies : Rule → Bool} {holds : Expression → Bool}

/-- Each rule applies where the guards of its permission hold. -/
def Follows (applies : Rule → Bool) (holds : Expression → Bool) :
    List GuardedPermission → List Rule → Prop :=
  List.Forall₂ fun p r => applies r = guardsHold holds p.guards

theorem exists_append_of_forall₂ {α β : Type} {R : α → β → Prop} {as as' : List α} {bs : List β}
    (h : List.Forall₂ R (as ++ as') bs) :
    ∃ cs cs', bs = cs ++ cs' ∧ List.Forall₂ R as cs ∧ List.Forall₂ R as' cs' := by
  induction as generalizing bs with
  | nil => exact ⟨[], bs, rfl, .nil, h⟩
  | cons a rest ih =>
    rw [List.cons_append] at h
    obtain ⟨b, bs', hb, hrest, rfl⟩ := List.forall₂_cons_left_iff.mp h
    obtain ⟨cs, cs', rfl, hcs, hcs'⟩ := ih hrest
    exact ⟨b :: cs, cs', rfl, .cons hb hcs, hcs'⟩

theorem Follows.any_eq {ps : List GuardedPermission} {rules : List Rule}
    (h : Follows applies holds ps rules) :
    rules.any applies = ps.any fun p => guardsHold holds p.guards := by
  induction h with
  | nil => rfl
  | cons hr _ ih => rw [List.any_cons, List.any_cons, hr, ih]

theorem passing_eq_nil_iff {ps : List GuardedPermission} :
    passing holds ps = [] ↔ ps.any (fun p => guardsHold holds p.guards) = false := by
  rw [passing, List.map_eq_nil_iff, List.filter_eq_nil_iff, List.any_eq_false]

/-- Where the guards around statements do not hold, none of their rules applies. -/
theorem Follows.any_eq_false {outer : List Guard} {ss : List Statement} {rules : List Rule}
    (h : Follows applies holds (guardedAll outer ss) rules)
    (houter : guardsHold holds outer = false) : rules.any applies = false := by
  rw [h.any_eq, ← passing_eq_nil_iff, passingAll_guarded, houter]
  rfl

theorem ElseBranch.any_eq_false {outer : List Guard} {condition : Expression} {b : ElseBranch}
    {rules : List Rule} (h : Follows applies holds (b.guarded outer condition) rules)
    (hcondition : holds condition = true) : rules.any applies = false := by
  rw [h.any_eq, ← passing_eq_nil_iff, b.passing_guarded, hcondition, Bool.not_true, Bool.and_false]
  rfl

mutual

theorem Statement.divides_of_follows {outer : List Guard} :
    ∀ (s : Statement) {rules : List Rule}, Follows applies holds (s.guarded outer) rules →
      s.Divides applies rules
  | .permission _ _, rules, h => by
    obtain ⟨r, others, -, hothers, rfl⟩ := List.forall₂_cons_left_iff.mp h
    rw [List.forall₂_nil_left_iff.mp hothers]
    exact ⟨r, rfl⟩
  | .when w, rules, h => w.divides_of_follows h

theorem When.divides_of_follows {outer : List Guard} :
    ∀ (w : When) {rules : List Rule}, Follows applies holds (w.guarded outer) rules →
      ∃ parts, rules = parts.flatten ∧ w.Divides applies parts ∧
        parts.countP (·.any applies) ≤ 1
  | .mk condition body alternative, rules, h => by
    obtain ⟨first, others, rfl, hbody, hothers⟩ := exists_append_of_forall₂ h
    obtain ⟨parts, rfl, hparts, hcount⟩ := alternative.divides_of_follows hothers
    refine ⟨first :: parts, rfl, ⟨first, parts, rfl, dividesAll_of_follows body hbody, hparts⟩, ?_⟩
    rw [List.countP_cons]
    -- the condition leads to the body or away from it
    cases hholds : holds condition with
    | true =>
      have hnone : parts.countP (·.any applies) = 0 := by
        rw [List.countP_eq_zero]
        have hany := ElseBranch.any_eq_false hothers hholds
        rw [List.any_flatten, List.any_eq_false] at hany
        exact hany
      rw [hnone]
      split <;> omega
    | false =>
      have hfirst : first.any applies = false := by
        apply Follows.any_eq_false hbody
        rw [guardsHold_append, guardsHold_singleton, hholds]
        exact Bool.and_false _
      rw [hfirst]
      simpa using hcount

theorem ElseBranch.divides_of_follows {outer : List Guard} {condition : Expression} :
    ∀ (b : ElseBranch) {rules : List Rule},
      Follows applies holds (b.guarded outer condition) rules →
      ∃ parts, rules = parts.flatten ∧ b.Divides applies parts ∧
        parts.countP (·.any applies) ≤ 1
  | .none, rules, h => by
    rw [List.forall₂_nil_left_iff.mp h]
    exact ⟨[], rfl, rfl, Nat.zero_le _⟩
  | .elseWhen next, rules, h => next.divides_of_follows h
  | .otherwise body, rules, h => by
    refine ⟨[rules], by simp, ⟨rules, rfl, dividesAll_of_follows body h⟩, ?_⟩
    exact List.countP_le_length

theorem dividesAll_of_follows {outer : List Guard} :
    ∀ (ss : List Statement) {rules : List Rule}, Follows applies holds (guardedAll outer ss) rules →
      dividesAll applies ss rules
  | [], rules, h => List.forall₂_nil_left_iff.mp h
  | s :: rest, rules, h => by
    obtain ⟨first, others, rfl, hfirst, hothers⟩ := exists_append_of_forall₂ h
    exact ⟨first, others, rfl, s.divides_of_follows hfirst, dividesAll_of_follows rest hothers⟩

end

end

/-! ## Reading conditions -/

/-- Read some indices, and then the one that is asked for. -/
def SubjectValues.readAfter : List NodeIndex → NodeIndex → StateT SubjectValues Option Json
  | [], i => read i
  | j :: earlier, i => do
    let _ ← read j
    readAfter earlier i

/-- What was read before does not change an answer. -/
theorem SubjectValues.readAfter_run {v : SubjectValues} (h : v.Sound) (earlier : List NodeIndex)
    (i : NodeIndex) : ∃ w, readAfter earlier i v = some (v.value i, w) := by
  induction earlier generalizing v with
  | nil =>
    obtain ⟨w, hread, -⟩ := read_run h i
    exact ⟨w, hread⟩
  | cons j earlier ih =>
    obtain ⟨w, hread, hw, hsame⟩ := read_run h j
    obtain ⟨w', hrest⟩ := ih hw
    refine ⟨w', ?_⟩
    rw [← hsame.value, ← hrest]
    show (read j v).bind (fun p => readAfter earlier i p.2) = _
    rw [hread]
    rfl

namespace Graph

variable {g : Graph} {cs : Concepts} {scope : Nat}

/-- What is read for an index of a subject's conditions in finished tables with the given data,
after some other indices were read. -/
def readIndex? (g : Graph) (cs : Concepts) (scope : Nat) (data : Root → Json)
    (earlier : List NodeIndex) (i : NodeIndex) : Option Json :=
  (g.tables.subjects[scope]?).bind fun own =>
    (SubjectValues.readAfter earlier i (.new (.ofTable cs own)
      (.new (.ofTable cs g.tables.common) (data .user) (data .environment)) (data .subject))).map
        (·.1)

/-- Whatever was read before, reading an index of finished tables answers its value over them. -/
theorem WellPlaced.exists_values (h : g.WellPlaced) (cs : Concepts)
    (hscope : scope < g.subjects.length) (data : Root → Json) : ∃ values : SubjectValues,
      values.program = .ofTable cs (g.view scope).own ∧
      values.common.program = .ofTable cs g.common ∧ values.root = data ∧
      ∀ earlier i, g.readIndex? cs scope data earlier i = some (values.value i) := by
  have hown : g.tables.subjects[scope]? = some (g.view scope).own := by
    rw [Graph.tables, List.getElem?_map, Graph.view, List.getElem?_eq_getElem hscope]
    rfl
  refine ⟨.new (.ofTable cs (g.view scope).own)
    (.new (.ofTable cs g.common) (data .user) (data .environment)) (data .subject), rfl, rfl, ?_, ?_⟩
  · funext root
    cases root <;> rfl
  · intro earlier i
    obtain ⟨w, hread⟩ := SubjectValues.readAfter_run
      (h.sound_values scope (data .user) (data .environment) (data .subject)) earlier i
    rw [readIndex?, hown, Option.bind_some]
    show (SubjectValues.readAfter earlier i (.new _ (.new (.ofTable cs g.common) _ _) _)).map _ = _
    rw [hread, Option.map_some]

theorem WellPlaced.readIndex?_spells (h : g.WellPlaced)
    (hcs : ∀ c x, cs.isInstance c x = cs.namesBelow c x) (hscope : scope < g.subjects.length)
    {i : NodeIndex} {t : Expression} (hi : (g.view scope).Spells i t) (data : Root → Json)
    (earlier : List NodeIndex) :
    g.readIndex? cs scope data earlier i = some (t.evaluate cs data) := by
  obtain ⟨values, hown, hcommon, rfl, hread⟩ := h.exists_values cs hscope data
  rw [hread, hi.value (h.view scope) hcs hown hcommon]

end Graph

/-! ## Rules of permissions -/

theorem guardsHold_eq_true_iff {holds : Expression → Bool} {guards : List Guard} :
    guardsHold holds guards = true ↔ ∀ guard ∈ guards, holds guard.1 = guard.2 := by
  simp [guardsHold]

namespace Rule

/-- The bits of the selected actions, in the order in which they are named. -/
def Selects (t : ActionTree) : ActionSelection → List Nat → Prop
  | .everything, bits => bits = List.range t.size
  | .actions names, bits => List.Forall₂ (fun name bit => t.bit? name = some bit) names bits

/-- Is the condition of the rule truthy on the data, after some other conditions were read? -/
def applies (g : Graph) (cs : Concepts) (scope : Nat) (data : Root → Json)
    (earlier : List NodeIndex) (r : Rule) : Bool :=
  (g.readIndex? cs scope data earlier r.condition).any Json.truthy

/-- The rule has the mode and the actions of the permission and reaches what they reach in that
mode.  Its condition can be read on all data, whatever was read before, and is truthy exactly where
each condition on the way to the permission is truthy or not, as the way asks. -/
structure Expresses (c : RuleContext) (cs : Concepts) (g : Graph) (p : GuardedPermission)
    (r : Rule) : Prop where
  mode : r.mode = p.permission.1
  actions : Selects c.actions p.permission.2 r.actions
  mask : r.mask = c.actions.mergedClosure r.actions r.mode
  reach : ∀ y, r.mask.isSet y = true ↔ ∃ x ∈ r.actions, ∃ closure,
    c.actions.closure? x = some closure ∧ (closure.forMode r.mode).isSet y = true
  condition : ∀ data earlier, ∃ value,
    g.readIndex? cs c.scope data earlier r.condition = some value ∧
      (value.truthy = true ↔ ∀ guard ∈ p.guards, (guard.1.evaluate cs data).truthy = guard.2)

variable {c : RuleContext} {cs : Concepts} {g : Graph} {p : GuardedPermission} {r : Rule}

theorem selects_of_select {selection : ActionSelection} {bits : List Nat}
    (h : select c selection = .ok bits) : Selects c.actions selection bits := by
  cases selection with
  | everything => exact (Except.ok.inj h).symm
  | actions names =>
    show List.Forall₂ _ names bits
    exact (Steps.forall₂_of_mapM h).imp fun _ _ hbit => bitOf_eq_ok_iff.mp hbit

theorem isSet_mask_iff (t : ActionTree) (bits : List Nat) (mode : AccessMode) (y : Nat) :
    (t.mergedClosure bits mode).isSet y = true ↔
      ∃ x ∈ bits, ∃ closure, t.closure? x = some closure ∧
        (closure.forMode mode).isSet y = true := by
  rw [ActionTree.mergedClosure, Bitmask.isSet_unionAll, List.any_filterMap, List.any_eq_true]
  refine exists_congr fun x => and_congr_right fun _ => ?_
  cases t.closure? x <;> simp

/-- A rule that renders a permission expresses it wherever the graph has grown to. -/
theorem expresses_of_renders (hg : g.WellPlaced) (hfits : g.Fits c.scope)
    (hcs : ∀ concept x, cs.isInstance concept x = cs.namesBelow concept x)
    (hscope : c.scope < g.subjects.length) (h : Renders c g p r) : Expresses c cs g p r where
  mode := h.mode
  actions := selects_of_select h.actions
  mask := h.mask
  reach y := by rw [h.mask, isSet_mask_iff]
  condition data earlier := by
    obtain ⟨t, hspells, ht⟩ := h.condition hfits
    refine ⟨_, hg.readIndex?_spells hcs hscope hspells data earlier, ?_⟩
    rw [ht, guardsHold_eq_true_iff]

theorem Expresses.applies_eq (h : Expresses c cs g p r) (data : Root → Json)
    (earlier : List NodeIndex) : r.applies g cs c.scope data earlier =
      guardsHold (fun e => (e.evaluate cs data).truthy) p.guards := by
  obtain ⟨value, hread, htruthy⟩ := h.condition data earlier
  rw [applies, hread, Option.any_some, Bool.eq_iff_iff, htruthy, guardsHold_eq_true_iff]

/-! ## What the graph is asked -/

/-- Whether it succeeds or not, the step changes the graph by requests alone. -/
def Asks {α : Type} (m : RuleM α) : Prop := ∀ s, ∃ calls, (m s).2.graph = s.graph.run calls

theorem Asks.pure {α : Type} (a : α) : Asks (pure a) := fun _ => ⟨[], rfl⟩

theorem Asks.bind {α β : Type} {m : RuleM α} {f : α → RuleM β} (hm : Asks m)
    (hf : ∀ a, Asks (f a)) : Asks (m >>= f) := by
  intro s
  obtain ⟨calls, hcalls⟩ := hm s
  rw [Steps.bind_run]
  split
  · rename_i a s' he
    rw [he] at hcalls
    obtain ⟨more, hmore⟩ := hf a s'
    refine ⟨calls ++ more, ?_⟩
    rw [hmore, hcalls, Graph.run_append]
  · rename_i e s' he
    rw [he] at hcalls
    exact ⟨calls, hcalls⟩

theorem asks_addPermission (c : RuleContext) (condition : NodeIndex) (mode : AccessMode)
    (actions : ActionSelection) : Asks (addPermission c condition mode actions) := by
  intro s
  unfold addPermission
  split <;> exact ⟨[], rfl⟩

theorem asks_lower (scope : Nat) (e : Expression) : Asks (onGraph (Graph.lower scope e)) :=
  fun _ => ⟨[.lower scope e], rfl⟩

theorem asks_conjoin (scope : Nat) (left right : NodeIndex) :
    Asks (onGraph (Graph.conjoin scope left right)) :=
  fun _ => ⟨[.conjoin scope left right], rfl⟩

theorem asks_otherwiseCondition (c : RuleContext) (enclosing condition : NodeIndex) :
    Asks (otherwiseCondition c enclosing condition) := by
  intro s
  unfold otherwiseCondition onGraph
  rw [Steps.bind_run]
  cases hadd : Graph.add c.scope (.unary .not condition) s.graph with
  | mk result g =>
    have hg : g = s.graph.after (.add c.scope (.unary .not condition)) := by
      rw [Graph.after, hadd]
    cases result with
    | error e => exact ⟨[.add c.scope (.unary .not condition)], hg⟩
    | ok negated =>
      refine ⟨[.add c.scope (.unary .not condition), .conjoin c.scope enclosing negated], ?_⟩
      show (Graph.conjoin c.scope enclosing negated g).2 = _
      rw [hg]
      rfl

mutual

theorem asks_addStatement (c : RuleContext) : ∀ (enclosing : NodeIndex) (st : Statement),
    Asks (addStatement c enclosing st)
  | enclosing, .permission mode actions => asks_addPermission c enclosing mode actions
  | enclosing, .when w => asks_addWhen c enclosing w

theorem asks_addWhen (c : RuleContext) : ∀ (enclosing : NodeIndex) (w : When),
    Asks (addWhen c enclosing w)
  | _, .mk e body alternative => (asks_lower c.scope e).bind fun _ =>
      (asks_conjoin c.scope _ _).bind fun inside => (asks_addBlock c inside body).bind fun _ =>
        asks_addElse c _ _ alternative

theorem asks_addElse (c : RuleContext) : ∀ (enclosing condition : NodeIndex) (b : ElseBranch),
    Asks (addElse c enclosing condition b)
  | _, _, .none => .pure ()
  | _, _, .elseWhen next =>
    (asks_otherwiseCondition c _ _).bind fun outside => asks_addWhen c outside next
  | _, _, .otherwise body =>
    (asks_otherwiseCondition c _ _).bind fun outside => asks_addBlock c outside body

theorem asks_addBlock (c : RuleContext) : ∀ (enclosing : NodeIndex) (ss : List Statement),
    Asks (addBlock c enclosing ss)
  | _, [] => .pure ()
  | enclosing, st :: rest =>
    (asks_addStatement c enclosing st).bind fun _ => asks_addBlock c enclosing rest

end

/-! ## Rules of statements -/

/-- Rendering follows the statements: it adds one rule for each permission, in their order, that
expresses the permission in the finished tables, whatever the graph is asked before and afterwards;
it asks the graph for no more than others may.  Of the branches of a `when` and its alternatives at
most one has rules that apply, and the rule of a permission outside every `when` always does. -/
theorem addStatements_renders {decls : List ConceptDecl} (hcs : Concepts.build decls = .ok cs)
    (hsize : decls.length ≤ 2 ^ 31) {user : String} {environment : Option String}
    (before after : List Graph.Call) (old : List Rule)
    (hscope : c.scope < ((Graph.new cs user environment).run before).subjects.length)
    {statements : List Statement} {s : RuleState}
    (h : addStatements c statements ⟨(Graph.new cs user environment).run before, old⟩ =
      (.ok (), s))
    (hfits : (s.graph.run after).Fits c.scope) :
    (∃ asked, s.graph = (Graph.new cs user environment).run (before ++ asked)) ∧
    ∃ new, s.rules = old ++ new ∧
      List.Forall₂ (Expresses c cs (s.graph.run after)) (guardedAll [] statements) new ∧
      (∀ data earlier,
        dividesAll (applies (s.graph.run after) cs c.scope data earlier) statements new) ∧
      ∀ first mode selection others, statements = first ++ .permission mode selection :: others →
        ∃ front r back, new = front ++ r :: back ∧
          front.length = (guardedAll [] first).length ∧ r.mode = mode ∧
          ∀ data earlier, r.applies (s.graph.run after) cs c.scope data earlier = true := by
  have hbefore := Graph.wellPlaced_run cs user environment before
  obtain ⟨hext, hwell, new, hnew, hall⟩ :=
    rendered_addBlock statements hbefore (hbefore.guards_true c.scope) h
  have hrun := Graph.run_keeps s.graph after
  have hrules : List.Forall₂ (Expresses c cs (s.graph.run after)) (guardedAll [] statements) new :=
    hall.imp fun _ _ hr => expresses_of_renders (hrun.2 hwell) hfits
      (Concepts.isInstance_eq hcs hsize)
      (Nat.lt_of_lt_of_le hscope (hext.trans hrun.1).length_subjects) (hr.mono hrun.1)
  refine ⟨?_, new, hnew, hrules, fun data earlier => ?_, ?_⟩
  · obtain ⟨asked, hasked⟩ := asks_addBlock c .trueLiteral statements
      ⟨(Graph.new cs user environment).run before, old⟩
    refine ⟨asked, ?_⟩
    rw [Graph.run_append, ← hasked]
    exact (congrArg (·.2.graph) h).symm
  · exact dividesAll_of_follows statements (hrules.imp fun _ _ hr => hr.applies_eq data earlier)
  · rintro first mode selection others rfl
    rw [guardedAll_append] at hrules
    obtain ⟨front, rest, rfl, hfront, hrest⟩ := exists_append_of_forall₂ hrules
    obtain ⟨r, back, hr, -, rfl⟩ := List.forall₂_cons_left_iff.mp hrest
    refine ⟨front, r, back, rfl, hfront.length_eq.symm, hr.mode, fun data earlier => ?_⟩
    rw [hr.applies_eq data earlier]
    rfl

/-- An age of zero leads past the first branch, and a user leads into the second; what follows the
chain applies as well, and so it is after the age was read on its own. -/
theorem addStatements_renders_chain :
    let decls : List ConceptDecl := [{ name := "Person", members := [("age", .number)] }]
    let cs : Concepts := ⟨⟨["Person"], [⟨0, 1⟩]⟩, decls⟩
    let actions : ActionTree := ⟨⟨["read", "edit"], [⟨0, 3⟩, ⟨1, 2⟩]⟩,
      [⟨.ofIndices 2 [0, 1], .ofIndices 2 [0]⟩, ⟨.ofIndices 2 [1], .ofIndices 2 [0, 1]⟩]⟩
    let chain := When.mk (Expression.subject.get "age") [.allow ["edit"]]
      (.elseWhen (.mk .user [.forbid ["edit"]] (.otherwise [.allowEverything])))
    let s := (addStatements ⟨"Guest", "Person", 0, actions⟩ [.when chain, .allow ["read"]]
      ⟨(Graph.new cs "Person" none).run [.addSubject "Person"], []⟩).2
    let data : Root → Json
      | .subject => .obj [("age", .int 0)]
      | _ => .obj []
    s.rules.map (·.actions) = [[1], [1], [0, 1], [0]] ∧
      s.rules.map (applies (s.graph.run [.lower 0 .user]) cs 0 data [.subject 1]) =
        [false, true, false, true] := by
  intro decls cs actions chain s data
  have hcs : Concepts.build decls = .ok cs := by rfl
  have hrun : addStatements ⟨"Guest", "Person", 0, actions⟩ [.when chain, .allow ["read"]]
      ⟨(Graph.new cs "Person" none).run [.addSubject "Person"], []⟩ = (.ok (), s) :=
    Steps.eq_ok_of_toOption (by decide +kernel)
  obtain ⟨-, new, hnew, hall, -⟩ := addStatements_renders hcs (by decide) [.addSubject "Person"]
    [.lower 0 .user] [] (by decide) hrun ⟨by decide +kernel, by decide +kernel⟩
  obtain ⟨r₁, _, h₁, hall₁, rfl⟩ := List.forall₂_cons_left_iff.mp hall
  obtain ⟨r₂, _, h₂, hall₂, rfl⟩ := List.forall₂_cons_left_iff.mp hall₁
  obtain ⟨r₃, _, h₃, hall₃, rfl⟩ := List.forall₂_cons_left_iff.mp hall₂
  obtain ⟨r₄, _, h₄, hall₄, rfl⟩ := List.forall₂_cons_left_iff.mp hall₃
  obtain rfl := List.forall₂_nil_left_iff.mp hall₄
  refine ⟨by decide +kernel, ?_⟩
  rw [hnew]
  show [_, _, _, _] = _
  rw [h₁.applies_eq, h₂.applies_eq, h₃.applies_eq, h₄.applies_eq]
  rfl

end Rule

end AccessPolicy
