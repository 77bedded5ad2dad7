import AccessPolicy.Proofs.Graph.TypeChecking
import AccessPolicy.Proofs.Rendering
import AccessPolicy.Proofs.Verification
import AccessPolicy.Semantics.Validation

/-!
# Validation — compiling fails exactly as the checks do

Building rules and tables adds no faults of its own: every step fails as a check does that knows
nothing of tables, because joining and negating conditions that were stored always succeeds.  The
first check to fail is the one that is reported.
-/

namespace AccessPolicy

/-! ## Steps and checks -/

section

variable {σ α β : Type} {graph : σ → Graph} {m : Steps σ α} {f : α → Steps σ β} {s : σ}
  {check check' : Except PolicyError Unit} {post : α → Graph → Prop} {post' : β → Graph → Prop}

/-- Whatever it answers, the step only makes the graph of the state grow. -/
def KeepsGraph (graph : σ → Graph) (m : Steps σ α) : Prop :=
  ∀ s, (graph s).Grows (graph (m s).2)

/-- As long as no table outgrows its indices, the step fails exactly as the check does, and
describes what it answers. -/
def FailsAs (graph : σ → Graph) (m : Steps σ α) (s : σ) (check : Except PolicyError Unit)
    (post : α → Graph → Prop) : Prop :=
  (∀ scope, (graph (m s).2).Fits scope) →
    ((m s).1.map fun _ => ()) = check ∧ ∀ a, (m s).1 = .ok a → post a (graph (m s).2)

theorem FailsAs.pure (a : α) (h : post a (graph s)) : FailsAs graph (pure a) s (.ok ()) post := by
  refine fun _ => ⟨rfl, fun b hb => ?_⟩
  obtain rfl := Except.ok.inj hb
  exact h

theorem FailsAs.bind (hm : FailsAs graph m s check post) (hgrows : KeepsGraph graph m)
    (hgrows' : ∀ a, KeepsGraph graph (f a))
    (hf : ∀ a s', (graph s).Grows (graph s') → post a (graph s') →
      FailsAs graph (f a) s' check' post') :
    FailsAs graph (m >>= f) s (check >>= fun _ => check') post' := by
  intro hfits
  rcases Steps.bind_cases m f s with ⟨e, s', hrun, hbind⟩ | ⟨a, s', hrun, hbind⟩
  · rw [hbind] at hfits ⊢
    obtain ⟨hcheck, -⟩ := hm (by rwa [hrun])
    rw [← hcheck, hrun]
    exact ⟨rfl, fun _ hb => nomatch hb⟩
  · rw [hbind] at hfits ⊢
    -- the graph only grows, so what fits in the end did so after the first step
    have hfits' (scope : Nat) : (graph s').Fits scope :=
      (hfits scope).of_extends (hgrows' a s').extend
    obtain ⟨hcheck, hpost⟩ := hm (by rwa [hrun])
    have hgrown := hgrows s
    rw [hrun] at hcheck hpost hgrown
    rw [← hcheck]
    exact hf a s' hgrown (hpost a rfl) hfits

end

/-! ## Steps on the graph -/

namespace Graph

variable {g g' : Graph} {scope : Nat} {i left right : NodeIndex} {n : Node}

/-- The index leads to a node. -/
def Knows (g : Graph) (scope : Nat) (i : NodeIndex) : Prop := ∃ n, g.nodeAt? scope i = some n

theorem Knows.grows (h : g.Knows scope i) (hg : g.Grows g') : g'.Knows scope i := by
  obtain ⟨n, hn⟩ := h
  exact ⟨n, (hg.extend.view scope).nodeAt? hn⟩

theorem Knows.typeOf (h : g.Knows scope i) : ∃ type, g.typeOf scope i = .ok type := by
  obtain ⟨n, hn⟩ := h
  exact ⟨n.type, typeOf_eq_ok_iff.mpr ⟨n, hn, rfl⟩⟩

theorem WellPlaced.knows_true (hg : g.WellPlaced) (scope : Nat) : g.Knows scope .trueLiteral :=
  (hg.spells_boolean scope true).nodeAt?

theorem failsAs_add (hg : g.WellPlaced) (h : ∃ type, g.nodeType scope n = .ok type) :
    FailsAs id (add scope n) g (.ok ()) fun i g => g.Knows scope i := by
  obtain ⟨type, ht⟩ := h
  intro hfits
  have hadd : add scope n g = (.ok (g.insert scope n type).1, (g.insert scope n type).2) := by
    rw [add, ht]
  rw [hadd] at hfits ⊢
  refine ⟨rfl, fun i hi => ?_⟩
  obtain ⟨m, hm, -⟩ := hg.nodeAt?_insert ht (hfits scope)
  obtain rfl := Except.ok.inj hi
  exact ⟨m, hm⟩

theorem failsAs_not (hg : g.WellPlaced) (h : g.Knows scope i) :
    FailsAs id (add scope (.unary .not i)) g (.ok ()) fun i g => g.Knows scope i := by
  obtain ⟨type, ht⟩ := h.typeOf
  exact failsAs_add hg ⟨.boolean, by rw [nodeType, ht]; rfl⟩

theorem failsAs_conjoin (hg : g.WellPlaced) (hl : g.Knows scope left) (hr : g.Knows scope right) :
    FailsAs id (conjoin scope left right) g (.ok ()) fun i g => g.Knows scope i := by
  unfold conjoin
  split
  · exact .pure right hr
  · split
    · exact .pure left hl
    · obtain ⟨type, ht⟩ := hl.typeOf
      obtain ⟨type', ht'⟩ := hr.typeOf
      exact failsAs_add hg ⟨.boolean, by rw [nodeType, ht, ht']; rfl⟩

theorem Hosts.failsAs_lower {c : ConditionContext} {e : Expression} (h : g.Hosts scope c) :
    FailsAs id (lower scope e) g (do let _ ← e.check c; return ()) fun i g => g.Knows scope i := by
  intro hfits
  have hcheck := lower_check h (hfits scope)
  cases hlower : lower scope e g with
  | mk r g' =>
    rw [hlower] at hfits hcheck
    rw [← hcheck]
    cases r with
    | error err => exact ⟨rfl, fun _ hi => nomatch hi⟩
    | ok i =>
      obtain ⟨n, hn⟩ := (lower_spells h.wellPlaced hlower (hfits scope)).nodeAt?
      refine ⟨?_, fun j hj => ?_⟩
      · show Except.ok () = g'.typeOf scope i >>= fun _ => .ok ()
        rw [typeOf_eq_ok_iff.mpr ⟨n, hn, rfl⟩]
        rfl
      · obtain rfl := Except.ok.inj hj
        exact ⟨n, hn⟩

end Graph

/-! ## Rules -/

/-- The block is for the subject. -/
structure RuleContext.IsFor (c : RuleContext) (d : SubjectDecl) : Prop where
  subject : c.subject = d.name
  actions : ActionTree.build d = .ok c.actions

namespace Rule

variable {c : RuleContext} {s : RuleState} {d : SubjectDecl}

theorem Asks.keepsGraph {α : Type} {m : RuleM α} (h : Asks m) : KeepsGraph RuleState.graph m := by
  intro s
  obtain ⟨calls, hcalls⟩ := h s
  rw [hcalls]
  exact s.graph.grows_run calls

theorem failsAs_onGraph {α : Type} {m : GraphM α} {check : Except PolicyError Unit}
    {post : α → Graph → Prop} (h : FailsAs id m s.graph check post) :
    FailsAs RuleState.graph (onGraph m) s check post := h

theorem failsAs_otherwiseCondition {enclosing condition : NodeIndex} (hg : s.graph.WellPlaced)
    (henclosing : s.graph.Knows c.scope enclosing) (hcondition : s.graph.Knows c.scope condition) :
    FailsAs RuleState.graph (otherwiseCondition c enclosing condition) s (.ok ())
      fun i g => g.Knows c.scope i := by
  refine failsAs_onGraph ((Graph.failsAs_not hg hcondition).bind (Graph.keeps_add _ _)
    (fun _ => Graph.keeps_conjoin _ _ _) fun negated g hgrows hnegated => ?_)
  exact Graph.failsAs_conjoin (hgrows.stable _ Graph.stable_wellPlaced hg)
    (henclosing.grows hgrows) hnegated

/-- The actions of a selection are found exactly if they are declared. -/
theorem select_map (hc : c.IsFor d) (actions : ActionSelection) :
    ((select c actions).map fun _ => ()) = d.checkActions c.role actions := by
  cases actions with
  | everything => rfl
  | actions names =>
    refine Steps.mapM_map_unit fun name _ => ?_
    rw [bitOf, hc.subject]
    by_cases hmem : name ∈ d.actions.map (·.name)
    · rw [if_pos hmem]
      obtain ⟨i, hi⟩ := ActionTree.exists_bit? hc.actions hmem
      rw [hi]
      rfl
    · rw [if_neg hmem]
      cases hi : c.actions.bit? name with
      | none => rfl
      | some i =>
        exact absurd (List.mem_of_getElem? ((ActionTree.bit?_eq_some_iff hc.actions).mp hi)) hmem

theorem failsAs_addPermission (hc : c.IsFor d) (condition : NodeIndex) (mode : AccessMode)
    (actions : ActionSelection) :
    FailsAs RuleState.graph (addPermission c condition mode actions) s
      (d.checkActions c.role actions) fun _ _ => True := by
  refine fun _ => ⟨?_, fun _ _ => trivial⟩
  rw [← select_map hc, addPermission]
  cases select c actions <;> rfl

section

variable {ctx : ConditionContext}

mutual

theorem failsAs_addStatement (hc : c.IsFor d) :
    ∀ (st : Statement) {enclosing : NodeIndex} {s : RuleState},
      s.graph.Hosts c.scope ctx → s.graph.Knows c.scope enclosing →
      FailsAs RuleState.graph (addStatement c enclosing st) s
        (st.mentions.forM (d.checkMention ctx c.role)) fun _ _ => True
  | .permission mode actions, enclosing, s, _, _ => by
    rw [Statement.mentions, Steps.forM_singleton]
    exact failsAs_addPermission hc enclosing mode actions
  | .when w, _, _, hhosts, henclosing => failsAs_addWhen hc w hhosts henclosing

theorem failsAs_addWhen (hc : c.IsFor d) :
    ∀ (w : When) {enclosing : NodeIndex} {s : RuleState},
      s.graph.Hosts c.scope ctx → s.graph.Knows c.scope enclosing →
      FailsAs RuleState.graph (addWhen c enclosing w) s
        (w.mentions.forM (d.checkMention ctx c.role)) fun _ _ => True
  | .mk e body alternative, enclosing, s, hhosts, henclosing => by
    have halternative (condition : NodeIndex) := asks_addElse c enclosing condition alternative
    have hrest (condition inside : NodeIndex) :=
      (asks_addBlock c inside body).bind fun _ => halternative condition
    have hinside (condition : NodeIndex) := (asks_conjoin c.scope enclosing condition).bind
      (hrest condition)
    show FailsAs _ (addWhen c enclosing (.mk e body alternative)) s
      ((do let _ ← e.check ctx; return ()) >>= fun _ =>
        (mentionsAll body ++ alternative.mentions).forM (d.checkMention ctx c.role)) _
    rw [Steps.forM_append]
    -- a condition that checks is stored, and joining it with the enclosing one cannot fail
    refine (failsAs_onGraph hhosts.failsAs_lower).bind (asks_lower c.scope e).keepsGraph
      (fun condition => (hinside condition).keepsGraph) fun condition s₁ hgrows hcondition => ?_
    have hhosts₁ := hhosts.grows hgrows
    have henclosing₁ := henclosing.grows hgrows
    refine (failsAs_onGraph (Graph.failsAs_conjoin hhosts₁.wellPlaced henclosing₁ hcondition)).bind
      (asks_conjoin c.scope enclosing condition).keepsGraph
      (fun inside => (hrest condition inside).keepsGraph) fun inside s₂ hgrows₂ hinside => ?_
    have hhosts₂ := hhosts₁.grows hgrows₂
    refine (failsAs_addBlock hc body hhosts₂ hinside).bind
      (asks_addBlock c inside body).keepsGraph (fun _ => (halternative condition).keepsGraph)
      fun _ s₃ hgrows₃ _ => ?_
    exact failsAs_addElse hc alternative (hhosts₂.grows hgrows₃)
      ((henclosing₁.grows hgrows₂).grows hgrows₃) ((hcondition.grows hgrows₂).grows hgrows₃)

theorem failsAs_addElse (hc : c.IsFor d) :
    ∀ (b : ElseBranch) {enclosing condition : NodeIndex} {s : RuleState},
      s.graph.Hosts c.scope ctx → s.graph.Knows c.scope enclosing →
      s.graph.Knows c.scope condition →
      FailsAs RuleState.graph (addElse c enclosing condition b) s
        (b.mentions.forM (d.checkMention ctx c.role)) fun _ _ => True
  | .none, _, _, _, _, _, _ => .pure () trivial
  | .elseWhen next, enclosing, condition, _, hhosts, henclosing, hcondition =>
    (failsAs_otherwiseCondition hhosts.wellPlaced henclosing hcondition).bind
      (asks_otherwiseCondition c enclosing condition).keepsGraph
      (fun outside => (asks_addWhen c outside next).keepsGraph) fun _ _ hgrows houtside =>
        failsAs_addWhen hc next (hhosts.grows hgrows) houtside
  | .otherwise body, enclosing, condition, _, hhosts, henclosing, hcondition =>
    (failsAs_otherwiseCondition hhosts.wellPlaced henclosing hcondition).bind
      (asks_otherwiseCondition c enclosing condition).keepsGraph
      (fun outside => (asks_addBlock c outside body).keepsGraph) fun _ _ hgrows houtside =>
        failsAs_addBlock hc body (hhosts.grows hgrows) houtside

theorem failsAs_addBlock (hc : c.IsFor d) :
    ∀ (ss : List Statement) {enclosing : NodeIndex} {s : RuleState},
      s.graph.Hosts c.scope ctx → s.graph.Knows c.scope enclosing →
      FailsAs RuleState.graph (addBlock c enclosing ss) s
        ((mentionsAll ss).forM (d.checkMention ctx c.role)) fun _ _ => True
  | [], _, _, _, _ => .pure () trivial
  | st :: rest, enclosing, s, hhosts, henclosing => by
    show FailsAs _ (addBlock c enclosing (st :: rest)) s
      ((st.mentions ++ mentionsAll rest).forM (d.checkMention ctx c.role)) _
    rw [Steps.forM_append]
    exact (failsAs_addStatement hc st hhosts henclosing).bind
      (asks_addStatement c enclosing st).keepsGraph
      (fun _ => (asks_addBlock c enclosing rest).keepsGraph) fun _ _ hgrows _ =>
        failsAs_addBlock hc rest (hhosts.grows hgrows) (henclosing.grows hgrows)

end

end

end Rule

/-! ## Models -/

namespace Model

variable {m : Model} {cs : Concepts} {subjects : List EncodedSubject} {g g' : Graph}

/-- A subject is found among the encoded ones exactly if it is declared. -/
theorem findSubject_cases (h : encodeSubjects cs [] m.subjects = .ok subjects)
    (role name : String) :
    (m.subjects.find? (·.name = name) = none ∧
      findSubject role name subjects = .error (.configuration (.unknownSubject role name))) ∨
    ∃ id s, m.subjects.find? (·.name = name) = some s.1 ∧ subjects[id]? = some s ∧
      findSubject role name subjects = .ok (id, s) := by
  obtain ⟨hdecls, -, hnames, -⟩ := encodeSubjects_eq_ok h
  cases hfind : findSubject role name subjects with
  | ok found =>
    obtain ⟨hs, rfl⟩ := findSubject_eq_ok hfind
    have hmem : found.2.1 ∈ m.subjects := by
      rw [← hdecls]
      exact List.mem_map_of_mem (List.mem_of_getElem? hs)
    exact .inr ⟨found.1, found.2, find?_name hnames hmem, hs, rfl⟩
  | error e =>
    refine .inl ?_
    unfold findSubject at hfind
    split at hfind
    · rename_i hnone
      refine ⟨?_, by rw [← Except.error.inj hfind]⟩
      rw [find?_name_eq_none_iff, ← hdecls]
      simpa [List.findIdx?_eq_none_iff] using hnone
    · rename_i id hid
      -- what was found is in the list
      obtain ⟨hlt, -⟩ := List.findIdx?_eq_some_iff_getElem.mp hid
      rw [List.getElem?_eq_getElem hlt] at hfind
      exact nomatch hfind

/-- The graph takes conditions of every subject. -/
def HostsSubjects (m : Model) (cs : Concepts) (subjects : List EncodedSubject) (g : Graph) : Prop :=
  ∀ id s, subjects[id]? = some s → g.Hosts id (m.context cs s.1)

theorem HostsSubjects.grows (h : m.HostsSubjects cs subjects g) (hg : g.Grows g') :
    m.HostsSubjects cs subjects g' :=
  fun id s hs => (h id s hs).grows hg

theorem subjects_foldl_addSubject (ds : List SubjectDecl) (g : Graph) :
    (ds.foldl (fun g d => g.addSubject d.concept) g).subjects =
      g.subjects ++ ds.map fun d => ⟨d.concept, []⟩ := by
  induction ds generalizing g with
  | nil => simp
  | cons d rest ih =>
    rw [List.foldl_cons, ih, Graph.addSubject, List.append_assoc]
    rfl

theorem initialGraph_eq (m : Model) (cs : Concepts) : m.initialGraph cs =
    (Graph.new cs m.user m.environment).run (m.subjects.map fun d => .addSubject d.concept) := by
  rw [Graph.run, List.foldl_map]
  rfl

theorem hostsSubjects_initialGraph (h : encodeSubjects cs [] m.subjects = .ok subjects) :
    m.HostsSubjects cs subjects (m.initialGraph cs) := by
  intro id s hs
  obtain ⟨hdecls, -⟩ := encodeSubjects_eq_ok h
  have hd : m.subjects[id]? = some s.1 := by rw [← hdecls, List.getElem?_map, hs, Option.map_some]
  have htable : (m.initialGraph cs).subjects[id]? = some ⟨s.1.concept, []⟩ := by
    rw [initialGraph, subjects_foldl_addSubject]
    simp [Graph.new, hd]
  rw [initialGraph_eq] at htable ⊢
  exact Graph.hosts_run cs m.user m.environment _ htable

/-! ### Blocks and roles -/

/-- The rules of a block are those of its statements, added to an empty list. -/
theorem blockRules_eq {role : String} {b : RoleBlock} {id : Nat} {s : EncodedSubject}
    {r : Except PolicyError Unit} {s' : RuleState}
    (hfind : findSubject role b.subject subjects = .ok (id, s))
    (hrun : Rule.addBlock ⟨role, b.subject, id, s.2⟩ .trueLiteral b.statements ⟨g, []⟩ = (r, s')) :
    blockRules role subjects b g = (r.map fun _ => s'.rules, s'.graph) := by
  rw [← Rule.addStatements] at hrun
  rw [blockRules, hfind]
  dsimp only
  rw [hrun]
  cases r <;> rfl

theorem keeps_blockRules (role : String) (subjects : List EncodedSubject) (b : RoleBlock) :
    Graph.Keeps (blockRules role subjects b) := by
  intro g
  cases hfind : findSubject role b.subject subjects with
  | error e =>
    rw [blockRules, hfind]
    exact .refl g
  | ok found =>
    cases hrun : Rule.addBlock ⟨role, b.subject, found.1, found.2.2⟩ .trueLiteral b.statements
      ⟨g, []⟩ with
    | mk r s =>
      have hgrows := (Rule.asks_addBlock ⟨role, b.subject, found.1, found.2.2⟩ .trueLiteral
        b.statements).keepsGraph ⟨g, []⟩
      rw [hrun] at hgrows
      rwa [blockRules_eq hfind hrun]

theorem keeps_roleBlocks (subjects : List EncodedSubject) (r : Role) (bs : List RoleBlock) :
    Graph.Keeps (roleBlocks subjects r bs) := by
  induction bs generalizing r with
  | nil => exact .pure r
  | cons b rest ih => exact (keeps_blockRules r.name subjects b).bind fun rules => ih _

theorem keeps_compileRoles (subjects : List EncodedSubject) (seen : List String)
    (ds : List RoleDecl) : Graph.Keeps (compileRoles subjects seen ds) := by
  induction ds generalizing seen with
  | nil => exact .pure []
  | cons d rest ih =>
    rw [compileRoles]
    split
    · exact fun g => .refl g
    · exact (keeps_roleBlocks subjects _ d.blocks).bind fun r => (ih _).bind fun _ => .pure _

theorem failsAs_blockRules (h : encodeSubjects cs [] m.subjects = .ok subjects)
    (hg : m.HostsSubjects cs subjects g) (role : String) (b : RoleBlock) :
    FailsAs id (blockRules role subjects b) g (m.checkBlock cs role b) fun _ _ => True := by
  intro hfits
  refine ⟨?_, fun _ _ => trivial⟩
  rw [checkBlock]
  rcases findSubject_cases h role b.subject with ⟨hnone, hfind⟩ | ⟨id, s, hsome, hs, hfind⟩
  · rw [blockRules, hfind, hnone]
    rfl
  · obtain ⟨-, hbuild, -⟩ := encodeSubjects_eq_ok h
    have hhosts := hg id s hs
    have hc : (⟨role, b.subject, id, s.2⟩ : RuleContext).IsFor s.1 :=
      ⟨(mem_of_find?_name hsome).2.symm, hbuild s (List.mem_of_getElem? hs)⟩
    have hblock := Rule.failsAs_addBlock (s := ⟨g, []⟩) hc b.statements hhosts
      (hhosts.wellPlaced.knows_true id)
    cases hrun : Rule.addBlock ⟨role, b.subject, id, s.2⟩ .trueLiteral b.statements ⟨g, []⟩ with
    | mk r s' =>
      rw [blockRules_eq hfind hrun] at hfits ⊢
      rw [FailsAs, hrun] at hblock
      rw [hsome]
      refine Eq.trans ?_ (hblock hfits).1
      cases r <;> rfl

theorem failsAs_roleBlocks (h : encodeSubjects cs [] m.subjects = .ok subjects)
    (hg : m.HostsSubjects cs subjects g) (r : Role) (bs : List RoleBlock) :
    FailsAs id (roleBlocks subjects r bs) g (bs.forM (m.checkBlock cs r.name)) fun _ _ => True := by
  induction bs generalizing r g with
  | nil => exact .pure r trivial
  | cons b rest ih =>
    exact (failsAs_blockRules h hg r.name b).bind (keeps_blockRules _ _ b)
      (fun rules => keeps_roleBlocks _ _ rest) fun rules g' hgrows _ =>
        ih (hg.grows hgrows) (r.extend b.subject rules)

theorem failsAs_compileRoles (h : encodeSubjects cs [] m.subjects = .ok subjects)
    (hg : m.HostsSubjects cs subjects g) (seen : List String) (ds : List RoleDecl) :
    FailsAs id (compileRoles subjects seen ds) g (m.checkRoles cs seen ds) fun _ _ => True := by
  induction ds generalizing seen g with
  | nil => exact .pure [] trivial
  | cons d rest ih =>
    rw [compileRoles, checkRoles]
    split
    · exact fun _ => ⟨rfl, fun _ _ => trivial⟩
    · refine (failsAs_roleBlocks h hg ⟨d.name, []⟩ d.blocks).bind (keeps_roleBlocks _ _ _)
        (fun r => (keeps_compileRoles subjects (d.name :: seen) rest).bind fun _ => .pure _)
        fun r g' hgrows _ => ?_
      rw [← bind_pure_unit (x := m.checkRoles cs (d.name :: seen) rest)]
      exact (ih (hg.grows hgrows) (d.name :: seen)).bind (keeps_compileRoles _ _ rest)
        (fun _ => Graph.Keeps.pure _) fun rs _ _ _ => .pure (r :: rs) trivial

/-! ### Compilation -/

/-- Compiling the model builds no table that outgrows its indices, as far as it gets. -/
def FitsIndices (m : Model) : Prop :=
  ∀ cs subjects, Concepts.build m.concepts = .ok cs →
    encodeSubjects cs [] m.subjects = .ok subjects →
    ∀ scope, (compileRoles subjects [] m.roles (m.initialGraph cs)).2.Fits scope

/-- Compiling a model fails exactly as its checks do. -/
theorem compile_eq_error_iff_validate {sourceId : String} {e : PolicyError} (h : m.FitsIndices) :
    m.compile sourceId = .error e ↔ m.validate = .error e := by
  rw [compile_eq_error_iff]
  apply Steps.check_bind_error_congr
  intro cs hcs
  apply Steps.check_bind_error_congr
  intro _ huser
  apply Steps.check_bind_error_congr
  intro _ henvironment
  apply Steps.check_bind_error_congr
  intro subjects hsubjects
  have hroles := (failsAs_compileRoles hsubjects (hostsSubjects_initialGraph hsubjects) [] m.roles
    (h cs subjects hcs hsubjects)).1
  rw [← hroles]
  rcases compileRoles subjects [] m.roles (m.initialGraph cs) with ⟨_ | _, g⟩
  · show Except.error _ = _ ↔ Except.error _ = _
    rw [Except.error.injEq, Except.error.injEq]
  · exact iff_of_false nofun nofun

end Model

end AccessPolicy
