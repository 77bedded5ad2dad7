import AccessPolicy.Proofs.Validation

/-!
# Table sizes — how much a model adds to the tables

Every step adds at most one node, so the nodes of the conditions of a model, with three more for
each condition, bound the tables that compiling it builds.  Only a model with more nodes than there
are indices can outgrow them.
-/

namespace AccessPolicy

/-- No table of the graph is longer. -/
structure Graph.Within (g : Graph) (n : Nat) : Prop where
  common : g.common.length ≤ n
  own : ∀ s ∈ g.subjects, s.nodes.length ≤ n

theorem Graph.Within.mono {g : Graph} {n n' : Nat} (h : g.Within n) (hle : n ≤ n') :
    g.Within n' :=
  ⟨h.common.trans hle, fun s hs => (h.own s hs).trans hle⟩

theorem Graph.Within.fits {g : Graph} {n : Nat} (h : g.Within n) (hn : n ≤ 2 ^ 31) (scope : Nat) :
    g.Fits scope := by
  refine ⟨h.common.trans hn, ?_⟩
  unfold Graph.view
  cases hs : g.subjects[scope]? with
  | none => exact Nat.zero_le _
  | some s => exact (h.own s (List.mem_of_getElem? hs)).trans hn

section

variable {σ α β : Type} {graph : σ → Graph} {m : Steps σ α} {f : α → Steps σ β} {k k' : Nat}

/-- Whatever it answers, the step makes no table longer by more than `k` nodes. -/
def AddsAtMost (graph : σ → Graph) (k : Nat) (m : Steps σ α) : Prop :=
  ∀ s n, (graph s).Within n → (graph (m s).2).Within (n + k)

theorem AddsAtMost.pure (a : α) : AddsAtMost graph 0 (pure a) := fun _ _ h => h

theorem AddsAtMost.bind (hm : AddsAtMost graph k m) (hf : ∀ a, AddsAtMost graph k' (f a)) :
    AddsAtMost graph (k + k') (m >>= f) := by
  intro s n h
  have hfirst := hm s n h
  rcases Steps.bind_cases m f s with ⟨e, s', hrun, hbind⟩ | ⟨a, s', hrun, hbind⟩
  · rw [hbind]
    rw [hrun] at hfirst
    exact hfirst.mono (by omega)
  · rw [hbind]
    rw [hrun] at hfirst
    exact (hf a s' _ hfirst).mono (by omega)

end

/-! ## Steps on the graph -/

namespace Graph

theorem length_place_le (kind : TableKind) (n : Node) (type : DataType) (t : NodeTable) :
    (t.place kind n type).2.length ≤ t.length + 1 := by
  rcases NodeTable.place_cases kind n type t with ⟨found, -, -, h⟩ | ⟨-, h⟩ <;> simp [h]

theorem Within.insert {g : Graph} {k : Nat} (h : g.Within k) (scope : Nat) (n : Node)
    (type : DataType) : (g.insert scope n type).2.Within (k + 1) := by
  have hcommon (kind : TableKind) : (g.common.place kind n type).2.length ≤ k + 1 :=
    (length_place_le kind n type g.common).trans (Nat.succ_le_succ h.common)
  have hown : ∀ s ∈ g.subjects, s.nodes.length ≤ k + 1 := fun s hs => (h.own s hs).trans (by omega)
  unfold Graph.insert
  split
  · split
    · rename_i s hs
      refine ⟨h.common.trans (by omega), fun s' hs' => ?_⟩
      rcases List.mem_or_eq_of_mem_set hs' with hs' | rfl
      · exact hown s' hs'
      · exact (length_place_le _ n type s.nodes).trans
          (Nat.succ_le_succ (h.own s (List.mem_of_getElem? hs)))
    · exact ⟨hcommon _, hown⟩
  · exact ⟨hcommon _, hown⟩

theorem addsAtMost_add (scope : Nat) (n : Node) : AddsAtMost id 1 (add scope n) := by
  intro g k h
  unfold add
  split
  · exact h.mono (by omega)
  · exact h.insert scope n _

theorem addsAtMost_conjoin (scope : Nat) (left right : NodeIndex) :
    AddsAtMost id 1 (conjoin scope left right) := by
  unfold conjoin
  split
  · exact fun g n h => h.mono (by omega)
  · split
    · exact fun g n h => h.mono (by omega)
    · exact addsAtMost_add _ _

theorem addsAtMost_checkType (scope : Nat) (declared? : Option DataType) (i : NodeIndex) :
    AddsAtMost id 0 (checkType scope declared? i) := by
  intro g n h
  simp only [checkType]
  repeat' split
  all_goals exact h

theorem addsAtMost_stored (scope : Nat) (n : Node) (t : Option DataType) :
    AddsAtMost id 1 (add scope n >>= checkType scope t) :=
  (addsAtMost_add scope n).bind fun _ => addsAtMost_checkType _ _ _

/-- Lowering adds a node for each node of the condition at most. -/
theorem addsAtMost_lower (scope : Nat) (e : Expression) :
    AddsAtMost id e.postorder.length (lower scope e) := by
  induction e with
  | null | boolean => exact fun g n h => (addsAtMost_checkType _ _ _ g n h).mono (by omega)
  | number | string | root => exact addsAtMost_stored _ _ _
  | property _ _ _ ih | unary _ _ _ ih | is _ _ _ ih =>
    rw [Expression.postorder, List.length_append]
    exact ih.bind fun _ => addsAtMost_stored _ _ _
  | arrayIndex _ _ _ ih ih' | binary _ _ _ _ ih ih' =>
    rw [Expression.postorder, List.length_append, List.length_append, Nat.add_assoc]
    exact ih.bind fun _ => ih'.bind fun _ => addsAtMost_stored _ _ _

end Graph

/-! ## Statements -/

/-- The nodes of a condition, the conjunction with the conditions around it, and the negation with
its conjunction for the alternative. -/
def Mention.nodeCount : Mention → Nat
  | .condition e => e.postorder.length + 3
  | .selection _ => 0

def nodeCounts (ms : List Mention) : Nat := (ms.map Mention.nodeCount).sum

theorem nodeCounts_append (ms ms' : List Mention) :
    nodeCounts (ms ++ ms') = nodeCounts ms + nodeCounts ms' := by
  rw [nodeCounts, List.map_append, List.sum_append, nodeCounts, nodeCounts]

namespace Rule

theorem addsAtMost_addPermission (c : RuleContext) (condition : NodeIndex) (mode : AccessMode)
    (actions : ActionSelection) :
    AddsAtMost RuleState.graph 0 (addPermission c condition mode actions) := by
  intro s n h
  unfold addPermission
  split <;> exact h

theorem addsAtMost_onGraph {α : Type} {k : Nat} {m : GraphM α} (h : AddsAtMost id k m) :
    AddsAtMost RuleState.graph k (onGraph m) :=
  fun s => h s.graph

theorem addsAtMost_otherwiseCondition (c : RuleContext) (enclosing condition : NodeIndex) :
    AddsAtMost RuleState.graph 2 (otherwiseCondition c enclosing condition) :=
  addsAtMost_onGraph ((Graph.addsAtMost_add _ _).bind fun _ => Graph.addsAtMost_conjoin _ _ _)

mutual

theorem addsAtMost_addStatement (c : RuleContext) : ∀ (enclosing : NodeIndex) (st : Statement),
    AddsAtMost RuleState.graph (nodeCounts st.mentions) (addStatement c enclosing st)
  | enclosing, .permission mode actions => addsAtMost_addPermission c enclosing mode actions
  | enclosing, .when w => addsAtMost_addWhen c enclosing w

theorem addsAtMost_addWhen (c : RuleContext) : ∀ (enclosing : NodeIndex) (w : When),
    AddsAtMost RuleState.graph (nodeCounts w.mentions) (addWhen c enclosing w)
  | enclosing, .mk e body alternative => by
    have h := (addsAtMost_onGraph (Graph.addsAtMost_lower c.scope e)).bind fun condition =>
      (addsAtMost_onGraph (Graph.addsAtMost_conjoin c.scope enclosing condition)).bind fun inside =>
        (addsAtMost_addBlock c inside body).bind fun _ =>
          addsAtMost_addElse c enclosing condition alternative
    have hcount : nodeCounts (When.mk e body alternative).mentions = e.postorder.length +
        (1 + (nodeCounts (mentionsAll body) + (nodeCounts alternative.mentions + 2))) := by
      rw [When.mentions, ← List.singleton_append, nodeCounts_append, nodeCounts_append]
      simp only [nodeCounts, Mention.nodeCount, List.map_cons, List.map_nil, List.sum_singleton]
      omega
    rw [hcount]
    exact h

theorem addsAtMost_addElse (c : RuleContext) :
    ∀ (enclosing condition : NodeIndex) (b : ElseBranch), AddsAtMost RuleState.graph
      (nodeCounts b.mentions + 2) (addElse c enclosing condition b)
  | _, _, .none => fun s n h => h.mono (by omega)
  | enclosing, condition, .elseWhen next => by
    rw [Nat.add_comm]
    exact (addsAtMost_otherwiseCondition c enclosing condition).bind fun outside =>
      addsAtMost_addWhen c outside next
  | enclosing, condition, .otherwise body => by
    rw [Nat.add_comm]
    exact (addsAtMost_otherwiseCondition c enclosing condition).bind fun outside =>
      addsAtMost_addBlock c outside body

theorem addsAtMost_addBlock (c : RuleContext) : ∀ (enclosing : NodeIndex) (ss : List Statement),
    AddsAtMost RuleState.graph (nodeCounts (mentionsAll ss)) (addBlock c enclosing ss)
  | _, [] => .pure ()
  | enclosing, st :: rest => by
    rw [mentionsAll, nodeCounts_append]
    exact (addsAtMost_addStatement c enclosing st).bind fun _ =>
      addsAtMost_addBlock c enclosing rest

end

end Rule

/-! ## Models -/

def RoleBlock.nodeCount (b : RoleBlock) : Nat := nodeCounts (mentionsAll b.statements)

def RoleDecl.nodeCount (r : RoleDecl) : Nat := (r.blocks.map RoleBlock.nodeCount).sum

namespace Model

/-- How many nodes the conditions of the model need at most, with the three literals. -/
def nodeCount (m : Model) : Nat := 3 + (m.roles.map RoleDecl.nodeCount).sum

variable {subjects : List EncodedSubject}

theorem addsAtMost_blockRules (role : String) (b : RoleBlock) :
    AddsAtMost id b.nodeCount (blockRules role subjects b) := by
  intro g n h
  cases hfind : findSubject role b.subject subjects with
  | error e =>
    rw [blockRules, hfind]
    exact h.mono (by omega)
  | ok found =>
    have hblock := Rule.addsAtMost_addBlock ⟨role, b.subject, found.1, found.2.2⟩ .trueLiteral
      b.statements ⟨g, []⟩ n h
    cases hrun : Rule.addBlock ⟨role, b.subject, found.1, found.2.2⟩ .trueLiteral b.statements
      ⟨g, []⟩ with
    | mk r s =>
      rw [hrun] at hblock
      rw [blockRules_eq hfind hrun]
      exact hblock

theorem addsAtMost_roleBlocks (r : Role) (bs : List RoleBlock) :
    AddsAtMost id (bs.map RoleBlock.nodeCount).sum (roleBlocks subjects r bs) := by
  induction bs generalizing r with
  | nil => exact .pure r
  | cons b rest ih =>
    rw [List.map_cons, List.sum_cons]
    exact (addsAtMost_blockRules r.name b).bind fun rules => ih _

theorem addsAtMost_compileRoles (seen : List String) (ds : List RoleDecl) :
    AddsAtMost id (ds.map RoleDecl.nodeCount).sum (compileRoles subjects seen ds) := by
  induction ds generalizing seen with
  | nil => exact .pure []
  | cons d rest ih =>
    rw [compileRoles, List.map_cons, List.sum_cons]
    split
    · exact fun g n h => h.mono (by omega)
    · refine (addsAtMost_roleBlocks _ d.blocks).bind fun r => ?_
      exact (ih _).bind fun _ => .pure _

theorem within_initialGraph (m : Model) (cs : Concepts) : (m.initialGraph cs).Within 3 := by
  unfold initialGraph
  have hnew : (Graph.new cs m.user m.environment).Within 3 := ⟨Nat.le_refl 3, nofun⟩
  generalize Graph.new cs m.user m.environment = g at hnew
  induction m.subjects generalizing g with
  | nil => exact hnew
  | cons d rest ih =>
    refine ih _ ⟨hnew.common, fun s hs => ?_⟩
    rcases List.mem_append.mp hs with hs | hs
    · exact hnew.own s hs
    · rw [List.mem_singleton.mp hs]
      exact Nat.zero_le _

/-- A model of fewer nodes than there are indices does not outgrow them. -/
theorem fitsIndices_of_nodeCount {m : Model} (h : m.nodeCount ≤ 2 ^ 31) : m.FitsIndices :=
  fun cs _ _ _ =>
    (addsAtMost_compileRoles [] m.roles _ 3 (m.within_initialGraph cs)).fits h

end Model

end AccessPolicy
