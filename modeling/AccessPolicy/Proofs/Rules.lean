import AccessPolicy.Proofs.Evaluation.Lowering
import AccessPolicy.Rules
import AccessPolicy.Semantics.Decision

/-!
# Rules — a permission applies where its path leads

Every permission comes with the conditions on the way to it and how each has to turn out.  Rendering
statements adds one rule for each permission, in order, and the condition of the rule holds exactly
where all those conditions turn out that way.
-/

namespace AccessPolicy

/-! ## Permissions with their paths -/

/-- A condition, and whether it has to hold. -/
abbrev Guard := Expression × Bool

/-- A permission with the conditions on the way to it. -/
structure GuardedPermission where
  guards : List Guard
  permission : Permission

mutual

/-- The permissions of a statement that `outer` leads to. -/
def Statement.guarded (outer : List Guard) : Statement → List GuardedPermission
  | .permission mode actions => [⟨outer, mode, actions⟩]
  | .when w => w.guarded outer

def When.guarded (outer : List Guard) : When → List GuardedPermission
  | .mk condition body alternative =>
    guardedAll (outer ++ [(condition, true)]) body ++ alternative.guarded outer condition

def ElseBranch.guarded (outer : List Guard) (condition : Expression) :
    ElseBranch → List GuardedPermission
  | .none => []
  | .elseWhen next => next.guarded (outer ++ [(condition, false)])
  | .otherwise body => guardedAll (outer ++ [(condition, false)]) body

def guardedAll (outer : List Guard) : List Statement → List GuardedPermission
  | [] => []
  | s :: rest => s.guarded outer ++ guardedAll outer rest

end

theorem guardedAll_append (outer : List Guard) (ss ts : List Statement) :
    guardedAll outer (ss ++ ts) = guardedAll outer ss ++ guardedAll outer ts := by
  induction ss with
  | nil => rfl
  | cons s rest ih => rw [List.cons_append, guardedAll, guardedAll, ih, List.append_assoc]

/-- Do the conditions all turn out as they should? -/
def guardsHold (holds : Expression → Bool) (guards : List Guard) : Bool :=
  guards.all fun g => holds g.1 == g.2

/-- The permissions whose guards hold. -/
def passing (holds : Expression → Bool) (ps : List GuardedPermission) : List Permission :=
  (ps.filter fun p => guardsHold holds p.guards).map (·.permission)

theorem passing_append (holds : Expression → Bool) (ps qs : List GuardedPermission) :
    passing holds (ps ++ qs) = passing holds ps ++ passing holds qs := by
  rw [passing, List.filter_append, List.map_append, passing, passing]

theorem guardsHold_append (holds : Expression → Bool) (outer inner : List Guard) :
    guardsHold holds (outer ++ inner) = (guardsHold holds outer && guardsHold holds inner) :=
  List.all_append

theorem guardsHold_singleton (holds : Expression → Bool) (e : Expression) (b : Bool) :
    guardsHold holds [(e, b)] = (holds e == b) :=
  Bool.and_true _

mutual

/-- Walking a statement reaches the permissions whose guards hold. -/
theorem Statement.passing_guarded (holds : Expression → Bool) (outer : List Guard) :
    ∀ s : Statement, passing holds (s.guarded outer) =
      if guardsHold holds outer then s.reached holds else []
  | .permission mode actions => by
    rw [Statement.guarded, Statement.reached, passing]
    cases h : guardsHold holds outer <;> simp [h]
  | .when w => w.passing_guarded holds outer

theorem When.passing_guarded (holds : Expression → Bool) (outer : List Guard) :
    ∀ w : When, passing holds (w.guarded outer) =
      if guardsHold holds outer then w.reached holds else []
  | .mk condition body alternative => by
    -- of the two sides, the one that the condition does not lead to passes nothing
    rw [When.guarded, When.reached, passing_append, passingAll_guarded holds _ body,
      alternative.passing_guarded holds outer condition, guardsHold_append, guardsHold_singleton]
    cases guardsHold holds outer <;> cases holds condition <;> simp

theorem ElseBranch.passing_guarded (holds : Expression → Bool) (outer : List Guard)
    (condition : Expression) : ∀ b : ElseBranch, passing holds (b.guarded outer condition) =
      if guardsHold holds outer && !holds condition then b.reached holds else []
  | .none => by
    rw [ElseBranch.guarded, ElseBranch.reached, ite_self]
    rfl
  | .elseWhen next => by
    rw [ElseBranch.guarded, ElseBranch.reached, next.passing_guarded holds, guardsHold_append,
      guardsHold_singleton]
    cases holds condition <;> rfl
  | .otherwise body => by
    rw [ElseBranch.guarded, ElseBranch.reached, passingAll_guarded holds _ body, guardsHold_append,
      guardsHold_singleton]
    cases holds condition <;> rfl

theorem passingAll_guarded (holds : Expression → Bool) (outer : List Guard) :
    ∀ ss : List Statement, passing holds (guardedAll outer ss) =
      if guardsHold holds outer then reachedAll holds ss else []
  | [] => by
    rw [guardedAll, reachedAll, ite_self]
    rfl
  | s :: rest => by
    rw [guardedAll, reachedAll, passing_append, s.passing_guarded holds outer,
      passingAll_guarded holds outer rest]
    split <;> simp

end

/-! ## Conditions that stand for guards -/

namespace Graph

variable {g g' : Graph} {scope : Nat} {i : NodeIndex}

/-- The index stands for a tree that holds exactly where the guards turn out as they should. -/
def Guards (g : Graph) (scope : Nat) (i : NodeIndex) (guards : List Guard) : Prop :=
  g.Fits scope → ∃ t, (g.view scope).Spells i t ∧ ∀ cs data,
    (t.evaluate cs data).truthy = guardsHold (fun e => (e.evaluate cs data).truthy) guards

theorem Guards.mono {guards : List Guard} (hext : g.Extends g') (h : g.Guards scope i guards) :
    g'.Guards scope i guards := by
  intro hfits
  obtain ⟨t, hspells, ht⟩ := h (hfits.of_extends hext)
  exact ⟨t, hspells.mono (hext.view scope), ht⟩

/-- The literal `true` stands for no guards at all. -/
theorem WellPlaced.guards_true (h : g.WellPlaced) (scope : Nat) :
    g.Guards scope .trueLiteral [] :=
  fun _ => ⟨_, h.spells_boolean scope true, fun _ _ => rfl⟩

theorem guards_lower {e : Expression} (hg : g.WellPlaced)
    (h : lower scope e g = (.ok i, g')) : g'.Guards scope i [(e, true)] := by
  intro hfits
  refine ⟨_, lower_spells hg h hfits, fun cs data => ?_⟩
  rw [guardsHold_singleton, Expression.evaluate_erase, beq_true]

theorem guards_not {e : Expression} {c : NodeIndex} (hg : g.WellPlaced)
    (hc : g.Guards scope c [(e, true)]) (h : add scope (.unary .not c) g = (.ok i, g')) :
    g'.Guards scope i [(e, false)] := by
  intro hfits
  obtain ⟨t, hspells, ht⟩ := hc (hfits.of_extends ((keeps_add _ _).extends h))
  refine ⟨_, add_spells hg h hfits (fun _ => t) (by simpa [Node.operands] using hspells),
    fun cs data => ?_⟩
  have ht := ht cs data
  rw [guardsHold_singleton, beq_true] at ht
  rw [guardsHold_singleton, beq_false, ← ht]
  rfl

theorem truthy_and (left right : Json) :
    (BinaryOp.and.apply left right).truthy = (left.truthy && right.truthy) := by
  unfold BinaryOp.apply
  cases h : left.truthy <;> simp [h]

/-- A conjunction stands for the guards of both sides, also when a side is dropped. -/
theorem guards_conjoin {left right : NodeIndex} {outer inner : List Guard} (hg : g.WellPlaced)
    (hl : g.Guards scope left outer) (hr : g.Guards scope right inner)
    (h : conjoin scope left right g = (.ok i, g')) : g'.Guards scope i (outer ++ inner) := by
  have htrue {t : Expression} (ht : (g.view scope).Spells .trueLiteral t) :
      t = .boolean true none := ht.unique (hg.spells_boolean scope true)
  unfold conjoin at h
  split at h
  · -- the left side is the literal `true`, and the right one is the answer
    rename_i hleft
    subst hleft
    obtain ⟨hi, rfl⟩ := Prod.mk.inj h
    rw [← Except.ok.inj hi]
    intro hfits
    obtain ⟨t, hspells, ht⟩ := hl hfits
    obtain ⟨t', hspells', ht'⟩ := hr hfits
    refine ⟨t', hspells', fun cs data => ?_⟩
    rw [guardsHold_append, ← ht, ← ht', htrue hspells]
    rfl
  · split at h
    · -- the right side is that literal, and the left one is the answer
      rename_i hright
      subst hright
      obtain ⟨hi, rfl⟩ := Prod.mk.inj h
      rw [← Except.ok.inj hi]
      intro hfits
      obtain ⟨t, hspells, ht⟩ := hl hfits
      obtain ⟨t', hspells', ht'⟩ := hr hfits
      refine ⟨t, hspells, fun cs data => ?_⟩
      rw [guardsHold_append, ← ht, ← ht', htrue hspells']
      exact (Bool.and_true _).symm
    · -- a new node combines both
      intro hfits
      have hfits₀ := hfits.of_extends ((keeps_add _ _).extends h)
      obtain ⟨t, hspells, ht⟩ := hl hfits₀
      obtain ⟨t', hspells', ht'⟩ := hr hfits₀
      obtain ⟨trees, htree, htree'⟩ := hspells.pair hspells'
      refine ⟨_, add_spells hg h hfits trees
        (by simpa [Node.operands, htree, htree'] using ⟨hspells, hspells'⟩), fun cs data => ?_⟩
      rw [guardsHold_append, ← ht, ← ht', ← truthy_and, ← htree, ← htree']
      rfl

end Graph

/-! ## Rendering -/

/-- The rule is the one for the permission. -/
structure Renders (c : RuleContext) (g : Graph) (p : GuardedPermission) (r : Rule) : Prop where
  mode : r.mode = p.permission.1
  actions : Rule.select c p.permission.2 = .ok r.actions
  mask : r.mask = c.actions.mergedClosure r.actions r.mode
  condition : g.Guards c.scope r.condition p.guards

theorem Renders.mono {c : RuleContext} {g g' : Graph} {p : GuardedPermission} {r : Rule}
    (hext : g.Extends g') (h : Renders c g p r) : Renders c g' p r :=
  ⟨h.mode, h.actions, h.mask, h.condition.mono hext⟩

/-- The step has extended the graph and added the rules for the permissions. -/
structure Rendered (c : RuleContext) (ps : List GuardedPermission) (s s' : RuleState) : Prop where
  extend : s.graph.Extends s'.graph
  wellPlaced : s'.graph.WellPlaced
  rules : ∃ new, s'.rules = s.rules ++ new ∧ List.Forall₂ (Renders c s'.graph) ps new

namespace Rule

variable {c : RuleContext} {s s' s'' : RuleState}

theorem rendered_nil (h : s.graph.WellPlaced) : Rendered c [] s s :=
  ⟨.refl _, h, [], (List.append_nil _).symm, .nil⟩

theorem rendered_append {ps qs : List GuardedPermission} (h : Rendered c ps s s')
    (h' : Rendered c qs s' s'') : Rendered c (ps ++ qs) s s'' := by
  obtain ⟨new, hnew, hall⟩ := h.rules
  obtain ⟨new', hnew', hall'⟩ := h'.rules
  refine ⟨h.extend.trans h'.extend, h'.wellPlaced, new ++ new', ?_, ?_⟩
  · rw [hnew', hnew, List.append_assoc]
  · exact List.rel_append (hall.imp fun _ _ hr => hr.mono h'.extend) hall'

theorem onGraph_eq_ok {α : Type} {step : GraphM α} {a : α} (h : onGraph step s = (.ok a, s')) :
    ∃ g, step s.graph = (.ok a, g) ∧ s' = { s with graph := g } := by
  unfold onGraph at h
  obtain ⟨hr, rfl⟩ := Prod.mk.inj h
  exact ⟨_, Prod.ext hr rfl, rfl⟩

/-- Steps on the graph alone add no rules. -/
theorem rendered_onGraph {ps : List GuardedPermission} {g : Graph} (hext : s.graph.Extends g)
    (h : Rendered c ps { s with graph := g } s') : Rendered c ps s s' :=
  ⟨hext.trans h.extend, h.wellPlaced, h.rules⟩

theorem bitOf_eq_ok_iff {name : String} {bit : Nat} :
    bitOf c name = .ok bit ↔ c.actions.bit? name = some bit := by
  rw [bitOf]
  cases c.actions.bit? name <;> simp

theorem rendered_addPermission {condition : NodeIndex} {outer : List Guard} {mode : AccessMode}
    {actions : ActionSelection} (hs : s.graph.WellPlaced)
    (hcondition : s.graph.Guards c.scope condition outer)
    (h : addPermission c condition mode actions s = (.ok (), s')) :
    Rendered c [⟨outer, mode, actions⟩] s s' := by
  unfold addPermission at h
  split at h
  · exact absurd (congrArg Prod.fst h) (by simp)
  · rename_i bits hbits
    obtain ⟨-, rfl⟩ := Prod.mk.inj h
    exact ⟨.refl _, hs, [_], rfl, .cons ⟨rfl, hbits, rfl, hcondition⟩ .nil⟩

theorem otherwiseCondition_eq_ok {enclosing condition i : NodeIndex} {outer : List Guard}
    {e : Expression} (hs : s.graph.WellPlaced) (houter : s.graph.Guards c.scope enclosing outer)
    (hcondition : s.graph.Guards c.scope condition [(e, true)])
    (h : otherwiseCondition c enclosing condition s = (.ok i, s')) :
    ∃ g, s' = { s with graph := g } ∧ s.graph.Extends g ∧ g.WellPlaced ∧
      g.Guards c.scope i (outer ++ [(e, false)]) := by
  obtain ⟨g, hsteps, rfl⟩ := onGraph_eq_ok h
  obtain ⟨negated, g₁, hnot, hconjoin⟩ := Steps.bind_eq_ok.mp hsteps
  have hext₁ := (Graph.keeps_add _ _).extends hnot
  have hg₁ := (Graph.keeps_add _ _).wellPlaced hnot hs
  have hnegated := Graph.guards_not hs hcondition hnot
  exact ⟨g, rfl, hext₁.trans ((Graph.keeps_conjoin _ _ _).extends hconjoin),
    (Graph.keeps_conjoin _ _ _).wellPlaced hconjoin hg₁,
    Graph.guards_conjoin hg₁ (houter.mono hext₁) hnegated hconjoin⟩

mutual

theorem rendered_addStatement {enclosing : NodeIndex} {outer : List Guard} :
    ∀ (st : Statement) {s s' : RuleState}, s.graph.WellPlaced →
      s.graph.Guards c.scope enclosing outer → addStatement c enclosing st s = (.ok (), s') →
      Rendered c (st.guarded outer) s s'
  | .permission _ _, _, _, hs, houter, h => rendered_addPermission hs houter h
  | .when w, _, _, hs, houter, h => rendered_addWhen w hs houter h

theorem rendered_addWhen {enclosing : NodeIndex} {outer : List Guard} :
    ∀ (w : When) {s s' : RuleState}, s.graph.WellPlaced →
      s.graph.Guards c.scope enclosing outer → addWhen c enclosing w s = (.ok (), s') →
      Rendered c (w.guarded outer) s s'
  | .mk condition body alternative, s, s', hs, houter, h => by
    obtain ⟨i, s₁, hstep₁, h⟩ := Steps.bind_eq_ok.mp h
    obtain ⟨inside, s₂, hstep₂, h⟩ := Steps.bind_eq_ok.mp h
    obtain ⟨_, s₃, hbody, helse⟩ := Steps.bind_eq_ok.mp h
    obtain ⟨g₁, hlower, rfl⟩ := onGraph_eq_ok hstep₁
    obtain ⟨g₂, hconjoin, rfl⟩ := onGraph_eq_ok hstep₂
    have hext₁ := (Graph.keeps_lower _ _).extends hlower
    have hext₂ := (Graph.keeps_conjoin _ _ _).extends hconjoin
    have hg₁ := (Graph.keeps_lower _ _).wellPlaced hlower hs
    have hg₂ := (Graph.keeps_conjoin _ _ _).wellPlaced hconjoin hg₁
    have hcondition := Graph.guards_lower hs hlower
    have hinside := Graph.guards_conjoin hg₁ (houter.mono hext₁) hcondition hconjoin
    -- what the indices stand for outlives the rules of the first side
    have hthen := rendered_addBlock body hg₂ hinside hbody
    have hext₃ := hext₂.trans hthen.extend
    have halternative := rendered_addElse alternative hthen.wellPlaced
      ((houter.mono hext₁).mono hext₃) (hcondition.mono hext₃) helse
    exact rendered_onGraph (hext₁.trans hext₂) (rendered_append hthen halternative)

theorem rendered_addElse {enclosing condition : NodeIndex} {outer : List Guard} {e : Expression} :
    ∀ (b : ElseBranch) {s s' : RuleState}, s.graph.WellPlaced →
      s.graph.Guards c.scope enclosing outer → s.graph.Guards c.scope condition [(e, true)] →
      addElse c enclosing condition b s = (.ok (), s') → Rendered c (b.guarded outer e) s s'
  | .none, s, s', hs, _, _, h => by
    obtain ⟨-, rfl⟩ := Prod.mk.inj h
    exact rendered_nil hs
  | .elseWhen next, s, s', hs, houter, hcondition, h => by
    obtain ⟨outside, s₁, hotherwise, h⟩ := Steps.bind_eq_ok.mp h
    obtain ⟨g, rfl, hext, hg, houtside⟩ :=
      otherwiseCondition_eq_ok hs houter hcondition hotherwise
    exact rendered_onGraph hext (rendered_addWhen next hg houtside h)
  | .otherwise body, s, s', hs, houter, hcondition, h => by
    obtain ⟨outside, s₁, hotherwise, h⟩ := Steps.bind_eq_ok.mp h
    obtain ⟨g, rfl, hext, hg, houtside⟩ :=
      otherwiseCondition_eq_ok hs houter hcondition hotherwise
    exact rendered_onGraph hext (rendered_addBlock body hg houtside h)

theorem rendered_addBlock {enclosing : NodeIndex} {outer : List Guard} :
    ∀ (ss : List Statement) {s s' : RuleState}, s.graph.WellPlaced →
      s.graph.Guards c.scope enclosing outer → addBlock c enclosing ss s = (.ok (), s') →
      Rendered c (guardedAll outer ss) s s'
  | [], s, s', hs, _, h => by
    obtain ⟨-, rfl⟩ := Prod.mk.inj h
    exact rendered_nil hs
  | st :: rest, s, s', hs, houter, h => by
    obtain ⟨_, s₁, hst, hrest⟩ := Steps.bind_eq_ok.mp h
    have hfirst := rendered_addStatement st hs houter hst
    exact rendered_append hfirst
      (rendered_addBlock rest hfirst.wellPlaced (houter.mono hfirst.extend) hrest)

end

end Rule

end AccessPolicy
