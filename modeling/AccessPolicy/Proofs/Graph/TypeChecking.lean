import AccessPolicy.Proofs.Graph.Types

/-!
# Type checking — lowering checks the tree

Whether a node is derived anew or found, its type is that of its tree and so is its text.  Hence
lowering answers and refuses exactly what checking the tree does, whatever the graph held before,
and annotations that agree with the types change nothing.
-/

namespace AccessPolicy

open Expression

/-! ## One operand list for every node -/

/-- The node of a condition whose operands have these indices. -/
def Expression.node : Expression → List NodeIndex → Node
  | .null _, _ => .null
  | .boolean b _, _ => .boolean b
  | .number x _, _ => .number x
  | .string s _, _ => .string s
  | .root r _, _ => .root r
  | .property _ m _, [receiver] => .property receiver m
  | .arrayIndex .., [receiver, index] => .arrayItem receiver index
  | .binary op _ _ _, [left, right] => .binary op left right
  | .unary op _ _, [operand] => .unary op operand
  | .is _ concept _, [operand] => .is concept operand
  | _, _ => .null

theorem Expression.Annotates.node {c : ConditionContext} {e e' : Expression}
    (h : Annotates c e e') : e'.node = e.node := by
  funext is
  cases h <;> rcases is with _ | ⟨_, _ | ⟨_, _ | _⟩⟩ <;> rfl

namespace Graph

variable {g g' g₁ : Graph} {scope : Nat} {concept : String} {i : NodeIndex} {e : Expression}
  {is : List NodeIndex} {c : ConditionContext}

theorem keeps_mapM_lower (scope : Nat) (es : List Expression) : Keeps (es.mapM (lower scope)) := by
  induction es with
  | nil => exact .pure []
  | cons e rest ih =>
    rw [List.mapM_cons]
    exact (keeps_lower scope e).bind fun _ => ih.bind fun _ => .pure _

/-- Storing the node of a condition and checking the annotation. -/
def addNode (scope : Nat) (e : Expression) (is : List NodeIndex) : GraphM NodeIndex :=
  add scope (e.node is) >>= checkType scope e.declaredType?

theorem keeps_addNode (scope : Nat) (e : Expression) (is : List NodeIndex) :
    Keeps (addNode scope e is) :=
  (keeps_add _ _).bind fun _ => keeps_checkType _ _ _

theorem add_literal (hg : g.WellPlaced) (scope : Nat) {n : TypedNode} (hn : n ∈ literals) :
    add scope n.node g = (.ok n.index, g) := by
  obtain ⟨cs, user, environment, common, subjects⟩ := g
  obtain ⟨rest, rfl⟩ := hg.literals
  simp only [literals, List.mem_cons, List.not_mem_nil, or_false] at hn
  rcases hn with rfl | rfl | rfl <;> rfl

/-- Lowering stores the operands, then the node.  The literals that are there from the start are
found like any other node. -/
theorem lower_eq (hg : g.WellPlaced) (e : Expression) :
    lower scope e g = (e.operands.mapM (lower scope) >>= addNode scope e) g := by
  cases e with
  | null t =>
    show _ = (add scope Node.null >>= checkType scope t) g
    have hadd := add_literal hg scope (n := ⟨.nullLiteral, .null, .null⟩) (by simp [literals])
    rw [Steps.bind_run, hadd]
    rfl
  | boolean b t =>
    show _ = (add scope (Node.boolean b) >>= checkType scope t) g
    have hadd := add_literal hg scope
      (n := ⟨if b then .trueLiteral else .falseLiteral, .boolean b, .boolean⟩)
      (by cases b <;> simp [literals])
    rw [Steps.bind_run, hadd]
    rfl
  | number | string | root => rfl
  | property | unary | is =>
    simp only [operands, List.mapM_cons, List.mapM_nil, bind_assoc, pure_bind]
    rfl
  | arrayIndex | binary =>
    simp only [operands, List.mapM_cons, List.mapM_nil, bind_assoc, pure_bind]
    rfl

/-- Read back, the node of a condition is the condition without annotations. -/
theorem exists_trees (hops : List.Forall₂ (fun i o => (g.view scope).Spells i o.erase) is e.operands) :
    ∃ trees, (e.node is).tree trees = e.erase ∧
      ∀ o ∈ (e.node is).operands, (g.view scope).Spells o (trees o) := by
  cases e with
  | null | boolean | number | string | root =>
    exact ⟨fun _ => .null none, rfl, by simp [Expression.node, Node.operands]⟩
  | property e | unary _ e | is e =>
    obtain ⟨o, ho, rfl⟩ := forall₂_one_left_iff.mp hops.flip
    exact ⟨fun _ => e.erase, rfl, by simpa [Expression.node, Node.operands] using ho⟩
  | arrayIndex e e' | binary _ e e' =>
    obtain ⟨o, o', ho, ho', rfl⟩ := forall₂_two_left_iff.mp hops.flip
    obtain ⟨trees, htree, htree'⟩ := ho.pair ho'
    refine ⟨trees, by simp [Expression.node, Node.tree, erase, htree, htree'], ?_⟩
    simpa [Expression.node, Node.operands, htree, htree'] using ⟨ho, ho'⟩

/-! ## Hosts -/

/-- The graph takes conditions of the subject, which may refer to what is in the context. -/
structure Hosts (g : Graph) (scope : Nat) (c : ConditionContext) : Prop where
  wellPlaced : g.WellPlaced
  typed : g.Typed
  registered : ∃ s, g.subjects[scope]? = some s ∧ g.context s.concept = c

theorem Hosts.grows (h : g.Hosts scope c) (hg : g.Grows g') : g'.Hosts scope c := by
  obtain ⟨hwell, htyped⟩ := hg.stable _ stable_typed ⟨h.wellPlaced, h.typed⟩
  obtain ⟨s, hs, hcontext⟩ := h.registered
  obtain ⟨s', hs', hconcept, -⟩ := hg.extend.subjects hs
  exact ⟨hwell, htyped, s', hs', by rw [hg.extend.context_eq, hconcept, hcontext]⟩

theorem Hosts.keeps {α : Type} {m : GraphM α} (hm : Keeps m) {r : Except PolicyError α}
    (h : g.Hosts scope c) (hrun : m g = (r, g')) : g'.Hosts scope c := by
  have hg := h.grows (hm g)
  rwa [hrun] at hg

theorem Hosts.run (h : g.Hosts scope c) (calls : List Call) : (g.run calls).Hosts scope c :=
  h.grows (g.grows_run calls)

theorem hosts_run (cs : Concepts) (user : String) (environment : Option String)
    (calls : List Call) {s : SubjectTable}
    (hs : ((new cs user environment).run calls).subjects[scope]? = some s) :
    ((new cs user environment).run calls).Hosts scope ⟨cs, user, environment, s.concept⟩ where
  wellPlaced := wellPlaced_run cs user environment calls
  typed := typed_run cs user environment calls
  registered := ⟨s, hs, (grows_run _ calls).extend.context_eq s.concept⟩

theorem Hosts.typeOf (h : g.Hosts scope c) {t : Expression} (hi : (g.view scope).Spells i t) :
    ∃ type, g.typeOf scope i = .ok type ∧ check c t = .ok type := by
  obtain ⟨s, hs, rfl⟩ := h.registered
  refine Typed.typeOf h.typed (fun s' hs' => ?_) hi
  rw [Option.some.inj (hs'.symm.trans hs)]

theorem Hosts.nodeType (h : g.Hosts scope c) {n : Node} {trees : NodeIndex → Expression}
    (hops : ∀ o ∈ n.operands, (g.view scope).Spells o (trees o)) :
    g.nodeType scope n = check c (n.tree trees) := by
  obtain ⟨s, hs, rfl⟩ := h.registered
  refine Typed.nodeType_eq_check h.typed h.wellPlaced (fun s' hs' => ?_) (fun _ => ⟨s, hs⟩) hops
  rw [Option.some.inj (hs'.symm.trans hs)]

/-! ## Storing one node -/

/-- The annotation of a stored condition is compared with the type of its node. -/
theorem Hosts.checkType (h : g.Hosts scope c) (hi : (g.view scope).Spells i e.erase)
    {type : DataType} (htype : g.typeOf scope i = .ok type) :
    checkType scope e.declaredType? i g = ((agree e type).map fun _ => i, g) := by
  have htext := hi.render (h.wellPlaced.view scope)
  rw [text_erase] at htext
  rw [Graph.checkType.eq_def, agree]
  cases e.declaredType? with
  | none => rfl
  | some annotated =>
    simp only [htype, render, htext]
    split <;> rfl

/-- Once its operands are stored, a condition is refused as its tree is, or stored with the type of
its tree. -/
theorem Hosts.addNode_cases (h : g.Hosts scope c)
    (hops : List.Forall₂ (fun i o => (g.view scope).Spells i o.erase) is e.operands)
    (hfits : (addNode scope e is g).2.Fits scope) :
    (∃ err, check c e.erase = .error err ∧ add scope (e.node is) g = (.error err, g)) ∨
      ∃ type i g₁, check c e.erase = .ok type ∧ add scope (e.node is) g = (.ok i, g₁) ∧
        g₁.Hosts scope c ∧ (g₁.view scope).Spells i e.erase ∧ g₁.typeOf scope i = .ok type := by
  obtain ⟨trees, htree, hspells⟩ := exists_trees hops
  have hnode := h.nodeType hspells
  rw [htree] at hnode
  cases ht : check c e.erase with
  | error err =>
    rw [ht] at hnode
    exact .inl ⟨err, rfl, by rw [add, hnode]⟩
  | ok type =>
    rw [ht] at hnode
    have hadd : add scope (e.node is) g = (.ok (g.insert scope (e.node is) type).1,
        (g.insert scope (e.node is) type).2) := by rw [add, hnode]
    have hfits₁ : (g.insert scope (e.node is) type).2.Fits scope := by
      rw [addNode, Steps.bind_run, hadd] at hfits
      exact hfits.of_extends ((keeps_checkType _ _ _).extends rfl)
    have hi := add_spells h.wellPlaced hadd hfits₁ trees hspells
    rw [htree] at hi
    have hhosts := h.keeps (keeps_add _ _) hadd
    obtain ⟨type', htype', hcheck⟩ := hhosts.typeOf hi
    obtain rfl : type' = type := Except.ok.inj (hcheck.symm.trans ht)
    exact .inr ⟨type', _, _, rfl, hadd, hhosts, hi, htype'⟩

/-- The type of what was answered. -/
def answeredType (scope : Nat) (a : Except PolicyError NodeIndex × Graph) :
    Except PolicyError DataType :=
  a.1 >>= a.2.typeOf scope

theorem Hosts.addNode_check (h : g.Hosts scope c)
    (hops : List.Forall₂ (fun i o => (g.view scope).Spells i o.erase) is e.operands)
    (hchecks : ∀ o ∈ e.operands, ∃ t, check c o = .ok t)
    (hfits : (addNode scope e is g).2.Fits scope) :
    answeredType scope (addNode scope e is g) = check c e := by
  rw [check_eq_of_operands hchecks, addNode, Steps.bind_run]
  rcases h.addNode_cases hops hfits with
    ⟨err, hcheck, hadd⟩ | ⟨type, i, g₁, hcheck, hadd, hhosts, hi, htype⟩
  · rw [hadd, hcheck]
    rfl
  · rw [hadd, hcheck]
    show answeredType scope (Graph.checkType scope e.declaredType? i g₁) = agree e type
    rw [hhosts.checkType hi htype, answeredType]
    cases hagree : agree e type with
    | error err => rfl
    | ok type' =>
      obtain ⟨rfl, -⟩ := agree_eq_ok_iff.mp hagree
      exact htype

/-! ## Lowering -/

/-- Conditions that are lowered one after the other are all stored, or refused where checking them
is. -/
theorem Hosts.mapM_lower_cases {es : List Expression}
    (hes : ∀ e ∈ es, ∀ {g : Graph}, g.Hosts scope c → (lower scope e g).2.Fits scope →
      answeredType scope (lower scope e g) = check c e)
    (h : g.Hosts scope c) {r : Except PolicyError (List NodeIndex)}
    (hrun : es.mapM (lower scope) g = (r, g')) (hfits : g'.Fits scope) :
    (∃ is, r = .ok is ∧ List.Forall₂ (fun i e => (g'.view scope).Spells i e.erase) is es ∧
      ∀ e ∈ es, ∃ t, check c e = .ok t) ∨
    ∃ err, r = .error err ∧ es.mapM (check c) = .error err := by
  induction es generalizing g r with
  | nil =>
    obtain ⟨rfl, rfl⟩ := Prod.mk.inj hrun
    exact .inl ⟨[], rfl, .nil, by simp⟩
  | cons e rest ih =>
    obtain ⟨he, hrest⟩ := List.forall_mem_cons.mp hes
    rw [List.mapM_cons] at hrun ⊢
    rcases Steps.bind_cases (lower scope e) _ g with ⟨err, g₁, hlower, he'⟩ | ⟨i, g₁, hlower, he'⟩
    · obtain ⟨rfl, rfl⟩ := Prod.mk.inj (he'.symm.trans hrun)
      have hcheck := he h (by rwa [hlower])
      rw [hlower] at hcheck
      exact .inr ⟨err, rfl, by rw [← hcheck]; rfl⟩
    replace hrun := he'.symm.trans hrun
    have hkeeps := (keeps_mapM_lower scope rest).bind fun is => Keeps.pure (i :: is)
    have hext := hkeeps.extends hrun
    have hfits₁ := hfits.of_extends hext
    -- what was stored is in the graph with its type, so it checks
    have hi := lower_spells h.wellPlaced hlower hfits₁
    have hhosts := h.keeps (keeps_lower _ _) hlower
    obtain ⟨t, ht, -⟩ := hhosts.typeOf hi
    have hcheck := he h (by rwa [hlower])
    rw [hlower] at hcheck
    replace hcheck : check c e = .ok t := hcheck.symm.trans ht
    rw [hcheck]
    rcases Steps.bind_cases (rest.mapM (lower scope)) _ g₁ with
      ⟨err, g₂, hall, hall'⟩ | ⟨is, g₂, hall, hall'⟩
    · obtain ⟨rfl, rfl⟩ := Prod.mk.inj (hall'.symm.trans hrun)
      obtain ⟨_, herr, -⟩ | ⟨err', herr, hmap⟩ := ih hrest hhosts hall
      · exact nomatch herr
      · obtain rfl := Except.error.inj herr
        exact .inr ⟨err, rfl, by rw [hmap]; rfl⟩
    · obtain ⟨rfl, rfl⟩ := Prod.mk.inj (hall'.symm.trans hrun)
      obtain ⟨is', his, hspells, hchecks⟩ | ⟨_, herr, -⟩ := ih hrest hhosts hall
      · obtain rfl := Except.ok.inj his
        refine .inl ⟨i :: is, rfl, .cons (hi.mono (hext.view scope)) hspells, ?_⟩
        exact List.forall_mem_cons.mpr ⟨⟨t, hcheck⟩, hchecks⟩
      · exact nomatch herr

theorem Hosts.mapM_lower_ok {es : List Expression}
    (hes : ∀ e ∈ es, ∀ {g : Graph}, g.Hosts scope c → (lower scope e g).2.Fits scope →
      answeredType scope (lower scope e g) = check c e)
    (h : g.Hosts scope c) (hrun : es.mapM (lower scope) g = (.ok is, g')) (hfits : g'.Fits scope) :
    List.Forall₂ (fun i e => (g'.view scope).Spells i e.erase) is es ∧
      ∀ e ∈ es, ∃ t, check c e = .ok t := by
  rcases h.mapM_lower_cases hes hrun hfits with ⟨is', his, hspells, hchecks⟩ | ⟨_, herr, -⟩
  · obtain rfl := Except.ok.inj his
    exact ⟨hspells, hchecks⟩
  · exact nomatch herr

theorem Hosts.mapM_lower_error {es : List Expression} {err : PolicyError}
    (hes : ∀ e ∈ es, ∀ {g : Graph}, g.Hosts scope c → (lower scope e g).2.Fits scope →
      answeredType scope (lower scope e g) = check c e)
    (h : g.Hosts scope c) (hrun : es.mapM (lower scope) g = (.error err, g'))
    (hfits : g'.Fits scope) : es.mapM (check c) = .error err := by
  rcases h.mapM_lower_cases hes hrun hfits with ⟨_, herr, -⟩ | ⟨err', herr, hmap⟩
  · exact nomatch herr
  · rw [hmap, Except.error.inj herr]

/-- Lowering answers an index of the type that checking the tree gives, or its error. -/
theorem lower_check (h : g.Hosts scope c) (hfits : (lower scope e g).2.Fits scope) :
    answeredType scope (lower scope e g) = check c e := by
  induction e using induction_operands generalizing g with
  | h e ih =>
    rw [lower_eq h.wellPlaced] at hfits ⊢
    rcases Steps.bind_cases (e.operands.mapM (lower scope)) (addNode scope e) g with
      ⟨err, g₁, hops, hrun⟩ | ⟨is, g₁, hops, hrun⟩
    · rw [hrun] at hfits ⊢
      rw [check_eq, h.mapM_lower_error ih hops hfits]
      rfl
    · rw [hrun] at hfits ⊢
      have hfits₁ := hfits.of_extends ((keeps_addNode scope e is).extends rfl)
      obtain ⟨hspells, hchecks⟩ := h.mapM_lower_ok ih hops hfits₁
      exact (h.keeps (keeps_mapM_lower _ _) hops).addNode_check hspells hchecks hfits

/-- Exactly what checks is stored. -/
theorem Hosts.lower_ok_iff (h : g.Hosts scope c) (hfits : (lower scope e g).2.Fits scope) :
    (∃ i g', lower scope e g = (.ok i, g')) ↔ ∃ type, check c e = .ok type := by
  have hcheck := lower_check h hfits
  constructor
  · rintro ⟨i, g', hlower⟩
    have hi := lower_spells h.wellPlaced hlower (by rwa [hlower] at hfits)
    obtain ⟨type, htype, -⟩ := (h.keeps (keeps_lower _ _) hlower).typeOf hi
    rw [hlower] at hcheck
    exact ⟨type, hcheck.symm.trans htype⟩
  · rintro ⟨type, htype⟩
    rw [htype, answeredType] at hcheck
    obtain ⟨i, hi, -⟩ := Steps.check_bind_eq_ok.mp hcheck
    exact ⟨i, (lower scope e g).2, Prod.ext hi rfl⟩

/-! ## Annotations -/

/-- An annotation with the type of the node changes nothing. -/
theorem Hosts.addNode_annotated {decls : List ConceptDecl}
    (hcs : Concepts.build decls = .ok c.concepts) (h : g.Hosts scope c)
    (hops : List.Forall₂ (fun i o => (g.view scope).Spells i o.erase) is e.operands)
    (hfits : (addNode scope e is g).2.Fits scope) {t : Option DataType} (ht : Suits c e t) :
    (add scope (e.node is) >>= Graph.checkType scope t) g = addNode scope e is g := by
  rcases ht with rfl | ⟨hnone, type, rfl, htype⟩
  · rfl
  rw [addNode, hnone, Steps.bind_run, Steps.bind_run]
  rcases h.addNode_cases hops hfits with
    ⟨err, -, hadd⟩ | ⟨type', i, g₁, hcheck, hadd, -, -, htype'⟩
  · rw [hadd]
  · obtain rfl : type' = type :=
      Except.ok.inj (hcheck.symm.trans ((check_erase_eq_ok_iff hcs).mpr htype))
    simp only [hadd, Graph.checkType, htype', if_true]

theorem Hosts.mapM_lower_annotated {es es' : List Expression}
    (hes : ∀ e ∈ es, ∀ {g : Graph} {e' : Expression}, g.Hosts scope c →
      (lower scope e g).2.Fits scope → Annotates c e e' → lower scope e' g = lower scope e g)
    (h : g.Hosts scope c) (hfits : (es.mapM (lower scope) g).2.Fits scope)
    (hann : List.Forall₂ (Annotates c) es es') :
    es'.mapM (lower scope) g = es.mapM (lower scope) g := by
  induction hann generalizing g with
  | nil => rfl
  | @cons e e' rest rest' he _ ih =>
    obtain ⟨hlower, hrest⟩ := List.forall_mem_cons.mp hes
    rw [List.mapM_cons] at hfits
    rw [List.mapM_cons, List.mapM_cons]
    rcases Steps.bind_cases (lower scope e) _ g with ⟨err, g₁, hrun, hall⟩ | ⟨i, g₁, hrun, hall⟩
    · rw [hall] at hfits ⊢
      rw [Steps.bind_run, hlower h (by rwa [hrun]) he, hrun]
    · rw [hall] at hfits ⊢
      have hfits' : (rest.mapM (lower scope) g₁).2.Fits scope :=
        hfits.of_extends (Keeps.extends_bind (fun _ => .pure _) _ g₁)
      have hfits₁ := hfits'.of_extends (keeps_mapM_lower scope rest g₁).1
      have hhosts := h.keeps (keeps_lower _ _) hrun
      rw [Steps.bind_run, hlower h (by rwa [hrun]) he, hrun]
      show (rest'.mapM (lower scope) >>= fun is => pure (i :: is)) g₁ = _
      rw [Steps.bind_run, Steps.bind_run, ih hrest hhosts hfits']

/-- Annotations with the types of their nodes change neither the answer nor the graph. -/
theorem lower_annotated {decls : List ConceptDecl} (hcs : Concepts.build decls = .ok c.concepts)
    {e' : Expression} (h : g.Hosts scope c) (hfits : (lower scope e g).2.Fits scope)
    (he : Annotates c e e') : lower scope e' g = lower scope e g := by
  induction e using induction_operands generalizing g e' with
  | h e ih =>
    rw [lower_eq h.wellPlaced] at hfits ⊢
    rw [lower_eq h.wellPlaced]
    rcases Steps.bind_cases (e.operands.mapM (lower scope)) (addNode scope e) g with
      ⟨err, g₁, hops, hrun⟩ | ⟨is, g₁, hops, hrun⟩
    · rw [hrun] at hfits ⊢
      have hops' := h.mapM_lower_annotated ih (by rwa [hops]) he.operands
      rw [Steps.bind_run, hops', hops]
    · rw [hrun] at hfits ⊢
      have hfits₁ := hfits.of_extends ((keeps_addNode scope e is).extends rfl)
      have hops' := h.mapM_lower_annotated ih (by rwa [hops]) he.operands
      rw [Steps.bind_run, hops', hops]
      have hspells := (h.mapM_lower_ok (fun _ _ => lower_check) hops hfits₁).1
      show (add scope (e'.node is) >>= Graph.checkType scope e'.declaredType?) g₁ = _
      rw [he.node]
      exact (h.keeps (keeps_mapM_lower _ _) hops).addNode_annotated hcs hspells hfits he.suits

end Graph

end AccessPolicy
