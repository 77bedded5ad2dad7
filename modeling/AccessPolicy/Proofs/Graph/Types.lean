import AccessPolicy.Proofs.Graph.Sharing
import AccessPolicy.Proofs.Typing

/-!
# Stored types — a node has the type of its tree

A graph is typed when every node is stored with the type of the tree that it stands for.  Whether a
node is stored anew or found, this stays so; hence lowering answers and refuses exactly what checking
the tree does, whatever the graph held before.
-/

namespace AccessPolicy

/-! ## Texts -/

/-- A node reads like its tree, if its operands do. -/
theorem Node.text_tree {f : NodeIndex → String} {trees : NodeIndex → Expression} {n : Node}
    (h : ∀ o ∈ n.operands, f o = (trees o).text) : n.render f = (n.tree trees).text := by
  cases n <;> simp_all [render, tree, operands, Expression.text, boolText]

namespace GraphView

variable {v : GraphView} {i : NodeIndex} {t : Expression}

/-- How many slots come before the one of an index. -/
def depth (v : GraphView) (i : NodeIndex) : Nat :=
  match i.slot with
  | .common p => p
  | .subject p => v.common.length + p

theorem WellPlaced.depth_operand (h : v.WellPlaced) {n : TypedNode} (hn : v.nodeAt? i = some n)
    {o : NodeIndex} (ho : o ∈ n.node.operands) : v.depth o < v.depth i := by
  obtain ⟨kind, p, hp, hget⟩ := nodeAt?_eq_some_iff.mp hn
  have hrefer := (h kind).operands hget o ho
  cases kind <;> cases hslot : o.slot <;>
    simp_all [depth, NodeTable.mayRefer, TableKind.slotAt]
  omega

theorem depth_lt {n : TypedNode} (hn : v.nodeAt? i = some n) :
    v.depth i < v.common.length + v.own.length + 1 := by
  obtain ⟨kind, p, hp, hget⟩ := nodeAt?_eq_some_iff.mp hn
  have hlt := (List.getElem?_eq_some_iff.mp hget).1
  cases kind <;> simp only [depth, hp, TableKind.slotAt, table] at hlt ⊢ <;> omega

theorem Spells.renderFrom (hspells : v.Spells i t) (h : v.WellPlaced) {fuel : Nat}
    (hfuel : v.depth i < fuel) : v.renderFrom fuel i = t.text := by
  induction hspells generalizing fuel with
  | @node i n trees hn _ ih =>
    obtain ⟨fuel, rfl⟩ := Nat.exists_eq_succ_of_ne_zero (Nat.ne_zero_of_lt hfuel)
    rw [GraphView.renderFrom, hn]
    apply Node.text_tree
    intro o ho
    -- operands come first, so less fuel does for them
    have hlt := h.depth_operand hn ho
    exact ih o ho (by omega)

/-- An index is shown as the tree that it stands for. -/
theorem Spells.render (hspells : v.Spells i t) (h : v.WellPlaced) : v.render i = t.text := by
  obtain ⟨n, hn⟩ := hspells.nodeAt?
  exact hspells.renderFrom h (depth_lt hn)

end GraphView

/-! ## Contexts -/

namespace Expression

/-- The type of what does not mention the subject does not depend on it. -/
theorem check_subject_congr {c : ConditionContext} {e : Expression}
    (he : e.mentionsSubject = false) (subject : String) :
    check { c with subject } e = check c e := by
  induction e with
  | null | boolean | number | string => rfl
  | root r => cases r <;> first | rfl | exact absurd he (by simp [mentionsSubject])
  | property _ _ _ ih | unary _ _ _ ih | is _ _ _ ih => rw [check, check, ih he]
  | arrayIndex _ _ _ ih ih' | binary _ _ _ _ ih ih' =>
    rw [mentionsSubject, Bool.or_eq_false_iff] at he
    rw [check, check, ih he.1, ih' he.2]

end Expression

namespace Graph

variable {g g' : Graph} {scope k : Nat} {concept : String} {i : NodeIndex}

open Expression

/-- What the conditions of a subject with this concept may refer to. -/
def context (g : Graph) (concept : String) : ConditionContext :=
  ⟨g.concepts, g.user, g.environment, concept⟩

/-- The subject has the concept, if it is registered. -/
def SubjectHas (g : Graph) (scope : Nat) (concept : String) : Prop :=
  ∀ s, g.subjects[scope]? = some s → s.concept = concept

/-- Every node has the type of its tree. -/
def Typed (g : Graph) : Prop :=
  ∀ {scope : Nat} {concept : String}, g.SubjectHas scope concept →
    ∀ {i : NodeIndex} {n : TypedNode} {t : Expression}, g.nodeAt? scope i = some n →
      (g.view scope).Spells i t → check (g.context concept) t = .ok n.type

theorem Extends.context_eq (h : g.Extends g') (concept : String) :
    g'.context concept = g.context concept := by
  rw [context, context, h.concepts, h.user, h.environment]

theorem SubjectHas.of_extends (h : g.Extends g') (hs : g'.SubjectHas scope concept) :
    g.SubjectHas scope concept := by
  intro s hget
  obtain ⟨s', hget', hconcept, -⟩ := h.subjects hget
  rw [← hconcept]
  exact hs s' hget'

theorem exists_subjectHas (g : Graph) (scope : Nat) : ∃ concept, g.SubjectHas scope concept := by
  cases hs : g.subjects[scope]? with
  | none => exact ⟨"", fun s hget => nomatch hs.symm.trans hget⟩
  | some s => exact ⟨s.concept, fun s' hget => by rw [Option.some.inj (hget.symm.trans hs)]⟩

/-! ## Checking a node -/

theorem report_eq {n : Node} {e : Expression} (htext : g.renderNode scope n = e.text) {α : Type}
    (x : Except TypeFault α) : g.report scope n x = blame e x := by
  cases x with
  | ok a => rfl
  | error fault => rw [report, blame, htext]

theorem blame_agree {e : Expression} (he : e.declaredType? = none) (x : Except TypeFault DataType) :
    (blame e x >>= agree e) = blame e x := by
  cases x with
  | error fault => rfl
  | ok type =>
    show agree e type = .ok type
    rw [agree, he]

/-- A node whose operands have the types of their trees is checked as its own tree is. -/
theorem nodeType_eq_check {n : Node} {trees : NodeIndex → Expression}
    (hs : g.SubjectHas scope concept)
    (hregistered : n = .root .subject → ∃ s, g.subjects[scope]? = some s)
    (htext : ∀ o ∈ n.operands, g.render scope o = (trees o).text)
    (htype : ∀ o ∈ n.operands, ∃ t, g.typeOf scope o = .ok t ∧
      check (g.context concept) (trees o) = .ok t) :
    g.nodeType scope n = check (g.context concept) (n.tree trees) := by
  have hreport {α : Type} (x : Except TypeFault α) :
      g.report scope n x = blame (n.tree trees) x := report_eq (Node.text_tree htext) x
  cases n with
  | null | boolean | number | string => rfl
  | root r =>
    cases r with
    | user => rfl
    | environment =>
      simp only [nodeType, Graph.rootType, Node.tree, check, Expression.rootType, context]
      cases g.environment <;> rfl
    | subject =>
      obtain ⟨s, hget⟩ := hregistered rfl
      rw [nodeType, Graph.rootType, hget]
      show Except.ok (DataType.concept s.concept) = Except.ok (DataType.concept concept)
      rw [hs s hget]
  | property receiver member =>
    obtain ⟨t, ht, hcheck⟩ := htype receiver (by simp [Node.operands])
    rw [nodeType, ht, Node.tree, check, hcheck]
    exact (hreport _).trans (blame_agree rfl _).symm
  | arrayItem receiver index =>
    obtain ⟨t, ht, hcheck⟩ := htype receiver (by simp [Node.operands])
    obtain ⟨t', ht', hcheck'⟩ := htype index (by simp [Node.operands])
    simp only [nodeType, ht, ht', Node.tree, check, hcheck, hcheck', hreport]
    rfl
  | binary op l r =>
    obtain ⟨t, ht, hcheck⟩ := htype l (by simp [Node.operands])
    obtain ⟨t', ht', hcheck'⟩ := htype r (by simp [Node.operands])
    rw [nodeType, ht, ht', Node.tree, check, hcheck, hcheck']
    exact (hreport _).trans (blame_agree rfl _).symm
  | unary op operand =>
    obtain ⟨t, ht, hcheck⟩ := htype operand (by simp [Node.operands])
    rw [nodeType, ht, Node.tree, check, hcheck]
    exact (hreport _).trans (blame_agree rfl _).symm
  | is tested operand =>
    obtain ⟨t, ht, hcheck⟩ := htype operand (by simp [Node.operands])
    simp only [nodeType, ht, Node.tree, check, hcheck, hreport]
    rfl

/-! ## Typed graphs -/

theorem typeOf_eq_ok_iff {type : DataType} :
    g.typeOf scope i = .ok type ↔ ∃ n, g.nodeAt? scope i = some n ∧ n.type = type := by
  rw [typeOf]
  cases g.nodeAt? scope i <;> simp

/-- In a typed graph an index has the type and the text of its tree. -/
theorem Typed.typeOf (h : g.Typed) (hs : g.SubjectHas scope concept) {t : Expression}
    (hi : (g.view scope).Spells i t) :
    ∃ type, g.typeOf scope i = .ok type ∧ check (g.context concept) t = .ok type := by
  obtain ⟨n, hn⟩ := hi.nodeAt?
  exact ⟨n.type, typeOf_eq_ok_iff.mpr ⟨n, hn, rfl⟩, h hs hn hi⟩

theorem Typed.nodeType_eq_check (h : g.Typed) (hg : g.WellPlaced)
    (hs : g.SubjectHas scope concept) {n : Node} {trees : NodeIndex → Expression}
    (hregistered : n = .root .subject → ∃ s, g.subjects[scope]? = some s)
    (hops : ∀ o ∈ n.operands, (g.view scope).Spells o (trees o)) :
    g.nodeType scope n = check (g.context concept) (n.tree trees) :=
  Graph.nodeType_eq_check hs hregistered (fun o ho => (hops o ho).render (hg.view scope))
    fun o ho => h.typeOf hs (hops o ho)

theorem typed_new (cs : Concepts) (user : String) (environment : Option String) :
    (new cs user environment).Typed := by
  intro scope concept _ i n t hn ht
  cases ht with
  | node trees hn' _ =>
    obtain rfl := Option.some.inj (hn.symm.trans hn')
    -- a new graph has no nodes but the literals
    obtain ⟨kind, p, -, hget⟩ := GraphView.nodeAt?_eq_some_iff.mp hn
    cases kind with
    | common =>
      have hmem : n ∈ literals := List.mem_of_getElem? hget
      simp only [literals, List.mem_cons, List.not_mem_nil, or_false] at hmem
      rcases hmem with rfl | rfl | rfl <;> rfl
    | subject => simp [GraphView.table, view, Graph.new] at hget

theorem Typed.addSubject (h : g.Typed) (concept : String) : (g.addSubject concept).Typed := by
  intro scope concept' hs i n t hn ht
  rw [nodeAt?, view_addSubject] at hn
  rw [view_addSubject] at ht
  exact h (hs.of_extends (extends_addSubject g concept)) hn ht

/-- A node that was checked is stored with the type of its tree, also where it was found. -/
theorem Typed.insert (h : g.Typed) (hg : g.WellPlaced) {n : Node} {type : DataType}
    (ht : g.nodeType scope n = .ok type) : (g.insert scope n type).2.Typed := by
  intro k concept hs i m t hm hi
  have hext := g.extends_insert scope n type
  have hg' := hg.insert ht
  rw [hext.context_eq]
  have hs₀ := hs.of_extends hext
  rcases nodeAt?_insert_cases ht hm with hold | ⟨⟨rfl, rfl⟩, hk⟩
  · exact h hs₀ hold (hi.of_extends (hg.view k) (hext.view k) hold)
  · cases hi with
    | @node _ _ trees hm' hops' =>
      obtain rfl := Option.some.inj (hm.symm.trans hm')
      -- the operands were there before, and read the same for the subject that was asked
      have hops (o : NodeIndex) (ho : o ∈ m.node.operands) :
          (g.view scope).Spells o (trees o) := by
        obtain ⟨n, hn⟩ := exists_operand_of_nodeType_eq_ok ht o ho
        refine GraphView.Spells.of_extends (hg.view scope) (hext.view scope) hn ?_
        by_cases hdepends : m.node.dependsOnSubject = true
        · exact hk hdepends ▸ hops' o ho
        · exact (hops' o ho).of_common (hg'.view k) rfl
            (Node.isSubject_operand (by simpa using hdepends) ho)
      have hregistered (hroot : m.node = .root .subject) : ∃ s, g.subjects[scope]? = some s :=
        registered_of_nodeType_eq_ok ht (by rw [hroot]; rfl)
      by_cases hdepends : m.node.dependsOnSubject = true
      · rw [hk hdepends] at hs₀
        rw [← h.nodeType_eq_check hg hs₀ hregistered hops, ht]
      · -- what does not depend on the subject has its type for every one
        obtain ⟨concept₀, hscope⟩ := g.exists_subjectHas scope
        have htree : (m.node.tree trees).mentionsSubject = false := by
          rw [Node.mentionsSubject_tree fun o ho => (hops o ho).mentionsSubject (hg.view scope)]
          simpa using hdepends
        rw [← ht, h.nodeType_eq_check hg hscope hregistered hops]
        exact check_subject_congr (c := g.context concept₀) htree concept

theorem stable_typed : Stable fun g => g.WellPlaced ∧ g.Typed where
  insert h ht := ⟨h.1.insert ht, Typed.insert h.2 h.1 ht⟩
  addSubject concept h := ⟨h.1.addSubject concept, Typed.addSubject h.2 concept⟩

/-- Whatever it is asked, a new graph is typed. -/
theorem typed_run (cs : Concepts) (user : String) (environment : Option String)
    (calls : List Call) : ((new cs user environment).run calls).Typed :=
  ((grows_run _ calls).stable _ stable_typed
    ⟨wellPlaced_new cs user environment, typed_new cs user environment⟩).2

end Graph

end AccessPolicy
