import AccessPolicy.Proofs.Graph.TypeChecking

/-!
# History — what a graph held before decides nothing

Conditions that are lowered in two graphs, of which the second stores all that the first does, find
the second still storing all that the first does.  So a graph that starts afresh runs out of indices
no sooner than one with a history, and both answer a condition with one type or one error.
-/

namespace AccessPolicy

open Expression

/-! ## Sizes -/

namespace GraphView

variable {v w : GraphView} {kind : TableKind} {t : Expression}

/-- A table is shorter than one with the same trees and one more. -/
theorem WellPlaced.length_table_lt (hv : v.WellPlaced) (hw : w.WellPlaced)
    (hvsize : (v.table kind).length ≤ 2 ^ 31) (hwsize : (w.table kind).length ≤ 2 ^ 31)
    (hsub : ∀ t, (∃ i, v.Spells i t) → ∃ i, w.Spells i t) (ht : ∃ i, w.Spells i t)
    (hnew : ¬∃ i, v.Spells i t) (hkind : t.mentionsSubject = decide (kind = .subject)) :
    (v.table kind).length < (w.table kind).length := by
  obtain ⟨trees, hlists, hnd, hmem⟩ := hv.exists_lists kind hvsize
  obtain ⟨trees', hlists', -, hmem'⟩ := hw.exists_lists kind hwsize
  have hnd' : (t :: trees).Nodup :=
    List.nodup_cons.mpr ⟨fun ht' => hnew ((hmem t).mp ht').1, hnd⟩
  have hsubset : t :: trees ⊆ trees' := by
    intro u hu
    rcases List.mem_cons.mp hu with rfl | hu
    · exact (hmem' u).mpr ⟨ht, hkind⟩
    · obtain ⟨hstored, hkind'⟩ := (hmem u).mp hu
      exact (hmem' u).mpr ⟨hsub u hstored, hkind'⟩
  have hle := (hnd'.subperm hsubset).length_le
  rw [List.length_cons, ← hlists.length_eq, ← hlists'.length_eq] at hle
  exact hle

/-- A node that is not in its table has a tree that nothing stands for. -/
theorem WellPlaced.not_spells (h : v.WellPlaced) {n : Node}
    (hkind : n.dependsOnSubject = decide (kind = .subject))
    (hn : n ∉ (v.table kind).map (·.node)) {trees : NodeIndex → Expression}
    (hops : ∀ o ∈ n.operands, v.Spells o (trees o)) : ¬∃ i, v.Spells i (n.tree trees) := by
  rintro ⟨i, hi⟩
  generalize htree : n.tree trees = t at hi
  cases hi with
  | @node _ m trees' hm hops' =>
    have hnode : n = m.node := Node.eq_of_tree_eq htree fun o ho o' ho' he =>
      (hops o ho).injective h (he ▸ hops' o' ho')
    obtain ⟨kind', p, hp, hget⟩ := nodeAt?_eq_some_iff.mp hm
    have hdepends := h.dependsOnSubject hm
    rw [← hnode, hkind, NodeIndex.isSubject_of_slot hp] at hdepends
    obtain rfl := TableKind.eq_of_decide_subject hdepends
    exact hn (List.mem_map.mpr ⟨m, List.mem_of_getElem? hget, hnode.symm⟩)

end GraphView

namespace Graph

variable {g₀ g g₀' g' : Graph} {scope₀ scope : Nat} {c : ConditionContext} {e : Expression}

theorem fits_iff : g.Fits scope ↔ ∀ kind, ((g.view scope).table kind).length ≤ 2 ^ 31 := by
  constructor
  · rintro ⟨hcommon, hown⟩ (_ | _)
    · exact hcommon
    · exact hown
  · exact fun h => ⟨h .common, h .subject⟩

/-- Storing a node leaves a table as long as it was, or puts a new node of its kind there. -/
theorem length_table_insert {n : Node} {type : DataType} (ht : g.nodeType scope n = .ok type)
    (kind : TableKind) :
    (((g.insert scope n type).2.view scope).table kind).length =
        ((g.view scope).table kind).length ∨
      n.dependsOnSubject = decide (kind = .subject) ∧
        n ∉ ((g.view scope).table kind).map (·.node) ∧
        (((g.insert scope n type).2.view scope).table kind).length =
          ((g.view scope).table kind).length + 1 := by
  have hplace (kind : TableKind) (table : NodeTable) :
      (table.place kind n type).2.length = table.length ∨
        n ∉ table.map (·.node) ∧ (table.place kind n type).2.length = table.length + 1 := by
    rcases NodeTable.place_cases kind n type table with ⟨_, -, -, he⟩ | ⟨hnew, he⟩
    · exact .inl (by rw [he])
    · exact .inr ⟨hnew, by rw [he, List.length_append, List.length_singleton]⟩
  by_cases hn : n.dependsOnSubject = true
  · obtain ⟨s, hs⟩ := registered_of_nodeType_eq_ok ht hn
    rw [insert_own hn hs]
    cases kind with
    | common => exact .inl rfl
    | subject =>
      have hget := List.getElem?_set_self (a := { s with nodes := (s.nodes.place .subject n type).2 })
        (List.getElem?_eq_some_iff.mp hs).1
      simp only [GraphView.table, view, hs, hget, Option.map_some, Option.getD_some]
      exact (hplace .subject s.nodes).imp_right fun h => ⟨hn, h⟩
  · rw [insert_common (by simpa using hn)]
    cases kind with
    | common => exact (hplace .common g.common).imp_right fun h => ⟨by simpa using hn, h⟩
    | subject => exact .inl rfl

/-! ## Graphs that store more -/

/-- Both graphs take conditions in the context, and the second one stores what the first does. -/
structure Inside (g₀ : Graph) (scope₀ : Nat) (g : Graph) (scope : Nat) (c : ConditionContext) :
    Prop where
  inner : g₀.Hosts scope₀ c
  outer : g.Hosts scope c
  fits : g₀.Fits scope₀
  stores : ∀ t, g₀.Stores scope₀ t → g.Stores scope t

/-- Storing the same node in both graphs. -/
theorem Inside.add (h : Inside g₀ scope₀ g scope c) {n₀ n : Node} {i₀ i : NodeIndex}
    (hadd₀ : add scope₀ n₀ g₀ = (.ok i₀, g₀')) (hadd : add scope n g = (.ok i, g'))
    (hfits : g'.Fits scope) {trees₀ trees : NodeIndex → Expression}
    (hops₀ : ∀ o ∈ n₀.operands, (g₀.view scope₀).Spells o (trees₀ o))
    (hops : ∀ o ∈ n.operands, (g.view scope).Spells o (trees o))
    (htree : n₀.tree trees₀ = n.tree trees) : Inside g₀' scope₀ g' scope c := by
  have hinner := h.inner.keeps (keeps_add _ _) hadd₀
  have houter := h.outer.keeps (keeps_add _ _) hadd
  have hext := (keeps_add _ _).extends hadd
  have hi := add_spells h.outer.wellPlaced hadd hfits trees hops
  have hsub (t : Expression) (ht : g₀.Stores scope₀ t) : g'.Stores scope t := (h.stores t ht).mono hext
  have hfits₀ : g₀'.Fits scope₀ := by
    obtain ⟨type, ht, hins⟩ := add_eq_ok hadd₀
    have hview := h.inner.wellPlaced.view scope₀
    refine fits_iff.mpr fun kind => ?_
    have hold := fits_iff.mp h.fits kind
    have hlen := length_table_insert ht kind
    simp only [hins] at hlen
    rcases hlen with hlen | ⟨hkind, hnew, hlen⟩
    · rwa [hlen]
    · -- the tree is new in the smaller table, so the larger one has room for it
      have hmentions : (n₀.tree trees₀).mentionsSubject = decide (kind = .subject) := by
        rw [Node.mentionsSubject_tree fun o ho => (hops₀ o ho).mentionsSubject hview, hkind]
      have hroom := fits_iff.mp hfits kind
      have hlt := hview.length_table_lt (houter.wellPlaced.view scope) hold hroom hsub
        (htree ▸ ⟨i, hi⟩) (hview.not_spells hkind hnew hops₀) hmentions
      omega
  refine ⟨hinner, houter, hfits₀, fun t ht => ?_⟩
  rcases (stores_add_iff h.inner.wellPlaced hadd₀ hfits₀ trees₀ hops₀).mp ht with ht | ⟨rfl, -⟩
  · exact hsub t ht
  · exact htree ▸ ⟨i, hi⟩

theorem snd_addNode {is : List NodeIndex} : (addNode scope e is g).2 = (add scope (e.node is) g).2 := by
  rcases Steps.bind_cases (add scope (e.node is)) (checkType scope e.declaredType?) g with
    ⟨err, g₁, hadd, hrun⟩ | ⟨i, g₁, hadd, hrun⟩
  · rw [addNode, hrun, hadd]
  · rw [addNode, hrun, hadd, snd_checkType]

theorem Inside.addNode (h : Inside g₀ scope₀ g scope c) {is₀ is : List NodeIndex}
    (hops₀ : List.Forall₂ (fun i o => (g₀.view scope₀).Spells i o.erase) is₀ e.operands)
    (hops : List.Forall₂ (fun i o => (g.view scope).Spells i o.erase) is e.operands)
    (hfits : (addNode scope e is g).2.Fits scope) :
    Inside (Graph.addNode scope₀ e is₀ g₀).2 scope₀ (Graph.addNode scope e is g).2 scope c := by
  obtain ⟨trees₀, htree₀, hspells₀⟩ := exists_trees hops₀
  obtain ⟨trees, htree, hspells⟩ := exists_trees hops
  have hnode₀ := h.inner.nodeType hspells₀
  have hnode := h.outer.nodeType hspells
  rw [htree₀] at hnode₀
  rw [htree] at hnode
  rw [snd_addNode] at hfits ⊢
  rw [snd_addNode]
  cases ht : check c e.erase with
  | error err =>
    rw [ht] at hnode₀ hnode
    simpa only [Graph.add, hnode₀, hnode] using h
  | ok type =>
    rw [ht] at hnode₀ hnode
    exact h.add (by rw [Graph.add, hnode₀]) (by rw [Graph.add, hnode])
      (by simpa only [Graph.add, hnode] using hfits) hspells₀ hspells (htree₀.trans htree.symm)

/-- Conditions that are lowered in both graphs one after the other are stored up to the same one. -/
theorem mapM_lower_ok_iff {es : List Expression} (h : g.Hosts scope c)
    (hfits : (es.mapM (lower scope) g).2.Fits scope) :
    (∃ is g', es.mapM (lower scope) g = (.ok is, g')) ↔ ∃ types, es.mapM (check c) = .ok types := by
  rcases h.mapM_lower_cases (fun _ _ => lower_check) (r := (es.mapM (lower scope) g).1) rfl hfits with
    ⟨is, his, -, hchecks⟩ | ⟨err, herr, hmap⟩
  · exact ⟨fun _ => Steps.exists_mapM_eq_ok hchecks, fun _ => ⟨is, _, Prod.ext his rfl⟩⟩
  · constructor
    · rintro ⟨is, g', hrun⟩
      rw [hrun] at herr
      exact nomatch herr
    · rintro ⟨types, htypes⟩
      exact nomatch hmap.symm.trans htypes

theorem Inside.mapM_lower {es : List Expression}
    (hes : ∀ e ∈ es, ∀ {g₀ g : Graph}, Inside g₀ scope₀ g scope c → (lower scope e g).2.Fits scope →
      Inside (lower scope₀ e g₀).2 scope₀ (lower scope e g).2 scope c)
    (h : Inside g₀ scope₀ g scope c) (hfits : (es.mapM (lower scope) g).2.Fits scope) :
    Inside (es.mapM (lower scope₀) g₀).2 scope₀ (es.mapM (lower scope) g).2 scope c := by
  induction es generalizing g₀ g with
  | nil => exact h
  | cons e rest ih =>
    obtain ⟨he, hrest⟩ := List.forall_mem_cons.mp hes
    rw [List.mapM_cons] at hfits ⊢
    rw [List.mapM_cons]
    have hkeeps (i : NodeIndex) := (keeps_mapM_lower scope rest).bind fun is => .pure (i :: is)
    have hfits₁ := hfits.of_extends (Keeps.extends_bind hkeeps (lower scope e) g)
    have h₁ := he h hfits₁
    refine Steps.bind_related (R := fun g₀ g => Inside g₀ scope₀ g scope c) ?_ h₁ ?_
    · rw [h.inner.lower_ok_iff h₁.fits, h.outer.lower_ok_iff hfits₁]
    · intro i₀ g₁₀ i g₁ hrun₀ hrun
      rw [hrun₀, hrun] at h₁
      rw [Steps.bind_run, hrun] at hfits
      have hfits₂ := hfits.of_extends (Keeps.extends_bind (fun _ => .pure _) _ g₁)
      have h₂ := ih hrest h₁ hfits₂
      refine Steps.bind_related (R := fun g₀ g => Inside g₀ scope₀ g scope c) ?_ h₂ ?_
      · rw [mapM_lower_ok_iff h₁.inner h₂.fits, mapM_lower_ok_iff h₁.outer hfits₂]
      · intro is₀ g₂₀ is g₂ hall₀ hall
        rwa [hall₀, hall] at h₂

theorem Inside.lower (h : Inside g₀ scope₀ g scope c) (hfits : (lower scope e g).2.Fits scope) :
    Inside (Graph.lower scope₀ e g₀).2 scope₀ (Graph.lower scope e g).2 scope c := by
  induction e using induction_operands generalizing g₀ g with
  | h e ih =>
    rw [lower_eq h.outer.wellPlaced] at hfits ⊢
    rw [lower_eq h.inner.wellPlaced]
    have hfits₁ := hfits.of_extends (Keeps.extends_bind (keeps_addNode scope e) _ g)
    have h₁ := h.mapM_lower ih hfits₁
    refine Steps.bind_related (R := fun g₀ g => Inside g₀ scope₀ g scope c) ?_ h₁ ?_
    · rw [mapM_lower_ok_iff h.inner h₁.fits, mapM_lower_ok_iff h.outer hfits₁]
    · intro is₀ g₁₀ is g₁ hrun₀ hrun
      rw [hrun₀, hrun] at h₁
      rw [hrun] at hfits₁
      rw [Steps.bind_run, hrun] at hfits
      have hops₀ := (h.inner.mapM_lower_ok (fun _ _ => lower_check) hrun₀ h₁.fits).1
      have hops := (h.outer.mapM_lower_ok (fun _ _ => lower_check) hrun hfits₁).1
      exact h₁.addNode hops₀ hops hfits

/-! ## Reachable graphs -/

/-- A graph that knows the subject and nothing else. -/
def fresh (c : ConditionContext) : Graph :=
  (new c.concepts c.user c.environment).addSubject c.subject

theorem hosts_fresh (c : ConditionContext) : (fresh c).Hosts 0 c := by
  have hs : ((new c.concepts c.user c.environment).run [.addSubject c.subject]).subjects[0]? =
    some { concept := c.subject } := rfl
  exact hosts_run c.concepts c.user c.environment [.addSubject c.subject] hs

/-- Every graph stores what a fresh one does. -/
theorem inside_fresh (h : g.Hosts scope c) : Inside (fresh c) 0 g scope c := by
  have hfits : (fresh c).Fits 0 :=
    ⟨show literals.length ≤ 2 ^ 31 by decide, Nat.zero_le _⟩
  refine ⟨hosts_fresh c, h, hfits, ?_⟩
  rintro t ⟨i, hi⟩
  cases hi with
  | node trees hn _ =>
    obtain ⟨kind, p, -, hget⟩ := GraphView.nodeAt?_eq_some_iff.mp hn
    cases kind with
    | common =>
      have hmem : _ ∈ literals := List.mem_of_getElem? hget
      simp only [literals, List.mem_cons, List.not_mem_nil, or_false] at hmem
      rcases hmem with rfl | rfl | rfl
      · exact ⟨_, h.wellPlaced.spells_null scope⟩
      · exact ⟨_, h.wellPlaced.spells_boolean scope true⟩
      · exact ⟨_, h.wellPlaced.spells_boolean scope false⟩
    | subject => simp [GraphView.table, view, fresh, Graph.new, addSubject] at hget

/-- Lowering fails with the error of checking the tree. -/
theorem fst_lower_eq_error (h : g.Hosts scope c) (hfits : (lower scope e g).2.Fits scope)
    {err : PolicyError} (hcheck : check c e = .error err) : (lower scope e g).1 = .error err := by
  have hlower := lower_check h hfits
  rw [hcheck, answeredType, Steps.check_bind_eq_error] at hlower
  rcases hlower with hlower | ⟨i, hi, htype⟩
  · exact hlower
  · obtain ⟨type, htype'⟩ :=
      (h.lower_ok_iff hfits).mp ⟨i, (lower scope e g).2, Prod.ext hi rfl⟩
    exact absurd (hcheck.symm.trans htype') (by simp)

/-- Whatever a graph was asked before, it takes exactly the conditions that have a type and are
annotated with nothing else, and stores them with this type.  Otherwise it reports the fault of the
first node in post-order that has one, as a fresh graph does.  Annotations with the types of their
nodes change neither the index nor the tables. -/
theorem lower_types {decls : List ConceptDecl} {cs : Concepts}
    (hcs : Concepts.build decls = .ok cs) {user : String} {environment : Option String}
    (calls : List Call) {s : SubjectTable}
    (hs : ((new cs user environment).run calls).subjects[scope]? = some s) (e : Expression)
    (hfits : (lower scope e ((new cs user environment).run calls)).2.Fits scope) :
    let g := (new cs user environment).run calls
    let c : ConditionContext := ⟨cs, user, environment, s.concept⟩
    ((∃ i g', lower scope e g = (.ok i, g')) ↔ WellTyped c e) ∧
    (∀ i g', lower scope e g = (.ok i, g') →
      ∃ n, g'.nodeAt? scope i = some n ∧ ∀ type, HasType c e type ↔ n.type = type) ∧
    (∀ err g', lower scope e g = (.error err, g') →
      (∃ before p after fault, e.postorder = before ++ p :: after ∧
        (∀ q ∈ before, WellTyped c q) ∧ ¬WellTyped c p ∧ check c p = .error err ∧
        err = .typeInference p.text fault) ∧
      (lower 0 e (fresh c)).1 = .error err) ∧
    ∀ e', Annotates c e e' → lower scope e' g = lower scope e g := by
  intro g c
  have hosts : g.Hosts scope c := hosts_run cs user environment calls hs
  have hcheck : answeredType scope (lower scope e g) = check c e := lower_check hosts hfits
  refine ⟨?_, ?_, ?_, fun e' he => lower_annotated hcs hosts hfits he⟩
  · rw [hosts.lower_ok_iff hfits, wellTyped_iff hcs]
  · intro i g' hlower
    rw [hlower] at hcheck hfits
    have hi := lower_spells hosts.wellPlaced hlower hfits
    obtain ⟨type, htype, hchecked⟩ := (hosts.keeps (keeps_lower _ _) hlower).typeOf hi
    obtain ⟨n, hn, rfl⟩ := typeOf_eq_ok_iff.mp htype
    refine ⟨n, hn, fun type => ?_⟩
    rw [← check_erase_eq_ok_iff hcs, hchecked, Except.ok.injEq]
  · intro err g' hlower
    rw [hlower] at hcheck
    have herror : check c e = .error err := hcheck.symm
    have hinside := (inside_fresh hosts).lower hfits
    refine ⟨?_, fst_lower_eq_error (hosts_fresh c) hinside.fits herror⟩
    obtain ⟨before, p, after, fault, hsplit, hbefore, hp, hfault⟩ := exists_first_fault herror
    refine ⟨before, p, after, fault, hsplit, fun q hq => (wellTyped_iff hcs).mpr (hbefore q hq),
      fun htyped => ?_, hp, hfault⟩
    obtain ⟨type, htype⟩ := (wellTyped_iff hcs).mp htyped
    exact nomatch hp.symm.trans htype

/-- The sum of an age and a truth value is refused, also after the age was stored. -/
theorem lower_types_sum :
    let cs : Concepts :=
      ⟨⟨["Person"], [⟨0, 1⟩]⟩, [{ name := "Person", members := [("age", .number)] }]⟩
    let c : ConditionContext := ⟨cs, "Person", none, "Person"⟩
    let age := Expression.subject.get "age"
    let sum := Expression.binary .add age (.boolean true none) none
    ¬WellTyped c sum ∧ (lower 0 sum (fresh c)).1 =
      .error (.typeInference "(subject.age + true)" (.operandTypes .add .number .boolean)) := by
  intro cs c age sum
  let g := (new cs "Person" none).run [.addSubject "Person", .lower 0 age]
  have hcs : Concepts.build cs.decls = .ok cs := by rfl
  have hs : g.subjects[0]? = some ⟨"Person", (g.view 0).own⟩ := by rfl
  have hlower : lower 0 sum g = (.error (.typeInference "(subject.age + true)"
    (.operandTypes .add .number .boolean)), (lower 0 sum g).2) := Prod.ext (by decide +kernel) rfl
  obtain ⟨hok, -, herror, -⟩ := lower_types hcs [.addSubject "Person", .lower 0 age] hs sum
    ⟨by decide +kernel, by decide +kernel⟩
  refine ⟨fun htyped => ?_, (herror _ _ hlower).2⟩
  obtain ⟨i, g', hrun⟩ := hok.mpr htyped
  exact nomatch hlower.symm.trans hrun

end Graph

end AccessPolicy
