import AccessPolicy.Proofs.Graph.Trees
import Mathlib.Data.List.Forall2

/-!
# Sharing — every condition is stored once

A graph that grows by lowering holds exactly the subexpressions of what was lowered, each of them
once: two conditions share an index when they are the same tree, and only then.
-/

namespace AccessPolicy

/-- The subexpressions of a condition, itself included. -/
def Expression.parts : Expression → List Expression
  | .null t => [.null t]
  | .boolean b t => [.boolean b t]
  | .number x t => [.number x t]
  | .string s t => [.string s t]
  | .root r t => [.root r t]
  | .property e member t => .property e member t :: e.parts
  | .arrayIndex e i t => .arrayIndex e i t :: (e.parts ++ i.parts)
  | .binary op l r t => .binary op l r t :: (l.parts ++ r.parts)
  | .unary op e t => .unary op e t :: e.parts
  | .is e concept t => .is e concept t :: e.parts

/-! ## Across subjects -/

namespace GraphView

variable {v w : GraphView} {i : NodeIndex} {t : Expression}

/-- What does not depend on the subject instance reads the same for every subject. -/
theorem Spells.of_common (h : v.WellPlaced) (hcommon : v.common = w.common)
    (hi : i.isSubject = false) (hspells : v.Spells i t) : w.Spells i t := by
  induction hspells with
  | node trees hn _ ih =>
    have hdepends := h.dependsOnSubject hn
    rw [hi] at hdepends
    obtain ⟨kind, p, hp, hget⟩ := nodeAt?_eq_some_iff.mp hn
    rw [NodeIndex.isSubject_of_slot hp] at hi
    obtain rfl : kind = .common := TableKind.eq_of_decide_subject hi
    refine .node trees (nodeAt?_eq_some_iff.mpr ⟨.common, p, hp, ?_⟩) fun o ho => ?_
    · rw [table, ← hcommon]
      exact hget
    · exact ih o ho (Node.isSubject_operand hdepends ho)

/-! ## Listing a table -/

/-- The trees that the nodes of a table stand for, in order. -/
def Lists (v : GraphView) (table : NodeTable) (trees : List Expression) : Prop :=
  List.Forall₂ (fun n t => v.Spells n.index t) table trees

/-- A table lists the trees of its kind that have an index, each of them once. -/
theorem WellPlaced.exists_lists (h : v.WellPlaced) (kind : TableKind)
    (hsize : (v.table kind).length ≤ 2 ^ 31) :
    ∃ trees, v.Lists (v.table kind) trees ∧ trees.Nodup ∧ ∀ t, t ∈ trees ↔
      (∃ i, v.Spells i t) ∧ t.mentionsSubject = decide (kind = .subject) := by
  -- the index of a node of the table leads to it
  have hindex {p : Nat} {n : TypedNode} (hget : (v.table kind)[p]? = some n) :
      n.index.slot = kind.slotAt p := by
    rw [(h kind).index hget]
    exact TableKind.slot_indexAt (Nat.lt_of_lt_of_le (List.getElem?_eq_some_iff.mp hget).1 hsize)
  have hnode {n : TypedNode} (hn : n ∈ v.table kind) : v.nodeAt? n.index = some n := by
    obtain ⟨p, hget⟩ := List.getElem?_of_mem hn
    exact nodeAt?_eq_some_iff.mpr ⟨kind, p, hindex hget, hget⟩
  have hspells : ∀ n ∈ v.table kind, ∃ t, v.Spells n.index t := fun n hn =>
    h.exists_spells (hnode hn)
  choose! tree htree using hspells
  refine ⟨(v.table kind).map tree, ?_, ?_, fun t => ?_⟩
  · rw [Lists, List.forall₂_map_right_iff, List.forall₂_same]
    exact htree
  · -- equal trees have one index, and that leads to one node
    refine (h kind).nodup.of_map.map_on fun n hn m hm he => ?_
    have hnm : n.index = m.index := (htree n hn).injective h (he ▸ htree m hm)
    have hm' := hnode hm
    rw [← hnm, hnode hn] at hm'
    exact Option.some.inj hm'
  · rw [List.mem_map]
    constructor
    · rintro ⟨n, hn, rfl⟩
      obtain ⟨p, hget⟩ := List.getElem?_of_mem hn
      refine ⟨⟨n.index, htree n hn⟩, ?_⟩
      rw [(htree n hn).mentionsSubject h, NodeIndex.isSubject_of_slot (hindex hget)]
    · rintro ⟨⟨i, hi⟩, hkind⟩
      obtain ⟨n, hn⟩ := hi.nodeAt?
      obtain ⟨kind', p, hp, hget⟩ := nodeAt?_eq_some_iff.mp hn
      rw [hi.mentionsSubject h, NodeIndex.isSubject_of_slot hp] at hkind
      obtain rfl : kind' = kind := TableKind.eq_of_decide_subject hkind
      have hi' : n.index = i := NodeIndex.slot_injective ((hindex hget).trans hp.symm)
      refine ⟨n, List.mem_of_getElem? hget, ?_⟩
      exact (htree n (List.mem_of_getElem? hget)).unique (hi' ▸ hi)

end GraphView

/-! ## What is stored -/

namespace Graph

variable {g g' : Graph} {scope k : Nat} {i : NodeIndex} {t : Expression}

/-- Some index stands for the tree in the conditions of the subject. -/
def Stores (g : Graph) (scope : Nat) (t : Expression) : Prop := ∃ i, (g.view scope).Spells i t

theorem Stores.mono (h : g.Extends g') (ht : g.Stores k t) : g'.Stores k t := by
  obtain ⟨i, hi⟩ := ht
  exact ⟨i, hi.mono (h.view k)⟩

/-- A node of the longer graph is an old one or the one that was stored. -/
theorem nodeAt?_insert_cases {n : Node} {type : DataType} {m : TypedNode}
    (ht : g.nodeType scope n = .ok type)
    (hm : ((g.insert scope n type).2.view k).nodeAt? i = some m) :
    (g.view k).nodeAt? i = some m ∨
      (m.node = n ∧ m.type = type) ∧ (n.dependsOnSubject = true → k = scope) := by
  have hplace {kind : TableKind} {table : NodeTable} {p : Nat}
      (hget : (table.place kind n type).2[p]? = some m) :
      table[p]? = some m ∨ m.node = n ∧ m.type = type := by
    rcases NodeTable.place_cases kind n type table with ⟨_, _, -, he⟩ | ⟨-, he⟩
    · rw [he] at hget
      exact .inl hget
    · rw [he, List.getElem?_append] at hget
      split at hget
      · exact .inl hget
      · have hmem := List.mem_of_getElem? hget
        rw [List.mem_singleton] at hmem
        exact .inr (by rw [hmem]; exact ⟨rfl, rfl⟩)
  obtain ⟨kind, p, hp, hget⟩ := GraphView.nodeAt?_eq_some_iff.mp hm
  rw [GraphView.nodeAt?_eq_some_iff]
  -- one table changes: that of `scope` or the common one
  by_cases hn : n.dependsOnSubject = true
  · obtain ⟨s, hs⟩ := registered_of_nodeType_eq_ok ht hn
    rw [insert_own hn hs] at hget
    cases kind with
    | common => exact .inl ⟨.common, p, hp, hget⟩
    | subject =>
      by_cases hk : scope = k
      · subst hk
        have hown : (s.nodes.place .subject n type).2[p]? = some m := by
          simpa [GraphView.table, view, (List.getElem?_eq_some_iff.mp hs).1] using hget
        refine (hplace hown).imp ?_ fun he => ⟨he, fun _ => rfl⟩
        intro hold
        exact ⟨.subject, p, hp, by simpa [GraphView.table, view, hs] using hold⟩
      · refine .inl ⟨.subject, p, hp, ?_⟩
        simpa [GraphView.table, view, List.getElem?_set_ne hk] using hget
  · rw [insert_common (by simpa using hn)] at hget
    cases kind with
    | common =>
      refine (hplace hget).imp ?_ fun he => ⟨he, fun h => absurd h hn⟩
      exact fun hold => ⟨.common, p, hp, hold⟩
    | subject => exact .inl ⟨.subject, p, hp, hget⟩

/-- Adding a node adds its tree and nothing else. -/
theorem stores_add_iff (hg : g.WellPlaced) {n : Node} (h : add scope n g = (.ok i, g'))
    (hfits : g'.Fits scope) (trees : NodeIndex → Expression)
    (hops : ∀ o ∈ n.operands, (g.view scope).Spells o (trees o)) :
    g'.Stores k t ↔
      g.Stores k t ∨ t = n.tree trees ∧ ((n.tree trees).mentionsSubject = true → k = scope) := by
  have hnew := add_spells hg h hfits trees hops
  have hg' := (keeps_add _ _).wellPlaced h hg
  have hext := (keeps_add _ _).extends h
  have hdepends : (n.tree trees).mentionsSubject = n.dependsOnSubject :=
    Node.mentionsSubject_tree fun o ho => (hops o ho).mentionsSubject (hg.view scope)
  -- operands read the same for every subject that can have the node
  have hread (hk : n.dependsOnSubject = true → k = scope) (o : NodeIndex) (ho : o ∈ n.operands) :
      (g'.view k).Spells o (trees o) := by
    apply GraphView.Spells.mono (hext.view k)
    by_cases hn : n.dependsOnSubject = true
    · rw [hk hn]
      exact hops o ho
    · have hcommon := Node.isSubject_operand (Bool.not_eq_true _ ▸ hn) ho
      exact (hops o ho).of_common (hg.view scope) rfl hcommon
  rw [hdepends]
  constructor
  · rintro ⟨j, hj⟩
    obtain ⟨m, hm⟩ := hj.nodeAt?
    obtain ⟨type, ht, hins⟩ := add_eq_ok h
    have hcases := nodeAt?_insert_cases (k := k) (i := j) (m := m) ht
    rw [hins] at hcases
    rcases hcases hm with hold | ⟨⟨he, -⟩, hk⟩
    · exact .inl ⟨j, hj.of_extends (hg.view k) (hext.view k) hold⟩
    · -- the added node is read through operands that have their trees already
      refine .inr ⟨?_, hk⟩
      cases hj with
      | node trees' hm' hops' =>
        obtain rfl := Option.some.inj (hm.symm.trans hm')
        rw [he] at hops' ⊢
        exact Node.tree_congr fun o ho => (hops' o ho).unique (hread hk o ho)
  · rintro (hold | ⟨rfl, hk⟩)
    · exact hold.mono hext
    · by_cases hn : n.dependsOnSubject = true
      · rw [hk hn]
        exact ⟨i, hnew⟩
      · -- a common node is seen from every subject
        refine ⟨i, hnew.of_common (hg'.view scope) rfl ?_⟩
        rw [← hnew.mentionsSubject (hg'.view scope), hdepends]
        simpa using hn

/-- Storing the parts below a node and then the node stores the parts of the node. -/
theorem stores_cons_iff (P : Prop) (root : Expression) (parts : List Expression) :
    (P ∨ t ∈ parts ∧ (t.mentionsSubject = true → k = scope)) ∨
        t = root ∧ (root.mentionsSubject = true → k = scope) ↔
      P ∨ t ∈ root :: parts ∧ (t.mentionsSubject = true → k = scope) := by
  rw [List.mem_cons, or_assoc]
  by_cases ht : t = root
  · subst ht
    tauto
  · tauto

/-- Lowering stores the parts of a condition and nothing else. -/
theorem stores_lower_iff {e : Expression} (hg : g.WellPlaced) (h : lower scope e g = (.ok i, g'))
    (hfits : g'.Fits scope) : g'.Stores k t ↔
      g.Stores k t ∨ t ∈ e.erase.parts ∧ (t.mentionsSubject = true → k = scope) := by
  induction e generalizing g g' i with
  | null =>
    -- these literals are seeds, so nothing is added for them
    obtain ⟨rfl, rfl⟩ := checkType_eq_ok h
    rw [or_iff_left_of_imp]
    rintro ⟨ht, -⟩
    rw [List.mem_singleton.mp ht]
    exact ⟨_, hg.spells_null k⟩
  | boolean b =>
    obtain ⟨rfl, rfl⟩ := checkType_eq_ok h
    rw [or_iff_left_of_imp]
    rintro ⟨ht, -⟩
    rw [List.mem_singleton.mp ht]
    exact ⟨_, hg.spells_boolean k b⟩
  | number | string | root =>
    -- a leaf is the only part of itself
    rw [stores_add_iff hg (lower_eq_ok₀ h) hfits (fun _ => .null none)
      (by simp [Node.operands])]
    refine Iff.trans ?_ (stores_cons_iff _ _ [])
    rw [iff_of_false List.not_mem_nil id, false_and, or_false]
    rfl
  | property _ _ _ ih | unary _ _ _ ih | is _ _ _ ih =>
    obtain ⟨o, g₁, hlower, hadd⟩ := lower_eq_ok₁ h
    have hfits₁ := hfits.of_extends ((keeps_add _ _).extends hadd)
    have ho := lower_spells hg hlower hfits₁
    have hg₁ := (keeps_lower _ _).wellPlaced hlower hg
    rw [stores_add_iff hg₁ hadd hfits (fun _ => _) (by simpa [Node.operands] using ho),
      ih hg hlower hfits₁]
    exact stores_cons_iff _ _ _
  | arrayIndex e e' _ ih ih' | binary _ e e' _ ih ih' =>
    obtain ⟨o, g₁, o', g₂, hlower, hlower', hadd⟩ := lower_eq_ok₂ h
    have hext := (keeps_lower _ _).extends hlower'
    have hfits₂ := hfits.of_extends ((keeps_add _ _).extends hadd)
    have hfits₁ := hfits₂.of_extends hext
    have hg₁ := (keeps_lower _ _).wellPlaced hlower hg
    have hg₂ := (keeps_lower _ _).wellPlaced hlower' hg₁
    have ho' := lower_spells hg₁ hlower' hfits₂
    have ho := (lower_spells hg hlower hfits₁).mono (hext.view scope)
    obtain ⟨trees, htree, htree'⟩ := ho.pair ho'
    rw [stores_add_iff hg₂ hadd hfits trees
      (by simpa [Node.operands, htree, htree'] using ⟨ho, ho'⟩), ih' hg₁ hlower' hfits₂,
      ih hg hlower hfits₁, or_assoc (a := g.Stores k t), ← or_and_right, ← List.mem_append]
    simp only [Node.tree, htree, htree']
    exact stores_cons_iff _ _ _

/-! ## Graphs grown by lowering -/

/-- A condition that was lowered for a subject, and the index that was answered. -/
structure Lowering where
  scope : Nat
  condition : Expression
  index : NodeIndex

/-- The graphs that registering subjects and lowering conditions leads to. -/
inductive Built (cs : Concepts) (user : String) (environment : Option String) :
    List Lowering → Graph → Prop
  | new : Built cs user environment [] (Graph.new cs user environment)
  | addSubject {lowered : List Lowering} {g : Graph} (concept : String) :
    Built cs user environment lowered g →
    Built cs user environment lowered (g.addSubject concept)
  | lower {lowered : List Lowering} {g g' : Graph} {scope : Nat} {e : Expression} {i : NodeIndex} :
    Built cs user environment lowered g → scope < g.subjects.length →
    Graph.lower scope e g = (.ok i, g') →
    Built cs user environment (⟨scope, e, i⟩ :: lowered) g'

/-- What every graph holds from the start. -/
def seeds : List Expression := [.null none, .boolean true none, .boolean false none]

theorem view_addSubject (g : Graph) (concept : String) (k : Nat) :
    (g.addSubject concept).view k = g.view k := by
  rw [view, view, addSubject, List.getElem?_append]
  split
  · rfl
  · rename_i hk
    rw [List.getElem?_eq_none (Nat.le_of_not_lt hk)]
    cases hlast : [({ concept } : SubjectTable)][k - g.subjects.length]? with
    | none => rfl
    | some s =>
      rw [List.mem_singleton.mp (List.mem_of_getElem? hlast)]
      rfl

theorem lists_literals {v : GraphView} (h : literals <+: v.common) :
    v.Lists literals seeds := by
  have hspells {p : Nat} (hp : p < 2 ^ 31) {n : TypedNode} (hn : literals[p]? = some n)
      (hops : n.node.operands = []) : v.Spells (.common p) (n.node.tree fun _ => .null none) := by
    refine .node _ (GraphView.nodeAt?_eq_some_iff.mpr
      ⟨.common, p, NodeIndex.slot_common hp, GraphView.getElem?_of_prefix h hn⟩) ?_
    simp [hops]
  exact .cons (hspells (p := 0) (by decide) rfl rfl) (.cons (hspells (p := 1) (by decide) rfl rfl)
    (.cons (hspells (p := 2) (by decide) rfl rfl) .nil))

/-- The trees of the common table begin with the seeds. -/
theorem WellPlaced.exists_eq_append (h : g.WellPlaced) {trees : List Expression}
    (hlists : (g.view k).Lists g.common trees) : ∃ rest, trees = seeds ++ rest := by
  obtain ⟨rest, hrest⟩ := h.literals
  have hfirst : g.common.take 3 = Graph.literals := by
    rw [← hrest]
    rfl
  have htake := List.forall₂_take 3 hlists
  rw [hfirst] at htake
  have hliterals : (g.view k).Lists Graph.literals seeds := lists_literals h.literals
  have hseeds : trees.take 3 = seeds :=
    List.right_unique_forall₂' (fun _ _ _ ht ht' => ht.unique ht') htake hliterals
  exact ⟨trees.drop 3, by rw [← hseeds, List.take_append_drop]⟩

theorem mem_right_iff_of_nodup_append {ts us : List Expression} (h : (ts ++ us).Nodup) :
    t ∈ us ↔ t ∉ ts ∧ t ∈ ts ++ us := by
  have hdisjoint := (List.nodup_append'.mp h).2.2
  rw [List.mem_append]
  constructor
  · exact fun ht => ⟨fun ht' => hdisjoint ht' ht, .inr ht⟩
  · rintro ⟨ht', ht⟩
    exact ht.resolve_left ht'

section

variable {cs : Concepts} {user : String} {environment : Option String} {lowered : List Lowering}

theorem Built.wellPlaced (h : Built cs user environment lowered g) : g.WellPlaced := by
  induction h with
  | new => exact wellPlaced_new cs user environment
  | addSubject concept _ ih => exact ih.addSubject concept
  | lower _ _ hlower ih => exact (keeps_lower _ _).wellPlaced hlower ih

/-- Every answered index still stands for its condition. -/
theorem Built.spells (h : Built cs user environment lowered g)
    (hfits : ∀ scope, g.Fits scope) {l : Lowering} (hl : l ∈ lowered) :
    (g.view l.scope).Spells l.index l.condition.erase := by
  induction h with
  | new => exact absurd hl List.not_mem_nil
  | addSubject concept _ ih =>
    rw [view_addSubject]
    exact ih (fun k => (hfits k).of_extends (extends_addSubject _ concept)) hl
  | lower hbuilt _ hlower ih =>
    rcases List.mem_cons.mp hl with rfl | hl
    · exact lower_spells hbuilt.wellPlaced hlower (hfits _)
    · have hext := (keeps_lower _ _).extends hlower
      exact (ih (fun k => (hfits k).of_extends hext) hl).mono (hext.view _)

/-- The seeds and the parts of what was lowered are stored, and nothing else. -/
theorem Built.stores_iff (h : Built cs user environment lowered g)
    (hfits : ∀ scope, g.Fits scope) : g.Stores k t ↔ t ∈ seeds ∨
      ∃ l ∈ lowered, t ∈ l.condition.erase.parts ∧ (t.mentionsSubject = true → k = l.scope) := by
  induction h with
  | new =>
    constructor
    · rintro ⟨i, hi⟩
      left
      cases hi with
      | node trees hn _ =>
        -- a new graph has no nodes but the literals
        obtain ⟨kind, p, -, hget⟩ := GraphView.nodeAt?_eq_some_iff.mp hn
        cases kind with
        | common =>
          have hmem : _ ∈ literals := List.mem_of_getElem? hget
          simp only [literals, List.mem_cons, List.not_mem_nil, or_false] at hmem
          rcases hmem with rfl | rfl | rfl <;> simp [Node.tree, seeds]
        | subject => simp [GraphView.table, view, Graph.new] at hget
    · rintro (ht | ⟨l, hl, -⟩)
      · have hg := wellPlaced_new cs user environment
        simp only [seeds, List.mem_cons, List.not_mem_nil, or_false] at ht
        rcases ht with rfl | rfl | rfl
        · exact ⟨_, hg.spells_null k⟩
        · exact ⟨_, hg.spells_boolean k true⟩
        · exact ⟨_, hg.spells_boolean k false⟩
      · exact absurd hl List.not_mem_nil
  | addSubject concept _ ih =>
    rw [Stores, view_addSubject]
    exact ih fun k => (hfits k).of_extends (extends_addSubject _ concept)
  | lower hbuilt _ hlower ih =>
    rw [stores_lower_iff hbuilt.wellPlaced hlower (hfits _),
      ih fun k => (hfits k).of_extends ((keeps_lower _ _).extends hlower)]
    rw [List.exists_mem_cons_iff, or_assoc]
    exact or_congr_right or_comm

theorem Built.spells_iff (h : Built cs user environment lowered g)
    (hfits : ∀ scope, g.Fits scope) {l : Lowering} (hl : l ∈ lowered) :
    (g.view l.scope).Spells l.index t ↔ t = l.condition.erase := by
  have hspells := h.spells hfits hl
  constructor
  · exact fun ht => ht.unique hspells
  · rintro rfl
    exact hspells

/-- Two conditions share an index exactly when they are the same tree. -/
theorem Built.index_eq_iff (h : Built cs user environment lowered g)
    (hfits : ∀ scope, g.Fits scope) {l l' : Lowering} (hl : l ∈ lowered) (hl' : l' ∈ lowered)
    (hscope : l.scope = l'.scope ∨
      l.condition.mentionsSubject = false ∧ l'.condition.mentionsSubject = false) :
    l.index = l'.index ↔ l.condition.erase = l'.condition.erase := by
  have hview := h.wellPlaced.view l'.scope
  have hspells' := h.spells hfits hl'
  have hspells : (g.view l'.scope).Spells l.index l.condition.erase := by
    rcases hscope with hscope | ⟨hcommon, -⟩
    · rw [← hscope]
      exact h.spells hfits hl
    · -- what mentions no subject is in the common table, which all of them see
      have hspells := h.spells hfits hl
      have hindex := hspells.mentionsSubject (h.wellPlaced.view l.scope)
      rw [Expression.mentionsSubject_erase, hcommon] at hindex
      exact hspells.of_common (h.wellPlaced.view l.scope) rfl hindex.symm
  constructor
  · intro hi
    rw [hi] at hspells
    exact hspells.unique hspells'
  · intro ht
    rw [ht] at hspells
    exact hspells.injective hview hspells'

theorem Built.lists_common (h : Built cs user environment lowered g)
    (hfits : ∀ scope, g.Fits scope) :
    ∃ trees, GraphView.Lists ⟨g.common, []⟩ g.common (seeds ++ trees) ∧
      (seeds ++ trees).Nodup ∧ ∀ t, t ∈ trees ↔
        t ∉ seeds ∧ t.mentionsSubject = false ∧ ∃ l ∈ lowered, t ∈ l.condition.erase.parts := by
  -- a subject that was never registered sees the common table alone
  let k := g.subjects.length
  have hview : g.view k = ⟨g.common, []⟩ := by simp [view, k]
  obtain ⟨all, hlists, hnd, hmem⟩ := (h.wellPlaced.view k).exists_lists .common (hfits k).common
  obtain ⟨trees, rfl⟩ := h.wellPlaced.exists_eq_append hlists
  refine ⟨trees, ?_, hnd, fun t => ?_⟩
  · rw [← hview]
    exact hlists
  · rw [mem_right_iff_of_nodup_append hnd, hmem, ← Stores, h.stores_iff hfits]
    constructor
    · rintro ⟨hseed, hstored, hcommon⟩
      obtain ⟨l, hl, ht, -⟩ := hstored.resolve_left hseed
      exact ⟨hseed, hcommon, l, hl, ht⟩
    · rintro ⟨hseed, hcommon, l, hl, ht⟩
      exact ⟨hseed, .inr ⟨l, hl, ht, fun hsubject => by simp [hcommon] at hsubject⟩, hcommon⟩

theorem Built.lists_own (h : Built cs user environment lowered g)
    (hfits : ∀ scope, g.Fits scope) {s : SubjectTable} (hs : g.subjects[k]? = some s) :
    ∃ trees, (g.view k).Lists s.nodes trees ∧ trees.Nodup ∧ ∀ t, t ∈ trees ↔
      t.mentionsSubject = true ∧ ∃ l ∈ lowered, l.scope = k ∧ t ∈ l.condition.erase.parts := by
  have hown : (g.view k).table .subject = s.nodes := by simp [GraphView.table, view, hs]
  obtain ⟨trees, hlists, hnd, hmem⟩ := (h.wellPlaced.view k).exists_lists .subject (hfits k).own
  rw [hown] at hlists
  refine ⟨trees, hlists, hnd, fun t => ?_⟩
  rw [hmem, ← Stores, h.stores_iff hfits]
  constructor
  · rintro ⟨hseed | ⟨l, hl, ht, hk⟩, hsubject⟩
    · -- no seed mentions the subject
      simp only [seeds, List.mem_cons, List.not_mem_nil, or_false] at hseed
      rcases hseed with rfl | rfl | rfl <;> exact absurd hsubject (by decide)
    · exact ⟨hsubject, l, hl, (hk hsubject).symm, ht⟩
  · rintro ⟨hsubject, l, hl, rfl, ht⟩
    exact ⟨.inr ⟨l, hl, ht, fun _ => rfl⟩, hsubject⟩

end

end Graph

end AccessPolicy
