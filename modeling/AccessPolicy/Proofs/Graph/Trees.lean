import AccessPolicy.Proofs.Graph.Building
import Mathlib.Tactic.Choose

/-!
# Trees — the conditions that stored nodes stand for

Read back operand by operand, an index stands for one tree without annotations.  In a well-placed
graph every slot has a tree, and no two slots have the same one.
-/

namespace AccessPolicy

/-! ## Nodes as trees -/

namespace Node

/-- The tree of a node, given the tree of each operand. -/
def tree (operand : NodeIndex → Expression) : Node → Expression
  | .null => .null none
  | .boolean b => .boolean b none
  | .number x => .number x none
  | .string s => .string s none
  | .root r => .root r none
  | .property receiver member => .property (operand receiver) member none
  | .arrayItem receiver index => .arrayIndex (operand receiver) (operand index) none
  | .binary op left right => .binary op (operand left) (operand right) none
  | .unary op inner => .unary op (operand inner) none
  | .is concept inner => .is (operand inner) concept none

theorem tree_congr {f g : NodeIndex → Expression} {n : Node} (h : ∀ o ∈ n.operands, f o = g o) :
    n.tree f = n.tree g := by
  cases n <;> simp_all [operands, tree]

/-- Operands that can be told apart by their trees make nodes that can be told apart by theirs. -/
theorem eq_of_tree_eq {f g : NodeIndex → Expression} {n m : Node} (h : n.tree f = m.tree g)
    (hops : ∀ o ∈ n.operands, ∀ o' ∈ m.operands, f o = g o' → o = o') : n = m := by
  cases n <;> cases m <;> simp_all [operands, tree]

theorem mentionsSubject_tree {f : NodeIndex → Expression} {n : Node}
    (h : ∀ o ∈ n.operands, (f o).mentionsSubject = o.isSubject) :
    (n.tree f).mentionsSubject = n.dependsOnSubject := by
  cases n <;> simp_all [operands, tree, dependsOnSubject, Expression.mentionsSubject]

end Node

namespace Expression

@[simp] theorem mentionsSubject_erase (e : Expression) :
    e.erase.mentionsSubject = e.mentionsSubject := by
  induction e <;> simp_all [erase, mentionsSubject]

end Expression

/-! ## Reading back -/

namespace GraphView

/-- Read back operand by operand, the index stands for the tree. -/
inductive Spells (v : GraphView) : NodeIndex → Expression → Prop
  | node {i : NodeIndex} {n : TypedNode} (trees : NodeIndex → Expression) :
    v.nodeAt? i = some n → (∀ o ∈ n.node.operands, Spells v o (trees o)) →
    Spells v i (n.node.tree trees)

variable {v w : GraphView} {i j : NodeIndex} {t t' : Expression}

theorem Spells.mono (hvw : v.Extends w) (h : v.Spells i t) : w.Spells i t := by
  induction h with
  | node trees hn _ ih => exact .node trees (hvw.nodeAt? hn) ih

theorem Spells.nodeAt? (h : v.Spells i t) : ∃ n, v.nodeAt? i = some n := by
  cases h with
  | node trees hn _ => exact ⟨_, hn⟩

/-- An index stands for one tree only. -/
theorem Spells.unique (h : v.Spells i t) (h' : v.Spells i t') : t = t' := by
  induction h generalizing t' with
  | node trees hn _ ih =>
    cases h' with
    | node trees' hn' hops' =>
      -- both readings start at the one node of the index
      obtain rfl := Option.some.inj (hn.symm.trans hn')
      exact Node.tree_congr fun o ho => ih o ho (hops' o ho)

/-- One function that gives both of two operands their trees. -/
theorem Spells.pair {l r : NodeIndex} {tl tr : Expression} (hl : v.Spells l tl)
    (hr : v.Spells r tr) : ∃ trees : NodeIndex → Expression, trees l = tl ∧ trees r = tr := by
  refine ⟨fun o => if o = l then tl else tr, if_pos rfl, ?_⟩
  show (if r = l then tl else tr) = tr
  split
  · rename_i h
    exact hl.unique (h ▸ hr)
  · rfl

end GraphView

/-! ## Well-placed views -/

namespace GraphView

def table (v : GraphView) : TableKind → NodeTable
  | .common => v.common
  | .subject => v.own

/-- Both tables are well placed. -/
def WellPlaced (v : GraphView) : Prop :=
  ∀ kind, NodeTable.WellPlaced kind v.common.length (v.table kind)

variable {v w : GraphView} {i j : NodeIndex} {t t' : Expression}

theorem nodeAt?_eq_some_iff {n : TypedNode} : v.nodeAt? i = some n ↔
    ∃ kind p, i.slot = TableKind.slotAt kind p ∧ (v.table kind)[p]? = some n := by
  unfold nodeAt?
  constructor
  · intro h
    split at h
    · exact ⟨.common, _, ‹_›, h⟩
    · exact ⟨.subject, _, ‹_›, h⟩
  · rintro ⟨kind, p, hp, h⟩
    cases kind <;> rw [hp] <;> exact h

theorem WellPlaced.dependsOnSubject (h : v.WellPlaced) {n : TypedNode}
    (hn : v.nodeAt? i = some n) : n.node.dependsOnSubject = i.isSubject := by
  obtain ⟨kind, p, hp, hget⟩ := nodeAt?_eq_some_iff.mp hn
  rw [NodeIndex.isSubject_of_slot hp]
  exact (h kind).dependsOnSubject n (List.mem_of_getElem? hget)

/-- Equal nodes are one node. -/
theorem WellPlaced.index_unique (h : v.WellPlaced) {n m : TypedNode} (hn : v.nodeAt? i = some n)
    (hm : v.nodeAt? j = some m) (hnm : n.node = m.node) : i = j := by
  have hkind : i.isSubject = j.isSubject := by
    rw [← h.dependsOnSubject hn, hnm, h.dependsOnSubject hm]
  obtain ⟨kind, p, hp, hget⟩ := nodeAt?_eq_some_iff.mp hn
  obtain ⟨kind', q, hq, hget'⟩ := nodeAt?_eq_some_iff.mp hm
  rw [NodeIndex.isSubject_of_slot hp, NodeIndex.isSubject_of_slot hq] at hkind
  obtain rfl : kind = kind' := TableKind.eq_of_decide_subject hkind
  have hpq : p = q := by
    have hlt : p < ((v.table kind).map (·.node)).length := by
      rw [List.length_map]
      exact (List.getElem?_eq_some_iff.mp hget).1
    apply (List.getElem?_inj hlt (h kind).nodup).mp
    rw [List.getElem?_map, List.getElem?_map, hget, hget', Option.map_some, Option.map_some, hnm]
  exact NodeIndex.slot_injective (by rw [hp, hq, hpq])

/-- No two indices stand for the same tree. -/
theorem Spells.injective (h : v.WellPlaced) (hi : v.Spells i t) (hj : v.Spells j t) : i = j := by
  -- operands with equal trees are one index, so equal trees come from equal nodes
  induction hi generalizing j with
  | node trees hn _ ih =>
    generalize htree : Node.tree trees _ = t at hj
    cases hj with
    | node trees' hm hops' =>
      refine h.index_unique hn hm (Node.eq_of_tree_eq htree fun o ho o' ho' he => ?_)
      apply ih o ho
      rw [he]
      exact hops' o' ho'

theorem Spells.mentionsSubject (h : v.WellPlaced) (hi : v.Spells i t) :
    t.mentionsSubject = i.isSubject := by
  induction hi with
  | node trees hn _ ih => rw [Node.mentionsSubject_tree ih, h.dependsOnSubject hn]

theorem exists_spells_of_nodeAt? {n : TypedNode} (hn : v.nodeAt? i = some n)
    (hops : ∀ o ∈ n.node.operands, ∃ t, v.Spells o t) : ∃ t, v.Spells i t := by
  choose! trees htrees using hops
  exact ⟨_, .node trees hn htrees⟩

/-- Every slot of the common table has a tree: operands come first. -/
theorem WellPlaced.exists_spells_common (h : v.WellPlaced) {p : Nat} (hp : p < v.common.length)
    (hi : i.slot = .common p) : ∃ t, v.Spells i t := by
  induction p using Nat.strongRecOn generalizing i with
  | ind p ih =>
    have hget : (v.table .common)[p]? = _ := List.getElem?_eq_getElem hp
    have hnode := nodeAt?_eq_some_iff.mpr ⟨.common, p, hi, hget⟩
    refine exists_spells_of_nodeAt? hnode fun o ho => ?_
    have hrefer := (h .common).operands hget o ho
    cases hslot : o.slot with
    | common q =>
      have hq : q < p := by simpa [NodeTable.mayRefer, hslot] using hrefer
      exact ih q hq (Nat.lt_trans hq hp) hslot
    | subject q => simp [NodeTable.mayRefer, hslot] at hrefer

theorem WellPlaced.exists_spells_own (h : v.WellPlaced) {p : Nat} (hp : p < v.own.length)
    (hi : i.slot = .subject p) : ∃ t, v.Spells i t := by
  induction p using Nat.strongRecOn generalizing i with
  | ind p ih =>
    have hget : (v.table .subject)[p]? = _ := List.getElem?_eq_getElem hp
    have hnode := nodeAt?_eq_some_iff.mpr ⟨.subject, p, hi, hget⟩
    refine exists_spells_of_nodeAt? hnode fun o ho => ?_
    -- an operand lies anywhere in the common table or earlier in this one
    have hrefer := (h .subject).operands hget o ho
    cases hslot : o.slot with
    | common q =>
      have hq : q < v.common.length := by simpa [NodeTable.mayRefer, hslot] using hrefer
      exact h.exists_spells_common hq hslot
    | subject q =>
      have hq : q < p := by simpa [NodeTable.mayRefer, hslot] using hrefer
      exact ih q hq (Nat.lt_trans hq hp) hslot

/-- Whatever has a node has a tree. -/
theorem WellPlaced.exists_spells (h : v.WellPlaced) {n : TypedNode} (hn : v.nodeAt? i = some n) :
    ∃ t, v.Spells i t := by
  obtain ⟨kind, p, hi, hget⟩ := nodeAt?_eq_some_iff.mp hn
  have hp := (List.getElem?_eq_some_iff.mp hget).1
  cases kind with
  | common => exact h.exists_spells_common hp hi
  | subject => exact h.exists_spells_own hp hi

/-- What an extension has a tree for was there already, unless it has no node before. -/
theorem Spells.of_extends (h : v.WellPlaced) (hvw : v.Extends w) {n : TypedNode}
    (hn : v.nodeAt? i = some n) (hi : w.Spells i t) : v.Spells i t := by
  obtain ⟨t', ht'⟩ := h.exists_spells hn
  rwa [hi.unique (ht'.mono hvw)]

end GraphView

/-! ## Lowering -/

namespace Graph

variable {g g' : Graph} {scope : Nat} {i : NodeIndex}

theorem WellPlaced.view (h : g.WellPlaced) (scope : Nat) : (g.view scope).WellPlaced
  | .common => h.common
  | .subject => h.own_view scope

theorem nodeAt?_literal (h : g.WellPlaced) {p : Nat} {n : TypedNode} (hp : p < 2 ^ 31)
    (hn : literals[p]? = some n) : (g.view scope).nodeAt? (.common p) = some n := by
  refine GraphView.nodeAt?_eq_some_iff.mpr ⟨.common, p, NodeIndex.slot_common hp, ?_⟩
  exact GraphView.getElem?_of_prefix h.literals hn

theorem WellPlaced.spells_null (h : g.WellPlaced) (scope : Nat) :
    (g.view scope).Spells .nullLiteral (.null none) :=
  .node (fun _ => .null none) (nodeAt?_literal h (p := 0) (by decide) rfl) (by simp [Node.operands])

theorem WellPlaced.spells_boolean (h : g.WellPlaced) (scope : Nat) (b : Bool) :
    (g.view scope).Spells (if b then .trueLiteral else .falseLiteral) (.boolean b none) := by
  cases b with
  | true =>
    exact .node (fun _ => .null none) (nodeAt?_literal h (p := 1) (by decide) rfl)
      (by simp [Node.operands])
  | false =>
    exact .node (fun _ => .null none) (nodeAt?_literal h (p := 2) (by decide) rfl)
      (by simp [Node.operands])

theorem add_eq_ok {n : Node} (h : add scope n g = (.ok i, g')) :
    ∃ type, g.nodeType scope n = .ok type ∧ g.insert scope n type = (i, g') := by
  unfold add at h
  split at h
  · exact absurd (congrArg Prod.fst h) (by simp)
  · rename_i type ht
    refine ⟨type, ht, ?_⟩
    generalize g.insert scope n type = r at h ⊢
    obtain ⟨hj, hg⟩ := Prod.mk.inj h
    exact Prod.ext (Except.ok.inj hj) hg

theorem checkType_eq_ok {type? : Option DataType} {j : NodeIndex}
    (h : checkType scope type? i g = (.ok j, g')) : j = i ∧ g' = g := by
  rw [checkType.eq_def] at h
  split at h
  · exact ⟨(Except.ok.inj (congrArg Prod.fst h)).symm, (congrArg Prod.snd h).symm⟩
  · split at h
    · exact absurd (congrArg Prod.fst h) (by simp)
    · split at h
      · exact ⟨(Except.ok.inj (congrArg Prod.fst h)).symm, (congrArg Prod.snd h).symm⟩
      · exact absurd (congrArg Prod.fst h) (by simp)

/-- A node that was added stands for its tree. -/
theorem add_spells (hg : g.WellPlaced) {n : Node} (h : add scope n g = (.ok i, g'))
    (hfits : g'.Fits scope) (trees : NodeIndex → Expression)
    (hops : ∀ o ∈ n.operands, (g.view scope).Spells o (trees o)) :
    (g'.view scope).Spells i (n.tree trees) := by
  obtain ⟨type, ht, hins⟩ := add_eq_ok h
  -- the operands keep their trees, and the node stands at the answered index
  have hext := g.extends_insert scope n type
  have hnode := hg.nodeAt?_insert ht (by rw [hins]; exact hfits)
  rw [hins] at hext hnode
  obtain ⟨m, hm, rfl⟩ := hnode
  exact .node trees hm fun o ho => (hops o ho).mono (hext.view scope)

/-! One lemma for every number of operands. -/

theorem lower_eq_ok₀ {n : Node} {type? : Option DataType}
    (h : (add scope n >>= checkType scope type?) g = (.ok i, g')) :
    add scope n g = (.ok i, g') := by
  obtain ⟨j, g₁, hadd, hcheck⟩ := Steps.bind_eq_ok.mp h
  obtain ⟨rfl, rfl⟩ := checkType_eq_ok hcheck
  exact hadd

theorem lower_eq_ok₁ {e : Expression} {n : NodeIndex → Node} {type? : Option DataType}
    (h : (lower scope e >>= fun o => add scope (n o) >>= checkType scope type?) g = (.ok i, g')) :
    ∃ o g₁, lower scope e g = (.ok o, g₁) ∧ add scope (n o) g₁ = (.ok i, g') := by
  obtain ⟨o, g₁, hlower, hadd⟩ := Steps.bind_eq_ok.mp h
  exact ⟨o, g₁, hlower, lower_eq_ok₀ hadd⟩

theorem lower_eq_ok₂ {e e' : Expression} {n : NodeIndex → NodeIndex → Node}
    {type? : Option DataType}
    (h : (lower scope e >>= fun o => lower scope e' >>= fun o' =>
      add scope (n o o') >>= checkType scope type?) g = (.ok i, g')) :
    ∃ o g₁ o' g₂, lower scope e g = (.ok o, g₁) ∧ lower scope e' g₁ = (.ok o', g₂) ∧
      add scope (n o o') g₂ = (.ok i, g') := by
  obtain ⟨o, g₁, hlower, hrest⟩ := Steps.bind_eq_ok.mp h
  obtain ⟨o', g₂, hlower', hadd⟩ := lower_eq_ok₁ hrest
  exact ⟨o, g₁, o', g₂, hlower, hlower', hadd⟩

/-- A stored condition stands for itself without its annotations. -/
theorem lower_spells {e : Expression} (hg : g.WellPlaced) (h : lower scope e g = (.ok i, g'))
    (hfits : g'.Fits scope) : (g'.view scope).Spells i e.erase := by
  induction e generalizing g g' i with
  | null =>
    obtain ⟨rfl, rfl⟩ := checkType_eq_ok h
    exact hg.spells_null scope
  | boolean b =>
    obtain ⟨rfl, rfl⟩ := checkType_eq_ok h
    exact hg.spells_boolean scope b
  | number | string | root =>
    exact add_spells hg (lower_eq_ok₀ h) hfits (fun _ => .null none) (by simp [Node.operands])
  | property _ _ _ ih | unary _ _ _ ih | is _ _ _ ih =>
    obtain ⟨o, g₁, hlower, hadd⟩ := lower_eq_ok₁ h
    have ho := ih hg hlower (hfits.of_extends ((keeps_add _ _).extends hadd))
    have hg₁ := (keeps_lower _ _).wellPlaced hlower hg
    exact add_spells hg₁ hadd hfits (fun _ => _) (by simpa [Node.operands] using ho)
  | arrayIndex e e' _ ih ih' | binary _ e e' _ ih ih' =>
    obtain ⟨o, g₁, o', g₂, hlower, hlower', hadd⟩ := lower_eq_ok₂ h
    have hg₁ := (keeps_lower _ _).wellPlaced hlower hg
    have hg₂ := (keeps_lower _ _).wellPlaced hlower' hg₁
    have hext := (keeps_lower _ _).extends hlower'
    have hfits₂ := hfits.of_extends ((keeps_add _ _).extends hadd)
    -- lowering the second operand leaves the tree of the first one alone
    have ho' := ih' hg₁ hlower' hfits₂
    have ho := (ih hg hlower (hfits₂.of_extends hext)).mono (hext.view scope)
    obtain ⟨trees, htree, htree'⟩ := ho.pair ho'
    have hspells := add_spells hg₂ hadd hfits trees
      (by simpa [Node.operands, htree, htree'] using ⟨ho, ho'⟩)
    simpa [Node.tree, Expression.erase, htree, htree'] using hspells

end Graph

end AccessPolicy
