import AccessPolicy.Proofs.Hierarchy.Walk
import Mathlib.Data.Fintype.Pigeonhole

/-!
# Forests — what is encoded, and what is answered

A position that no root leads to lies on a cycle or below one.  So a list is encoded exactly when it
declares a forest, and then every question about two names has the answer of the parent links.
-/

namespace AccessPolicy

namespace ParentLinks

variable {links : ParentLinks} {p : Nat}

/-- Parents are positions of the list themselves. -/
def Closed (links : ParentLinks) : Prop := ∀ p q, links.parent? p = some q → q < links.length

/-- The position lies on a cycle or below one. -/
def MeetsCycle (links : ParentLinks) (p : Nat) : Prop :=
  ∃ i k q, links.ancestor? i p = some q ∧ links.ancestor? (k + 1) q = some q

/-- A chain that ends in no root does not end. -/
theorem Closed.exists_ancestor? (hlinks : links.Closed) (hp : p < links.length)
    (hno : ¬ links.Grounded p) (k : Nat) :
    ∃ q, q < links.length ∧ links.ancestor? k p = some q := by
  induction k with
  | zero => exact ⟨p, hp, rfl⟩
  | succ k ih =>
    obtain ⟨q, hq, hk⟩ := ih
    cases hparent : links.parent? q with
    | none =>
      have hroot : links.IsRoot q := by
        rw [parent?, List.getElem?_eq_getElem hq] at hparent
        rw [IsRoot, List.getElem?_eq_getElem hq]
        exact congrArg some hparent
      exact absurd ⟨k, q, hk, hroot⟩ hno
    | some r =>
      refine ⟨r, hlinks q r hparent, ?_⟩
      rw [ancestor?_succ, hk, Option.bind_some, hparent]

/-- What no root leads to lies on a cycle or below one, and nothing else does. -/
theorem Closed.not_grounded_iff (hlinks : links.Closed) (hp : p < links.length) :
    ¬ links.Grounded p ↔ links.MeetsCycle p := by
  constructor
  · intro hno
    choose chain hlt hchain using hlinks.exists_ancestor? hp hno
    -- an endless chain through finitely many positions comes back to one of them
    obtain ⟨i, j, hne, he⟩ := Finite.exists_ne_map_eq_of_infinite
      fun k => (⟨chain k, hlt k⟩ : Fin links.length)
    have hsame : chain i = chain j := congrArg Fin.val he
    clear he
    wlog hij : i < j generalizing i j
    · exact this j i hne.symm hsame.symm (by omega)
    obtain ⟨k, rfl⟩ : ∃ k, j = i + (k + 1) := ⟨j - i - 1, by omega⟩
    refine ⟨i, k, chain i, hchain i, ?_⟩
    have hj := hchain (i + (k + 1))
    rw [ancestor?_add, hchain i, Option.bind_some] at hj
    rw [hj, hsame]
  · rintro ⟨i, k, q, hi, hk⟩ hground
    exact (hground.ancestor hi).no_cycle hk

theorem mem_positionsAll_forest_iff : p ∈ Tree.positionsAll links.forest ↔ links.Grounded p := by
  refine ⟨grounded_of_mem_forest, fun hground => ?_⟩
  obtain ⟨k, r, hk, hr⟩ := hground
  have hlt := Grounded.distance_lt_length ⟨k, r, hk, hr⟩ hk
  exact mem_positionsAll_forest.mpr ⟨k, Nat.le_of_lt hlt, r, hk, hr⟩

theorem lookup_numbering_eq_none_iff :
    (NestedSet.numbering links).lookup p = none ↔ ¬ links.Grounded p := by
  rw [NestedSet.lookup_numbering_eq_none, mem_positionsAll_forest_iff]

end ParentLinks

/-! ## Forests -/

namespace HierarchyNode

variable {nodes nodes' : List HierarchyNode}

/-- No name is declared twice, no parent is missing, and no parent leads back to its child. -/
structure IsForest (nodes : List HierarchyNode) : Prop where
  nodup : (ids nodes).Nodup
  declared : ∀ n ∈ nodes, ∀ p, n.parent = some p → p ∈ ids nodes
  acyclic : ∀ n ∈ nodes, ∀ p, n.parent = some p → ¬ Reaches nodes p n.id

theorem repeated?_eq_none_iff {seen : List String} : repeated? seen nodes = none ↔
    (ids nodes).Nodup ∧ ∀ id ∈ ids nodes, id ∉ seen := by
  constructor
  · exact repeated?_eq_none
  · rintro ⟨hnd, hseen⟩
    induction nodes generalizing seen with
    | nil => rfl
    | cons n rest ih =>
      simp only [ids, List.map_cons, List.nodup_cons, List.mem_cons, forall_eq_or_imp] at hnd hseen
      rw [repeated?, if_neg hseen.1]
      refine ih hnd.2 fun id hid hmem => ?_
      rcases List.mem_cons.mp hmem with rfl | hmem
      · exact hnd.1 hid
      · exact hseen.2 id hid hmem

theorem orphan?_eq_none_iff : orphan? nodes = none ↔
    ∀ n ∈ nodes, ∀ p, n.parent = some p → p ∈ ids nodes := by
  refine ⟨fun h n hn p hp => orphan?_eq_none h hn hp, fun h => ?_⟩
  apply List.findSome?_eq_none_iff.mpr
  intro n hn
  cases hp : n.parent with
  | none => rfl
  | some p => exact if_pos (h n hn p hp)

theorem closed_parents (nodes : List HierarchyNode) : (parents nodes).Closed := by
  intro i q hi
  obtain ⟨n, p, -, -, hq⟩ := parent?_parents_iff.mp hi
  have hq := (List.getElem?_eq_some_iff.mp (getElem?_of_idxOf? hq)).1
  rwa [ids, List.length_map, ← length_parents] at hq

/-- In a forest every position hangs from a root. -/
theorem IsForest.grounded (h : IsForest nodes) {i : Nat} (hi : i < nodes.length) :
    (parents nodes).Grounded i := by
  by_contra hno
  have hi' : i < (parents nodes).length := by rwa [length_parents]
  obtain ⟨-, k, q, -, hcycle⟩ := ((closed_parents nodes).not_grounded_iff hi').mp hno
  -- the first link of the cycle leads to a parent from which the rest leads back
  rw [ParentLinks.ancestor?, Option.bind_eq_some_iff] at hcycle
  obtain ⟨r, hr, hk⟩ := hcycle
  obtain ⟨n, p, hn, hp, hpr⟩ := parent?_parents_iff.mp hr
  have hback := (reaches_iff h.nodup (getElem?_of_idxOf? hpr)).mpr
    ⟨k, q, hk, getElem?_ids_of_node hn⟩
  exact h.acyclic n (List.mem_of_getElem? hn) p hp hback

theorem not_reaches_of_grounded (hnd : (ids nodes).Nodup)
    (hground : ∀ i < nodes.length, (parents nodes).Grounded i) {n : HierarchyNode} (hn : n ∈ nodes)
    {p : String} (hp : n.parent = some p) : ¬ Reaches nodes p n.id := by
  intro hback
  obtain ⟨i, hni⟩ := List.getElem?_of_mem hn
  obtain ⟨q, hqp⟩ := List.getElem?_of_mem hback.mem.1
  obtain ⟨k, j, hk, hj⟩ := (reaches_iff hnd hqp).mp hback
  obtain rfl := position_unique hnd (getElem?_ids_of_node hni) hj
  have hparent := parent?_parents_iff.mpr ⟨n, p, hni, hp, idxOf?_of_getElem? hnd hqp⟩
  refine (hground i (List.getElem?_eq_some_iff.mp hni).1).no_cycle (k := k) ?_
  rw [ParentLinks.ancestor?, hparent, Option.bind_some, hk]

/-! ## Names -/

/-- The name at a position. -/
def nameAt (nodes : List HierarchyNode) (i : Nat) : String := ((ids nodes)[i]?).getD ""

theorem getElem?_ids_eq_nameAt {i : Nat} (hi : i < nodes.length) :
    (ids nodes)[i]? = some (nameAt nodes i) := by
  rw [nameAt, getElem?_ids, List.getElem?_eq_getElem hi]
  rfl

theorem nameAt_of_getElem? {n : HierarchyNode} {i : Nat} (hn : nodes[i]? = some n) :
    nameAt nodes i = n.id := by
  rw [nameAt, getElem?_ids_of_node hn, Option.getD_some]

theorem nameAt_inj (hnd : (ids nodes).Nodup) {i j : Nat} (hi : i < nodes.length)
    (hj : j < nodes.length) (h : nameAt nodes i = nameAt nodes j) : i = j :=
  position_unique hnd (getElem?_ids_eq_nameAt hi) (h ▸ getElem?_ids_eq_nameAt hj)

/-! ## Order of declaration -/

theorem Reaches.mono (hsub : ∀ n ∈ nodes, n ∈ nodes') {a b : String} (h : Reaches nodes a b) :
    Reaches nodes' a b := by
  induction h with
  | self ha =>
    obtain ⟨n, hn, rfl⟩ := List.mem_map.mp ha
    exact .self (List.mem_map_of_mem (hsub n hn))
  | up hn hp _ ih => exact .up (hsub _ hn) hp ih

theorem reaches_perm (hperm : nodes.Perm nodes') {a b : String} :
    Reaches nodes a b ↔ Reaches nodes' a b :=
  ⟨.mono fun _ => hperm.mem_iff.mp, .mono fun _ => hperm.mem_iff.mpr⟩

theorem mem_ids_perm (hperm : nodes.Perm nodes') {a : String} : a ∈ ids nodes ↔ a ∈ ids nodes' :=
  (hperm.map _).mem_iff

/-- A child may be declared before its parent or after it. -/
theorem IsForest.perm (hperm : nodes.Perm nodes') (h : IsForest nodes) : IsForest nodes' where
  nodup := (hperm.map _).nodup_iff.mp h.nodup
  declared n hn p hp := (mem_ids_perm hperm).mp (h.declared n (hperm.mem_iff.mpr hn) p hp)
  acyclic n hn p hp hback :=
    h.acyclic n (hperm.mem_iff.mpr hn) p hp ((reaches_perm hperm).mpr hback)

end HierarchyNode

/-! ## Encoding -/

namespace NestedSet

open HierarchyNode

variable {nodes nodes' : List HierarchyNode} {s s' : NestedSet} {a b : String}

/-- Exactly the forests are encoded. -/
theorem exists_encode_eq_ok_iff : (∃ s, encode nodes = .ok s) ↔ IsForest nodes := by
  constructor
  · rintro ⟨s, h⟩
    obtain ⟨hnd, hdeclared, -⟩ := encode_eq_ok h
    exact ⟨hnd, hdeclared, fun n hn p hp =>
      not_reaches_of_grounded hnd (fun i hi => grounded_of_encode h hi) hn hp⟩
  · intro h
    have hrepeated : repeated? [] nodes = none :=
      repeated?_eq_none_iff.mpr ⟨h.nodup, fun _ _ => List.not_mem_nil⟩
    have horphan : orphan? nodes = none := orphan?_eq_none_iff.mpr h.declared
    have hall : (List.range nodes.length).find?
        (fun i => ((numbering (parents nodes)).lookup i).isNone) = none := by
      rw [List.find?_eq_none]
      intro i hi hnone
      have hground := h.grounded (List.mem_range.mp hi)
      exact ParentLinks.lookup_numbering_eq_none_iff.mp (Option.isNone_iff_eq_none.mp hnone) hground
    unfold encode
    rw [hrepeated, horphan]
    simp only [hall]
    exact ⟨_, rfl⟩

/-! ## Answers -/

theorem interval?_eq_none_iff (h : encode nodes = .ok s) :
    s.interval? a = none ↔ a ∉ HierarchyNode.ids nodes := by
  obtain ⟨-, -, hids, hlength, -⟩ := encode_eq_ok h
  rw [interval?, position?, hids]
  constructor
  · intro hnone ha
    obtain ⟨i, hi⟩ := Option.isSome_iff_exists.mp (List.isSome_idxOf?.mpr ha)
    -- a declared name has a position, and every position has an interval
    have hlt := (List.getElem?_eq_some_iff.mp (getElem?_of_idxOf? hi)).1
    rw [HierarchyNode.ids, List.length_map, ← hlength] at hlt
    rw [hi, Option.bind_some, List.getElem?_eq_getElem hlt] at hnone
    cases hnone
  · intro ha
    rw [List.idxOf?_eq_none_iff.mpr ha, Option.bind_none]

/-- Nothing is answered for a name that is not declared. -/
theorem isSubOf?_eq_none_iff (h : encode nodes = .ok s) :
    s.isSubOf? a b = none ↔ a ∉ HierarchyNode.ids nodes ∨ b ∉ HierarchyNode.ids nodes := by
  rw [← interval?_eq_none_iff h, ← interval?_eq_none_iff h, isSubOf?]
  cases s.interval? a <;> cases s.interval? b <;> simp

theorem isSubOf?_eq_false_iff (h : encode nodes = .ok s) (hsize : nodes.length ≤ 2 ^ 31) :
    s.isSubOf? a b = some false ↔
      a ∈ HierarchyNode.ids nodes ∧ b ∈ HierarchyNode.ids nodes ∧ ¬ Reaches nodes a b := by
  have hdeclared : (a ∈ HierarchyNode.ids nodes ∧ b ∈ HierarchyNode.ids nodes) ↔
      s.isSubOf? a b ≠ none := by
    rw [ne_eq, isSubOf?_eq_none_iff h, not_or, not_not, not_not]
  rw [← and_assoc, hdeclared, ← isSubOf?_eq_true_iff h hsize]
  cases s.isSubOf? a b with
  | none => simp
  | some answer => cases answer <;> simp

theorem isSubOfAt?_eq_none_iff (h : encode nodes = .ok s) {i j : Nat} :
    s.isSubOfAt? i j = none ↔ nodes.length ≤ i ∨ nodes.length ≤ j := by
  obtain ⟨-, -, -, hlength, -⟩ := encode_eq_ok h
  rw [← hlength, ← List.getElem?_eq_none_iff, ← List.getElem?_eq_none_iff, isSubOfAt?]
  cases s.intervals[i]? <;> cases s.intervals[j]? <;> simp

/-- Answers about names do not hang on the order in which they are declared. -/
theorem isSubOf?_perm (hperm : nodes.Perm nodes') (hsize : nodes.length ≤ 2 ^ 31)
    (h : encode nodes = .ok s) (h' : encode nodes' = .ok s') :
    s'.isSubOf? a b = s.isSubOf? a b := by
  have hsize' : nodes'.length ≤ 2 ^ 31 := by rwa [← hperm.length_eq]
  cases hanswer : s.isSubOf? a b with
  | none =>
    rw [isSubOf?_eq_none_iff h, mem_ids_perm hperm, mem_ids_perm hperm] at hanswer
    exact (isSubOf?_eq_none_iff h').mpr hanswer
  | some answer =>
    cases answer with
    | true =>
      rw [isSubOf?_eq_true_iff h hsize, reaches_perm hperm] at hanswer
      exact (isSubOf?_eq_true_iff h' hsize').mpr hanswer
    | false =>
      rw [isSubOf?_eq_false_iff h hsize, mem_ids_perm hperm, mem_ids_perm hperm,
        reaches_perm hperm] at hanswer
      exact (isSubOf?_eq_false_iff h' hsize').mpr hanswer

/-- The position of a declared name is its place in the list. -/
theorem isSubOfAt?_eq_isSubOf? (h : encode nodes = .ok s) {i j : Nat}
    (hi : (HierarchyNode.ids nodes)[i]? = some a) (hj : (HierarchyNode.ids nodes)[j]? = some b) :
    s.isSubOfAt? i j = s.isSubOf? a b :=
  (isSubOf?_eq_isSubOfAt? ((position?_eq_some_iff h).mpr hi)
    ((position?_eq_some_iff h).mpr hj)).symm

/-- Encoding decides ancestry.  A walk with a stack encodes what the trees encode.  Exactly the
lists without a repeated name, a missing parent or a cycle are encoded.  Asked about two names, the
encoding has no answer if one of them is not declared, and otherwise says whether parent links lead
from the first to the second; asked about two positions, it says the same of the names there and has
no answer beyond the list.  The order in which the nodes are declared does not matter. -/
theorem encode_decides_ancestry (hsize : nodes.length < 2 ^ 31) :
    encodeByWalk nodes = encode nodes ∧
    ((∃ s, encode nodes = .ok s) ↔
      (HierarchyNode.ids nodes).Nodup ∧
      (∀ n ∈ nodes, ∀ p, n.parent = some p → p ∈ HierarchyNode.ids nodes) ∧
      ∀ n ∈ nodes, ∀ p, n.parent = some p → ¬ Reaches nodes p n.id) ∧
    ∀ s, encode nodes = .ok s →
      (∀ a b,
        (s.isSubOf? a b = none ↔ a ∉ HierarchyNode.ids nodes ∨ b ∉ HierarchyNode.ids nodes) ∧
        (s.isSubOf? a b = some true ↔ Reaches nodes a b) ∧
        (s.isSubOf? a b = some false ↔
          a ∈ HierarchyNode.ids nodes ∧ b ∈ HierarchyNode.ids nodes ∧ ¬ Reaches nodes a b)) ∧
      (∀ i j, (s.isSubOfAt? i j = none ↔ nodes.length ≤ i ∨ nodes.length ≤ j) ∧
        ∀ a b, (HierarchyNode.ids nodes)[i]? = some a → (HierarchyNode.ids nodes)[j]? = some b →
          s.isSubOfAt? i j = s.isSubOf? a b) ∧
      ∀ nodes', nodes.Perm nodes' → ∃ s', encode nodes' = .ok s' ∧
        ∀ a b, s'.isSubOf? a b = s.isSubOf? a b := by
  have hle := Nat.le_of_lt hsize
  refine ⟨encodeByWalk_eq_encode nodes, exists_encode_eq_ok_iff.trans ?_, fun s h =>
    ⟨fun a b => ?_, fun i j => ?_, ?_⟩⟩
  · exact ⟨fun h => ⟨h.nodup, h.declared, h.acyclic⟩, fun ⟨hnd, hd, ha⟩ => ⟨hnd, hd, ha⟩⟩
  · exact ⟨isSubOf?_eq_none_iff h, isSubOf?_eq_true_iff h hle, isSubOf?_eq_false_iff h hle⟩
  · exact ⟨isSubOfAt?_eq_none_iff h, fun a b hi hj => isSubOfAt?_eq_isSubOf? h hi hj⟩
  · intro nodes' hperm
    have hforest := exists_encode_eq_ok_iff.mp ⟨s, h⟩
    obtain ⟨s', h'⟩ := exists_encode_eq_ok_iff.mpr (hforest.perm hperm)
    exact ⟨s', h', fun a b => isSubOf?_perm hperm hle h h'⟩

/-- Declared from the finest to the coarsest, editing lies below reading, and not the other way
round; listing has nothing to do with either. -/
theorem encode_decides_ancestry_reversed :
    let nodes : List HierarchyNode :=
      [⟨"edit", some "write"⟩, ⟨"write", some "read"⟩, ⟨"read", none⟩, ⟨"list", none⟩]
    nodes.length < 2 ^ 31 ∧ encodeByWalk nodes = .ok ⟨["edit", "write", "read", "list"],
        [⟨2, 3⟩, ⟨1, 4⟩, ⟨0, 5⟩, ⟨6, 7⟩]⟩ ∧
      Reaches nodes "edit" "read" ∧ ¬ Reaches nodes "read" "edit" ∧
      ∃ s, encode nodes.reverse = .ok s ∧ s.isSubOf? "edit" "list" = some false := by
  intro nodes
  have hsize : nodes.length < 2 ^ 31 := by decide
  have hencode : encode nodes = .ok ⟨["edit", "write", "read", "list"],
      [⟨2, 3⟩, ⟨1, 4⟩, ⟨0, 5⟩, ⟨6, 7⟩]⟩ := by rfl
  obtain ⟨hwalk, -, hanswers⟩ := encode_decides_ancestry hsize
  obtain ⟨hnames, -, hperm⟩ := hanswers _ hencode
  obtain ⟨s, hs, hsame⟩ := hperm nodes.reverse nodes.reverse_perm.symm
  obtain ⟨-, hbelow, -⟩ := hnames "edit" "read"
  obtain ⟨-, -, habove⟩ := hnames "read" "edit"
  refine ⟨hsize, hwalk.trans hencode, hbelow.mp (by decide), (habove.mp (by decide)).2.2, s, hs, ?_⟩
  rw [hsame]
  decide

end NestedSet

end AccessPolicy
