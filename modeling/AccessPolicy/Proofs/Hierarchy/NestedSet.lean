import AccessPolicy.Hierarchy.Ancestry
import AccessPolicy.Hierarchy.NestedSet
import AccessPolicy.Proofs.Hierarchy.Links
import Mathlib.Algebra.Group.Nat.Defs
import Mathlib.Data.List.Perm.Subperm

/-!
# Nested sets — containment of intervals is ancestry

An encoded forest answers by its intervals what the parent links say: one name is found inside
another exactly when the links lead from it to the other.
-/

namespace AccessPolicy

namespace ParentLinks

variable {links : ParentLinks}

theorem Grounded.lt_length {p : Nat} (h : links.Grounded p) : p < links.length := by
  obtain ⟨k, r, hk, hr⟩ := h
  cases k with
  | zero =>
    obtain rfl : p = r := by simpa using hk
    exact (List.getElem?_eq_some_iff.mp hr).1
  | succ k =>
    rw [ancestor?, Option.bind_eq_some_iff] at hk
    obtain ⟨q, hq, -⟩ := hk
    exact (List.getElem?_eq_some_iff.mp (parent?_eq_some_iff.mp hq)).1

theorem grounded_of_mem_forest {p : Nat} (h : p ∈ Tree.positionsAll links.forest) :
    links.Grounded p := by
  obtain ⟨k, -, r, hk, hr⟩ := mem_positionsAll_forest.mp h
  exact ⟨k, r, hk, hr⟩

/-- What lies above a grounded position is grounded. -/
theorem Grounded.ancestor {k p q : Nat} (hp : links.Grounded p)
    (h : links.ancestor? k p = some q) : links.Grounded q := by
  obtain ⟨i, r, hi, hr⟩ := hp
  have hle := hr.height_le hi h
  obtain ⟨j, rfl⟩ : ∃ j, i = k + j := ⟨i - k, by omega⟩
  rw [ancestor?_add, h, Option.bind_some] at hi
  exact ⟨j, r, hi, hr⟩

/-- Distinct numbers below a bound are no more than the bound. -/
theorem length_le_of_nodup {ps : List Nat} {n : Nat} (hnd : ps.Nodup) (hlt : ∀ p ∈ ps, p < n) :
    ps.length ≤ n := by
  have hsub : ps ⊆ List.range n := fun p hp => List.mem_range.mpr (hlt p hp)
  simpa using (hnd.subperm hsub).length_le

/-- A chain without repetition is no longer than the list of positions. -/
theorem Grounded.distance_lt_length {k p q : Nat} (hp : links.Grounded p)
    (h : links.ancestor? k p = some q) : k < links.length := by
  have hsome : ∀ i ≤ k, ∃ a, links.ancestor? i p = some a := by
    intro i hi
    obtain ⟨j, rfl⟩ : ∃ j, k = i + j := ⟨k - i, by omega⟩
    rw [ancestor?_add, Option.bind_eq_some_iff] at h
    obtain ⟨a, ha, -⟩ := h
    exact ⟨a, ha⟩
  -- the positions passed on the way; two equal ones would be a cycle
  let chain := (List.range (k + 1)).map fun i => (links.ancestor? i p).getD 0
  have hnd : chain.Nodup := by
    refine List.Nodup.map_on ?_ List.nodup_range
    intro i hi j hj he
    obtain ⟨a, ha⟩ := hsome i (by rw [List.mem_range] at hi; omega)
    obtain ⟨b, hb⟩ := hsome j (by rw [List.mem_range] at hj; omega)
    obtain rfl : a = b := by simpa [ha, hb] using he
    exact (hp.ancestor ha).distance_unique ha hb
  have hlt : ∀ a ∈ chain, a < links.length := by
    intro a ha
    obtain ⟨i, hi, rfl⟩ := List.mem_map.mp ha
    obtain ⟨a, ha⟩ := hsome i (by rw [List.mem_range] at hi; omega)
    rw [ha, Option.getD_some]
    exact (hp.ancestor ha).lt_length
  have hlen := length_le_of_nodup hnd hlt
  simp only [chain, List.length_map, List.length_range] at hlen
  omega

theorem sizeAll_forest_le (links : ParentLinks) : Tree.sizeAll links.forest ≤ links.length := by
  rw [← Tree.length_positionsAll]
  exact length_le_of_nodup links.forest_nodup fun p hp => (grounded_of_mem_forest hp).lt_length

end ParentLinks

namespace HierarchyNode

variable {nodes : List HierarchyNode}

theorem repeated?_eq_none {seen : List String} (h : repeated? seen nodes = none) :
    (ids nodes).Nodup ∧ ∀ id ∈ ids nodes, id ∉ seen := by
  induction nodes generalizing seen with
  | nil => simp [ids]
  | cons n rest ih =>
    rw [repeated?] at h
    split at h
    · exact absurd h (by simp)
    · rename_i hn
      obtain ⟨hnd, hseen⟩ := ih h
      simp only [ids, List.map_cons, List.nodup_cons, List.mem_cons,
        forall_eq_or_imp] at hnd hseen ⊢
      refine ⟨⟨fun hmem => (hseen _ hmem) (.inl rfl), hnd⟩, hn, ?_⟩
      exact fun id hid hmem => hseen id hid (.inr hmem)

theorem orphan?_eq_none (h : orphan? nodes = none) {n : HierarchyNode} (hn : n ∈ nodes)
    {p : String} (hp : n.parent = some p) : p ∈ ids nodes := by
  have h' := List.findSome?_eq_none_iff.mp h n hn
  simpa [hp] using h'

theorem getElem?_parents (i : Nat) :
    (parents nodes)[i]? = nodes[i]?.map fun n => n.parent.bind fun p => (ids nodes).idxOf? p := by
  rw [parents, List.getElem?_map]

theorem getElem?_ids (i : Nat) : (ids nodes)[i]? = nodes[i]?.map (·.id) := by
  rw [ids, List.getElem?_map]

theorem getElem?_ids_of_node {n : HierarchyNode} {i : Nat} (hn : nodes[i]? = some n) :
    (ids nodes)[i]? = some n.id := by
  rw [getElem?_ids, hn, Option.map_some]

theorem length_parents : (parents nodes).length = nodes.length := by
  rw [parents, List.length_map]

/-- The parent of a position is the position of the parent's name. -/
theorem parent?_parents_iff {i q : Nat} : (parents nodes).parent? i = some q ↔
    ∃ n p, nodes[i]? = some n ∧ n.parent = some p ∧ (ids nodes).idxOf? p = some q := by
  rw [ParentLinks.parent?_eq_some_iff, getElem?_parents, Option.map_eq_some_iff]
  refine exists_congr fun n => ?_
  rw [Option.bind_eq_some_iff, exists_and_left]

theorem getElem?_of_idxOf? {a : String} {i : Nat} (h : (ids nodes).idxOf? a = some i) :
    (ids nodes)[i]? = some a := by
  rw [List.idxOf?, List.findIdx?_eq_some_iff_getElem] at h
  obtain ⟨hi, ha, -⟩ := h
  rw [List.getElem?_eq_getElem hi, eq_of_beq ha]

theorem idxOf?_of_getElem? (hnd : (ids nodes).Nodup) {a : String} {i : Nat}
    (h : (ids nodes)[i]? = some a) : (ids nodes).idxOf? a = some i := by
  obtain ⟨hi, rfl⟩ := List.getElem?_eq_some_iff.mp h
  rw [List.idxOf?, List.findIdx?_eq_some_iff_getElem]
  refine ⟨hi, beq_self_eq_true _, fun j hj => ?_⟩
  rw [beq_iff_eq, hnd.getElem_inj_iff]
  omega

/-- A name stands at one position. -/
theorem position_unique (hnd : (ids nodes).Nodup) {a : String} {i j : Nat}
    (hi : (ids nodes)[i]? = some a) (hj : (ids nodes)[j]? = some a) : i = j :=
  Option.some.inj ((idxOf?_of_getElem? hnd hi).symm.trans (idxOf?_of_getElem? hnd hj))

/-- Looking for a name finds the node at its position. -/
theorem find?_of_getElem? (hnd : (ids nodes).Nodup) {a : String} {i : Nat}
    (hi : (ids nodes)[i]? = some a) :
    ∃ n, nodes.find? (·.id = a) = some n ∧ nodes[i]? = some n := by
  rw [getElem?_ids, Option.map_eq_some_iff] at hi
  obtain ⟨n, hn, rfl⟩ := hi
  refine ⟨n, ?_, hn⟩
  rw [List.find?_eq_some_iff_getElem]
  obtain ⟨hlt, rfl⟩ := List.getElem?_eq_some_iff.mp hn
  refine ⟨by simp, i, hlt, rfl, fun q hq => ?_⟩
  -- an earlier node with the name would repeat it
  have hne := List.pairwise_iff_getElem.mp hnd q i (by simp [ids]; omega)
    (by simpa [ids] using hlt) hq
  simp only [ids, List.getElem_map] at hne
  simpa only [Bool.not_eq_true', decide_eq_false_iff_not] using hne

theorem Reaches.mem {a b : String} (h : Reaches nodes a b) : a ∈ ids nodes ∧ b ∈ ids nodes := by
  induction h with
  | self ha => exact ⟨ha, ha⟩
  | up hn _ _ ih => exact ⟨List.mem_map_of_mem hn, ih.2⟩

/-- Names reach one another as their positions do. -/
theorem reaches_iff (hnd : (ids nodes).Nodup) {a b : String} {i : Nat}
    (hi : (ids nodes)[i]? = some a) :
    Reaches nodes a b ↔
      ∃ k j, (parents nodes).ancestor? k i = some j ∧ (ids nodes)[j]? = some b := by
  constructor
  · intro h
    -- the lowest link of names is the lowest link of positions
    induction h generalizing i with
    | self => exact ⟨0, i, rfl, hi⟩
    | @up n p b hn hp hpb ih =>
      obtain ⟨q, hqp⟩ := List.getElem?_of_mem hpb.mem.1
      obtain ⟨k, j, hk, hj⟩ := ih hqp
      obtain ⟨i', hni⟩ := List.getElem?_of_mem hn
      obtain rfl : i = i' := position_unique hnd hi (getElem?_ids_of_node hni)
      refine ⟨k + 1, j, ?_, hj⟩
      have hparent : (parents nodes).parent? i = some q :=
        parent?_parents_iff.mpr ⟨n, p, hni, hp, idxOf?_of_getElem? hnd hqp⟩
      rw [ParentLinks.ancestor?, hparent, Option.bind_some, hk]
  · rintro ⟨k, j, hk, hj⟩
    induction k generalizing i a with
    | zero =>
      obtain rfl : i = j := by simpa using hk
      obtain rfl : a = b := Option.some.inj (hi.symm.trans hj)
      exact .self (List.mem_of_getElem? hi)
    | succ k ih =>
      rw [ParentLinks.ancestor?, Option.bind_eq_some_iff] at hk
      obtain ⟨q, hq, hk⟩ := hk
      obtain ⟨n, p, hn, hp, hq⟩ := parent?_parents_iff.mp hq
      obtain rfl : a = n.id := by
        rw [getElem?_ids, hn] at hi
        exact (Option.some.inj hi).symm
      exact .up (List.mem_of_getElem? hn) hp (ih (getElem?_of_idxOf? hq) hk)

end HierarchyNode

namespace NestedSet

open HierarchyNode

variable {nodes : List HierarchyNode} {s : NestedSet}

/-- What a successful encoding has checked and computed. -/
theorem encode_eq_ok (h : encode nodes = .ok s) :
    (HierarchyNode.ids nodes).Nodup ∧
      (∀ n ∈ nodes, ∀ p, n.parent = some p → p ∈ HierarchyNode.ids nodes) ∧
      s.ids = HierarchyNode.ids nodes ∧ s.intervals.length = nodes.length ∧
      ∀ i < nodes.length, ∃ l r, (i, l, r) ∈ Tree.numberAll 0 (parents nodes).forest ∧
        s.intervals[i]? = some ⟨UInt32.ofNat l, UInt32.ofNat r⟩ := by
  unfold encode at h
  split at h
  · exact absurd h (by simp)
  rename_i hrep
  split at h
  · exact absurd h (by simp)
  rename_i horphan
  simp only at h
  split at h
  · exact absurd h (by simp)
  rename_i hfind
  obtain rfl : _ = s := Except.ok.inj h
  have hall : ∀ i < nodes.length, ∃ l r,
      (numbering (parents nodes)).lookup i = some (l, r) := by
    intro i hi
    have hsome := List.find?_eq_none.mp hfind i (List.mem_range.mpr hi)
    cases hl : (numbering (parents nodes)).lookup i with
    | none => simp [hl] at hsome
    | some lr => exact ⟨lr.1, lr.2, rfl⟩
  -- every position has an interval, so picking the intervals drops none of them
  have hintervals : (List.range nodes.length).filterMap (intervalAt (numbering (parents nodes))) =
      (List.range nodes.length).map fun i =>
        ((intervalAt (numbering (parents nodes)) i).getD default) := by
    rw [← List.filterMap_eq_map]
    refine List.filterMap_congr fun i hi => ?_
    obtain ⟨l, r, hlr⟩ := hall i (List.mem_range.mp hi)
    simp [intervalAt, hlr]
  refine ⟨(repeated?_eq_none hrep).1, fun n hn p hp => orphan?_eq_none horphan hn hp, rfl, ?_, ?_⟩
  · rw [hintervals, List.length_map, List.length_range]
  · intro i hi
    obtain ⟨l, r, hlr⟩ := hall i hi
    obtain ⟨before, after, hsplit, -⟩ := List.lookup_eq_some_iff.mp hlr
    have hmem : (i, l, r) ∈ numbering (parents nodes) := by simp [hsplit]
    refine ⟨l, r, hmem, ?_⟩
    rw [hintervals, List.getElem?_map, List.getElem?_range hi, Option.map_some, intervalAt, hlr]
    rfl

theorem isSubOf_ofNat {a b c d : Nat} (ha : a < 2 ^ 32) (hb : b < 2 ^ 32) (hc : c < 2 ^ 32)
    (hd : d < 2 ^ 32) :
    Interval.isSubOf ⟨UInt32.ofNat a, UInt32.ofNat b⟩ ⟨UInt32.ofNat c, UInt32.ofNat d⟩ = true ↔
      c ≤ a ∧ b ≤ d := by
  rw [Interval.isSubOf, Bool.and_eq_true, decide_eq_true_iff, decide_eq_true_iff,
    UInt32.le_iff_toNat_le, UInt32.le_iff_toNat_le, UInt32.toNat_ofNat_of_lt' ha,
    UInt32.toNat_ofNat_of_lt' hb, UInt32.toNat_ofNat_of_lt' hc, UInt32.toNat_ofNat_of_lt' hd]

/-- By positions: one interval lies inside another exactly when parent links lead there. -/
theorem isSubOfAt?_eq_true_iff (h : encode nodes = .ok s) (hsize : nodes.length ≤ 2 ^ 31)
    {i j : Nat} (hi : i < nodes.length) (hj : j < nodes.length) :
    s.isSubOfAt? i j = some true ↔ ∃ k, (parents nodes).ancestor? k i = some j := by
  obtain ⟨-, -, -, -, hall⟩ := encode_eq_ok h
  obtain ⟨l, r, hmem, hget⟩ := hall i hi
  obtain ⟨l', r', hmem', hget'⟩ := hall j hj
  have hb := Tree.numberAll_bounds hmem
  have hb' := Tree.numberAll_bounds hmem'
  have hlen := ParentLinks.sizeAll_forest_le (parents nodes)
  rw [length_parents] at hlen
  have hq : s.isSubOfAt? i j = some (Interval.isSubOf ⟨UInt32.ofNat l, UInt32.ofNat r⟩
      ⟨UInt32.ofNat l', UInt32.ofNat r'⟩) := by
    simp [isSubOfAt?, hget, hget']
  -- a tree uses two numbers a node, so none of them wraps
  rw [hq, Option.some.injEq, isSubOf_ofNat (by omega) (by omega) (by omega) (by omega)]
  exact ParentLinks.numbering_nested_iff hmem hmem'

theorem grounded_of_encode (h : encode nodes = .ok s) {i : Nat} (hi : i < nodes.length) :
    (parents nodes).Grounded i := by
  obtain ⟨-, -, -, -, hall⟩ := encode_eq_ok h
  obtain ⟨l, r, hmem, -⟩ := hall i hi
  exact ParentLinks.grounded_of_mem_forest (Tree.mem_positions_of_numberAll hmem)

theorem position?_eq_some_iff (h : encode nodes = .ok s) {a : String} {i : Nat} :
    s.position? a = some i ↔ (HierarchyNode.ids nodes)[i]? = some a := by
  obtain ⟨hnd, -, hids, -, -⟩ := encode_eq_ok h
  rw [position?, hids]
  exact ⟨getElem?_of_idxOf?, idxOf?_of_getElem? hnd⟩

/-- Names are answered as their positions are. -/
theorem isSubOf?_eq_isSubOfAt? {a b : String} {i j : Nat} (hi : s.position? a = some i)
    (hj : s.position? b = some j) : s.isSubOf? a b = s.isSubOfAt? i j := by
  rw [isSubOf?, isSubOfAt?, interval?, interval?, hi, hj, Option.bind_some, Option.bind_some]

/-- Only names that have a position are answered. -/
theorem exists_position_of_isSubOf? {a b : String} {answer : Bool}
    (h : s.isSubOf? a b = some answer) : ∃ i j, s.position? a = some i ∧ s.position? b = some j ∧
      s.isSubOfAt? i j = some answer := by
  have hab := h
  simp only [isSubOf?, interval?, bind, Option.bind_eq_some_iff] at h
  obtain ⟨-, ⟨i, hi, -⟩, -, ⟨j, hj, -⟩, -⟩ := h
  exact ⟨i, j, hi, hj, by rw [← isSubOf?_eq_isSubOfAt? hi hj, hab]⟩

/-- By names: a name is answered to lie below another exactly when parent links lead there. -/
theorem isSubOf?_eq_true_iff (h : encode nodes = .ok s) (hsize : nodes.length ≤ 2 ^ 31)
    {a b : String} : s.isSubOf? a b = some true ↔ Reaches nodes a b := by
  obtain ⟨hnd, -, hids, -, -⟩ := encode_eq_ok h
  have hlt {c : String} {i : Nat} (hc : s.position? c = some i) : i < nodes.length := by
    have hi := (position?_eq_some_iff h).mp hc
    rw [HierarchyNode.getElem?_ids, Option.map_eq_some_iff] at hi
    obtain ⟨n, hn, -⟩ := hi
    exact (List.getElem?_eq_some_iff.mp hn).1
  constructor
  · intro hab
    obtain ⟨i, j, hi, hj, hab⟩ := exists_position_of_isSubOf? hab
    rw [isSubOfAt?_eq_true_iff h hsize (hlt hi) (hlt hj)] at hab
    obtain ⟨k, hk⟩ := hab
    exact (reaches_iff hnd ((position?_eq_some_iff h).mp hi)).mpr
      ⟨k, j, hk, (position?_eq_some_iff h).mp hj⟩
  · intro hab
    obtain ⟨i, hia⟩ := List.getElem?_of_mem hab.mem.1
    obtain ⟨k, j, hk, hj⟩ := (reaches_iff hnd hia).mp hab
    have hpi := (position?_eq_some_iff h).mpr hia
    have hpj := (position?_eq_some_iff h).mpr hj
    rw [isSubOf?_eq_isSubOfAt? hpi hpj, isSubOfAt?_eq_true_iff h hsize (hlt hpi) (hlt hpj)]
    exact ⟨k, hk⟩

end NestedSet

/-! ## Lineages -/

namespace HierarchyNode

variable {nodes : List HierarchyNode}

theorem reaches_of_mem_lineageFrom {fuel : Nat} {a b : String}
    (h : b ∈ lineageFrom nodes fuel a) : Reaches nodes a b := by
  induction fuel generalizing a with
  | zero => simp [lineageFrom] at h
  | succ fuel ih =>
    rw [lineageFrom] at h
    split at h
    · rename_i n hn
      have hmem := List.mem_of_find?_eq_some hn
      obtain rfl : n.id = a := by simpa using List.find?_some hn
      rw [List.mem_cons] at h
      rcases h with rfl | h
      · exact .self (List.mem_map_of_mem hmem)
      · cases hp : n.parent with
        | none => simp [hp] at h
        | some p => exact .up hmem hp (ih (by simpa [hp] using h))
    · simp at h

theorem mem_lineageFrom (hnd : (ids nodes).Nodup) {fuel k i j : Nat} {a b : String}
    (hi : (ids nodes)[i]? = some a) (hk : (parents nodes).ancestor? k i = some j)
    (hj : (ids nodes)[j]? = some b) (hfuel : k < fuel) : b ∈ lineageFrom nodes fuel a := by
  induction fuel generalizing k i a with
  | zero => omega
  | succ fuel ih =>
    obtain ⟨n, hn, hni⟩ := find?_of_getElem? hnd hi
    rw [lineageFrom, hn]
    simp only [List.mem_cons]
    cases k with
    | zero =>
      obtain rfl : i = j := by simpa using hk
      left
      rw [getElem?_ids, hni] at hj
      exact (Option.some.inj hj).symm
    | succ k =>
      right
      rw [ParentLinks.ancestor?, Option.bind_eq_some_iff] at hk
      obtain ⟨q, hq, hk⟩ := hk
      obtain ⟨n', p, hni', hp, hq⟩ := parent?_parents_iff.mp hq
      obtain rfl := Option.some.inj (hni.symm.trans hni')
      rw [hp, Option.map_some, Option.getD_some]
      exact ih (getElem?_of_idxOf? hq) hk (by omega)

/-- In a forest the lineage of a name holds exactly what the name reaches. -/
theorem isBelow_iff_reaches {s : NestedSet} (h : NestedSet.encode nodes = .ok s) {a b : String} :
    isBelow nodes a b = true ↔ Reaches nodes a b := by
  rw [isBelow, List.contains_iff_mem]
  refine ⟨reaches_of_mem_lineageFrom, fun hab => ?_⟩
  obtain ⟨hnd, -⟩ := NestedSet.encode_eq_ok h
  obtain ⟨i, hi, hia⟩ := List.getElem_of_mem hab.mem.1
  have hia' : (ids nodes)[i]? = some a := by rw [List.getElem?_eq_getElem hi, hia]
  obtain ⟨k, j, hk, hj⟩ := (reaches_iff hnd hia').mp hab
  -- a chain is shorter than the list of nodes, so the fuel does not run out on it
  have hground := NestedSet.grounded_of_encode h (i := i) (by simpa [ids] using hi)
  have hlt := hground.distance_lt_length hk
  rw [length_parents] at hlt
  exact mem_lineageFrom hnd hia' hk hj hlt

end HierarchyNode

end AccessPolicy
