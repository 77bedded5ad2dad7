import AccessPolicy.ActionTree
import AccessPolicy.Proofs.Bitmask
import AccessPolicy.Proofs.Hierarchy.NestedSet

/-!
# Action trees — closures follow the declared links

The mask of some actions holds what lies below them when it allows, and what lies above them when
it forbids.
-/

namespace AccessPolicy

/-- A permission of the mode for `target` says something about `action`: allowing spreads to the
actions below, forbidding to the ones above. -/
def SubjectDecl.Spreads (d : SubjectDecl) (mode : AccessMode) (target action : String) : Prop :=
  match mode with
  | .allow => HierarchyNode.Reaches (d.actions.map ActionDecl.node) action target
  | .forbid => HierarchyNode.Reaches (d.actions.map ActionDecl.node) target action

theorem SubjectDecl.Spreads.target_mem {d : SubjectDecl} {mode : AccessMode}
    {target action : String} (h : d.Spreads mode target action) :
    target ∈ d.actions.map (·.name) := by
  have hids : HierarchyNode.ids (d.actions.map ActionDecl.node) = d.actions.map (·.name) := by
    rw [HierarchyNode.ids, List.map_map]
    rfl
  rw [← hids]
  cases mode with
  | allow => exact (HierarchyNode.Reaches.mem h).2
  | forbid => exact (HierarchyNode.Reaches.mem h).1

namespace ActionTree

variable {d : SubjectDecl} {t : ActionTree}

theorem build_eq_ok (h : build d = .ok t) :
    NestedSet.encode (d.actions.map ActionDecl.node) = .ok t.actions ∧
      t.closures = (List.range t.actions.size).map (closureOf t.actions) := by
  unfold build at h
  split at h
  · exact absurd h (by simp)
  · rename_i actions hactions
    obtain rfl := Except.ok.inj h
    exact ⟨hactions, rfl⟩

theorem ids_of_build (h : build d = .ok t) : t.actions.ids = d.actions.map (·.name) := by
  obtain ⟨-, -, hids, -⟩ := NestedSet.encode_eq_ok (build_eq_ok h).1
  rw [hids, HierarchyNode.ids, List.map_map]
  rfl

theorem size_of_build (h : build d = .ok t) : t.actions.size = d.actions.length := by
  rw [NestedSet.size, ids_of_build h, List.length_map]

theorem bit?_eq_some_iff (h : build d = .ok t) {action : String} {i : Nat} :
    t.bit? action = some i ↔ (d.actions.map (·.name))[i]? = some action := by
  rw [bit?, NestedSet.position?_eq_some_iff (build_eq_ok h).1, HierarchyNode.ids, List.map_map]
  rfl

theorem bit_lt_size (h : build d = .ok t) {action : String} {i : Nat}
    (hi : t.bit? action = some i) : i < t.actions.size := by
  rw [size_of_build h]
  simpa using (List.getElem?_eq_some_iff.mp ((bit?_eq_some_iff h).mp hi)).1

theorem exists_bit? (h : build d = .ok t) {action : String}
    (ha : action ∈ d.actions.map (·.name)) : ∃ i, t.bit? action = some i := by
  obtain ⟨i, hi, he⟩ := List.getElem_of_mem ha
  exact ⟨i, (bit?_eq_some_iff h).mpr (by rw [List.getElem?_eq_getElem hi, he])⟩

theorem exists_name (h : build d = .ok t) {i : Nat} (hi : i < t.actions.size) :
    ∃ action, t.bit? action = some i := by
  rw [size_of_build h] at hi
  have hi' : i < (d.actions.map (·.name)).length := by rwa [List.length_map]
  exact ⟨_, (bit?_eq_some_iff h).mpr (List.getElem?_eq_getElem hi')⟩

theorem closure?_eq_some_iff (h : build d = .ok t) {x : Nat} {c : ActionClosure} :
    t.closure? x = some c ↔ x < d.actions.length ∧ c = closureOf t.actions x := by
  rw [closure?, (build_eq_ok h).2, List.getElem?_map, Option.map_eq_some_iff, ← size_of_build h]
  constructor
  · rintro ⟨x', hx', rfl⟩
    obtain ⟨hlt, rfl⟩ := List.getElem?_eq_some_iff.mp hx'
    rw [List.length_range] at hlt
    rw [List.getElem_range]
    exact ⟨hlt, rfl⟩
  · rintro ⟨hlt, rfl⟩
    exact ⟨x, List.getElem?_range hlt, rfl⟩

theorem isSet_finer {x y : Nat} (s : NestedSet) :
    (Bitmask.ofIndices s.size (finer s x)).isSet y = true ↔
      y < s.size ∧ s.isSubOfAt? y x = some true := by
  have hlt : ∀ i ∈ finer s x, i < s.size := by simp +contextual [finer]
  rw [Bitmask.isSet_ofIndices hlt]
  simp [finer]

theorem isSet_coarser {x y : Nat} (s : NestedSet) :
    (Bitmask.ofIndices s.size (coarser s x)).isSet y = true ↔
      y < s.size ∧ s.isSubOfAt? x y = some true := by
  have hlt : ∀ i ∈ coarser s x, i < s.size := by simp +contextual [coarser]
  rw [Bitmask.isSet_ofIndices hlt]
  simp [coarser]

/-- Positions below one another are names that reach one another. -/
theorem isSubOfAt?_iff_reaches (h : build d = .ok t) (hsize : d.actions.length ≤ 2 ^ 31)
    {a b : String} {i j : Nat} (hi : t.bit? a = some i) (hj : t.bit? b = some j) :
    t.actions.isSubOfAt? i j = some true ↔
      HierarchyNode.Reaches (d.actions.map ActionDecl.node) a b := by
  have henc := (build_eq_ok h).1
  obtain ⟨hnd, -⟩ := NestedSet.encode_eq_ok henc
  have hi' := (NestedSet.position?_eq_some_iff henc).mp hi
  have hj' := (NestedSet.position?_eq_some_iff henc).mp hj
  have hlen : (d.actions.map ActionDecl.node).length = d.actions.length := List.length_map ..
  have hil := bit_lt_size h hi
  have hjl := bit_lt_size h hj
  rw [size_of_build h, ← hlen] at hil hjl
  rw [NestedSet.isSubOfAt?_eq_true_iff henc (by rw [hlen]; exact hsize) hil hjl,
    HierarchyNode.reaches_iff hnd hi']
  constructor
  · rintro ⟨k, hk⟩
    exact ⟨k, j, hk, hj'⟩
  · rintro ⟨k, j', hk, hjb⟩
    obtain rfl : j = j' := HierarchyNode.position_unique hnd hj' hjb
    exact ⟨k, hk⟩

theorem isSet_closureOf (h : build d = .ok t) (hsize : d.actions.length ≤ 2 ^ 31)
    {target action : String} {x y : Nat} (hx : t.bit? target = some x)
    (hy : t.bit? action = some y) (mode : AccessMode) :
    ((closureOf t.actions x).forMode mode).isSet y = true ↔ d.Spreads mode target action := by
  have hlt := bit_lt_size h hy
  cases mode with
  | allow =>
    rw [ActionClosure.forMode, closureOf, isSet_finer, and_iff_right hlt,
      isSubOfAt?_iff_reaches h hsize hy hx, SubjectDecl.Spreads]
  | forbid =>
    rw [ActionClosure.forMode, closureOf, isSet_coarser, and_iff_right hlt,
      isSubOfAt?_iff_reaches h hsize hx hy, SubjectDecl.Spreads]

/-- A bit without a closure adds nothing. -/
theorem isSet_mergedClosure_iff {bits : List Nat} {mode : AccessMode} {y : Nat} :
    (t.mergedClosure bits mode).isSet y = true ↔
      ∃ x ∈ bits, ∃ c, t.closure? x = some c ∧ (c.forMode mode).isSet y = true := by
  rw [mergedClosure, Bitmask.isSet_unionAll, List.any_eq_true]
  constructor
  · rintro ⟨mask, hmask, hset⟩
    obtain ⟨x, hx, hmask⟩ := List.mem_filterMap.mp hmask
    obtain ⟨c, hc, rfl⟩ := Option.map_eq_some_iff.mp hmask
    exact ⟨x, hx, c, hc, hset⟩
  · rintro ⟨x, hx, c, hc, hset⟩
    exact ⟨c.forMode mode, List.mem_filterMap.mpr ⟨x, hx, by rw [hc]; rfl⟩, hset⟩

/-- The merged closure of some bits holds an action exactly when it spreads from one of them. -/
theorem isSet_mergedClosure (h : build d = .ok t) (hsize : d.actions.length ≤ 2 ^ 31)
    {action : String} {y : Nat} (hy : t.bit? action = some y) (bits : List Nat)
    (mode : AccessMode) :
    (t.mergedClosure bits mode).isSet y = true ↔
      ∃ target x, x ∈ bits ∧ t.bit? target = some x ∧ d.Spreads mode target action := by
  rw [isSet_mergedClosure_iff]
  constructor
  · rintro ⟨x, hx, c, hc, hset⟩
    -- a bit that has a closure is the position of an action
    obtain ⟨hlt, rfl⟩ := (closure?_eq_some_iff h).mp hc
    rw [← size_of_build h] at hlt
    obtain ⟨target, ht⟩ := exists_name h hlt
    exact ⟨target, x, hx, ht, (isSet_closureOf h hsize ht hy mode).mp hset⟩
  · rintro ⟨target, x, hx, ht, hs⟩
    have hlt := bit_lt_size h ht
    rw [size_of_build h] at hlt
    exact ⟨x, hx, _, (closure?_eq_some_iff h).mpr ⟨hlt, rfl⟩,
      (isSet_closureOf h hsize ht hy mode).mpr hs⟩

end ActionTree

end AccessPolicy
