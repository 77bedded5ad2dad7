import AccessPolicy.Graph.Builder
import Mathlib.Algebra.Group.Nat.Defs
import Mathlib.Data.List.Nodup

/-!
# Placement — tables in which every node stands where its index says

A table is well placed when its nodes are at their own indices, differ from one another, belong to
its kind and refer only to what comes before them.  Placing a checked node keeps a table so.
-/

namespace AccessPolicy

/-! ## Indices -/

namespace NodeIndex

theorem slot_common {p : Nat} (h : p < 2 ^ 31) : (common p).slot = .common p := by
  have hraw : (common p).raw.toInt = p := Int32.toInt_ofNat_of_lt h
  rw [slot, hraw]

theorem slot_subject {p : Nat} (h : p < 2 ^ 31) : (subject p).slot = .subject p := by
  -- position `p` has the index `-1 - p`, so the most negative number is still in use
  have hraw : (subject p).raw.toInt = Int.negSucc p := by
    rw [subject, Int32.toInt_sub, Int32.toInt_neg, Int32.toInt_ofNat_of_lt h, Int32.toInt_one]
    simp [Int.bmod]
    omega
  rw [slot, hraw]

theorem isSubject_of_slot_common {i : NodeIndex} {p : Nat} (h : i.slot = .common p) :
    i.isSubject = false := by
  unfold slot at h
  rw [isSubject, decide_eq_false_iff_not]
  split at h
  · rename_i hraw
    rw [hraw]
    exact Int.not_lt.mpr (Int.natCast_nonneg _)
  · exact absurd h (by simp)

theorem isSubject_of_slot_subject {i : NodeIndex} {p : Nat} (h : i.slot = .subject p) :
    i.isSubject = true := by
  unfold slot at h
  rw [isSubject, decide_eq_true_iff]
  split at h
  · exact absurd h (by simp)
  · rename_i hraw
    rw [hraw]
    exact Int.negSucc_lt_zero _

theorem slot_injective {i j : NodeIndex} (h : i.slot = j.slot) : i = j := by
  obtain ⟨i⟩ := i
  obtain ⟨j⟩ := j
  have hraw : i.toInt = j.toInt := by
    simp only [slot] at h
    cases hi : i.toInt <;> cases hj : j.toInt <;> simp_all
  rw [Int32.toInt_inj.mp hraw]

end NodeIndex

namespace TableKind

/-- The slot of a position. -/
def slotAt : TableKind → Nat → Slot
  | .common, position => .common position
  | .subject, position => .subject position

theorem eq_of_decide_subject {kind kind' : TableKind}
    (h : decide (kind = .subject) = decide (kind' = .subject)) : kind = kind' := by
  cases kind <;> cases kind' <;> simp_all

/-- A position has an index of its own as long as indices do not wrap. -/
theorem slot_indexAt {kind : TableKind} {p : Nat} (h : p < 2 ^ 31) :
    (kind.indexAt p).slot = kind.slotAt p := by
  cases kind with
  | common => exact NodeIndex.slot_common h
  | subject => exact NodeIndex.slot_subject h

end TableKind

theorem NodeIndex.isSubject_of_slot {i : NodeIndex} {kind : TableKind} {p : Nat}
    (h : i.slot = kind.slotAt p) : i.isSubject = decide (kind = .subject) := by
  cases kind with
  | common => exact isSubject_of_slot_common h
  | subject => exact isSubject_of_slot_subject h

/-- A node that does not depend on the subject instance has no operand that does. -/
theorem Node.isSubject_operand {n : Node} (hn : n.dependsOnSubject = false) {o : NodeIndex}
    (ho : o ∈ n.operands) : o.isSubject = false := by
  rw [dependsOnSubject, Bool.or_eq_false_iff, List.any_eq_false] at hn
  simpa using hn.2 o ho

/-! ## Tables -/

namespace NodeTable

/-- Every node at its own index, of the kind of the table, after its operands, and only once. -/
structure WellPlaced (kind : TableKind) (commonSize : Nat) (t : NodeTable) : Prop where
  index : ∀ {p : Nat} {n : TypedNode}, t[p]? = some n → n.index = kind.indexAt p
  operands : ∀ {p : Nat} {n : TypedNode}, t[p]? = some n →
    ∀ o ∈ n.node.operands, mayRefer kind commonSize p o = true
  dependsOnSubject : ∀ n ∈ t, n.node.dependsOnSubject = decide (kind = .subject)
  nodup : (t.map (·.node)).Nodup

theorem wellPlaced_nil (kind : TableKind) (commonSize : Nat) : WellPlaced kind commonSize [] where
  index h := by simp at h
  operands h := by simp at h
  dependsOnSubject := by simp
  nodup := List.nodup_nil

theorem mayRefer_mono {kind : TableKind} {c c' p : Nat} {o : NodeIndex} (hle : c ≤ c')
    (h : mayRefer kind c p o = true) : mayRefer kind c' p o = true := by
  cases kind <;> cases ho : o.slot <;>
    simp only [mayRefer, ho, decide_eq_true_eq] at h ⊢ <;> omega

/-- The tables of the subjects stay well placed when the common table grows. -/
theorem WellPlaced.mono {kind : TableKind} {c c' : Nat} {t : NodeTable} (hle : c ≤ c')
    (h : WellPlaced kind c t) : WellPlaced kind c' t where
  index := h.index
  operands hn o ho := mayRefer_mono hle (h.operands hn o ho)
  dependsOnSubject := h.dependsOnSubject
  nodup := h.nodup

/-- Placing finds the node or appends it. -/
theorem place_cases (kind : TableKind) (n : Node) (type : DataType) (t : NodeTable) :
    (∃ found ∈ t, found.node = n ∧ t.place kind n type = (found.index, t)) ∨
      (n ∉ t.map (·.node) ∧ t.place kind n type =
        (kind.indexAt t.length, t ++ [⟨kind.indexAt t.length, n, type⟩])) := by
  unfold place
  cases hfind : t.find? (·.node = n) with
  | some found =>
    exact .inl ⟨found, List.mem_of_find?_eq_some hfind, by simpa using List.find?_some hfind, rfl⟩
  | none =>
    refine .inr ⟨fun hmem => ?_, rfl⟩
    obtain ⟨found, hfound, he⟩ := List.mem_map.mp hmem
    simpa [he] using List.find?_eq_none.mp hfind found hfound

theorem prefix_place (kind : TableKind) (n : Node) (type : DataType) (t : NodeTable) :
    t <+: (t.place kind n type).2 := by
  rcases place_cases kind n type t with ⟨found, -, -, h⟩ | ⟨-, h⟩
  · exact ⟨[], by simp [h]⟩
  · rw [h]
    exact List.prefix_append _ _

theorem WellPlaced.place {kind : TableKind} {c : Nat} {t : NodeTable} (h : WellPlaced kind c t)
    {n : Node} (type : DataType) (hkind : n.dependsOnSubject = decide (kind = .subject))
    (hops : ∀ o ∈ n.operands, mayRefer kind c t.length o = true) :
    WellPlaced kind c (t.place kind n type).2 := by
  rcases place_cases kind n type t with ⟨found, -, -, hp⟩ | ⟨hnew, hp⟩
  · rwa [hp]
  rw [hp]
  -- a position of the longer table is an old one or the last
  have hsplit {p : Nat} {m : TypedNode}
      (hm : (t ++ [⟨kind.indexAt t.length, n, type⟩])[p]? = some m) :
      t[p]? = some m ∨ p = t.length ∧ m = ⟨kind.indexAt t.length, n, type⟩ := by
    rw [List.getElem?_append] at hm
    split at hm
    · exact .inl hm
    · rw [List.getElem?_singleton] at hm
      split at hm
      · exact .inr ⟨by omega, (Option.some.inj hm).symm⟩
      · exact absurd hm (by simp)
  refine ⟨fun hm => ?_, fun hm => ?_, fun m hm => ?_, ?_⟩
  · rcases hsplit hm with hm | ⟨rfl, rfl⟩
    · exact h.index hm
    · rfl
  · rcases hsplit hm with hm | ⟨rfl, rfl⟩
    · exact h.operands hm
    · exact hops
  · rcases List.mem_append.mp hm with hm | hm
    · exact h.dependsOnSubject m hm
    · rw [List.mem_singleton.mp hm, hkind]
  · rw [List.map_append, List.nodup_append']
    refine ⟨h.nodup, List.nodup_singleton _, ?_⟩
    rw [List.map_singleton, List.disjoint_singleton]
    exact hnew

/-- The answered index is the one of a position that holds the node. -/
theorem WellPlaced.place_index {kind : TableKind} {c : Nat} {t : NodeTable}
    (h : WellPlaced kind c t) (n : Node) (type : DataType) :
    ∃ p m, (t.place kind n type).2[p]? = some m ∧ m.node = n ∧
      (t.place kind n type).1 = kind.indexAt p := by
  rcases place_cases kind n type t with ⟨found, hmem, he, hp⟩ | ⟨-, hp⟩
  · obtain ⟨p, hlt, hget⟩ := List.getElem_of_mem hmem
    have hp' : t[p]? = some found := by rw [List.getElem?_eq_getElem hlt, hget]
    rw [hp]
    exact ⟨p, found, hp', he, h.index hp'⟩
  · rw [hp]
    exact ⟨t.length, ⟨_, n, type⟩, List.getElem?_concat_length, rfl, rfl⟩

end NodeTable

end AccessPolicy
