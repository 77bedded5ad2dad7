import AccessPolicy.Proofs.Bitmask
import AccessPolicy.Semantics.PositionSet

/-!
# Masks and position sets

Each operation on masks acts on the positions that they stand for as its name says, and so does a
program of such operations.  As the positions determine the mask, what holds of finite sets and of
sizes holds of bytes: neither order nor repetition nor grouping shows in a union.
-/

namespace AccessPolicy

namespace PositionSet

variable {s : PositionSet} {i j : Nat}

theorem size_set : (s.set j).size = s.size := by
  unfold set
  split <;> rfl

theorem mem_set_iff : i ∈ (s.set j).members ↔ i ∈ s.members ∨ i = j ∧ i < 8 * s.size := by
  unfold set
  by_cases hj : j < 8 * s.size
  · rw [dif_pos hj, Finset.mem_insert]
    constructor
    · rintro (rfl | hi)
      · exact .inr ⟨rfl, hj⟩
      · exact .inl hi
    · rintro (hi | ⟨rfl, -⟩)
      · exact .inr hi
      · exact .inl rfl
  · rw [dif_neg hj]
    constructor
    · exact .inl
    · rintro (hi | ⟨rfl, hlt⟩)
      · exact hi
      · exact absurd hlt hj

theorem mem_unionAll_iff {sets : List PositionSet} :
    i ∈ (unionAll sets).members ↔ ∃ t ∈ sets, i ∈ t.members := by
  induction sets with
  | nil => simp [unionAll, empty]
  | cons t sets ih =>
    rw [show (unionAll (t :: sets)).members = t.members ∪ (unionAll sets).members from rfl,
      Finset.mem_union, ih, List.exists_mem_cons_iff]

theorem size_le_unionAll_iff {sets : List PositionSet} {k : Nat} :
    (unionAll sets).size ≤ k ↔ ∀ t ∈ sets, t.size ≤ k := by
  induction sets with
  | nil => simp [unionAll, empty]
  | cons t sets ih =>
    rw [show (unionAll (t :: sets)).size = max t.size (unionAll sets).size from rfl, max_le_iff, ih,
      List.forall_mem_cons]

/-- Neither order nor repetition shows in a union. -/
theorem unionAll_congr {sets sets' : List PositionSet} (h : ∀ t, t ∈ sets ↔ t ∈ sets') :
    unionAll sets = unionAll sets' := by
  apply PositionSet.ext
  · apply le_antisymm
    · rw [size_le_unionAll_iff]
      exact fun t ht => size_le_unionAll_iff.mp le_rfl t ((h t).mp ht)
    · rw [size_le_unionAll_iff]
      exact fun t ht => size_le_unionAll_iff.mp le_rfl t ((h t).mpr ht)
  · ext i
    rw [mem_unionAll_iff, mem_unionAll_iff]
    simp only [h]

theorem union_empty : union s empty = s := by
  apply PositionSet.ext
  · exact Nat.max_zero s.size
  · exact sup_bot_eq s.members

theorem empty_union : union empty s = s := by
  apply PositionSet.ext
  · exact Nat.zero_max s.size
  · exact bot_sup_eq s.members

theorem union_assoc (s t u : PositionSet) : union (union s t) u = union s (union t u) := by
  apply PositionSet.ext
  · exact max_assoc s.size t.size u.size
  · exact Finset.union_assoc s.members t.members u.members

theorem unionAll_append (sets sets' : List PositionSet) :
    unionAll (sets ++ sets') = union (unionAll sets) (unionAll sets') := by
  induction sets with
  | nil => exact empty_union.symm
  | cons s sets ih =>
    show union s (unionAll (sets ++ sets')) = _
    rw [ih, ← union_assoc]
    rfl

end PositionSet

namespace Bitmask

/-- The set that a mask stands for. -/
def positions (m : Bitmask) : PositionSet :=
  ⟨m.size, (Finset.range (8 * m.size)).filter (m.isSet · = true), fun _ hi =>
    Finset.mem_range.mp (Finset.mem_filter.mp hi).1⟩

theorem size_positions (m : Bitmask) : m.positions.size = m.size := rfl

theorem mem_positions_iff {m : Bitmask} {i : Nat} :
    i ∈ m.positions.members ↔ m.isSet i = true := by
  unfold positions
  rw [Finset.mem_filter, Finset.mem_range]
  exact ⟨And.right, fun hset => ⟨lt_of_isSet hset, hset⟩⟩

theorem positions_injective : Function.Injective positions := by
  intro m n h
  apply ext_isSet (congrArg PositionSet.size h)
  intro i
  rw [Bool.eq_iff_iff, ← mem_positions_iff, ← mem_positions_iff, h]

/-! ## The operations on the sets -/

theorem positions_empty : empty.positions = PositionSet.empty := by
  apply PositionSet.ext
  · rfl
  · rfl

theorem positions_withItems (count : Nat) :
    (withItems count).positions = PositionSet.withItems count := by
  apply PositionSet.ext
  · exact size_withItems count
  · ext i
    rw [mem_positions_iff, isSet_withItems]
    simp [PositionSet.withItems]

theorem positions_ofIndices (count : Nat) (indices : List Nat) :
    (ofIndices count indices).positions = PositionSet.ofIndices count indices := by
  apply PositionSet.ext
  · exact size_ofIndices count indices
  · ext i
    rw [mem_positions_iff, ofIndices, isSet_foldl_set, isSet_withItems, size_withItems]
    simp [PositionSet.ofIndices]

theorem positions_set (m : Bitmask) (j : Nat) : (m.set j).positions = m.positions.set j := by
  apply PositionSet.ext
  · rw [PositionSet.size_set]
    exact size_set m j
  · ext i
    rw [mem_positions_iff, PositionSet.mem_set_iff, mem_positions_iff, isSet_set, Bool.or_eq_true,
      decide_eq_true_iff]
    rfl

theorem positions_unset (m : Bitmask) (j : Nat) : (m.unset j).positions = m.positions.unset j := by
  apply PositionSet.ext
  · exact size_unset m j
  · ext i
    unfold PositionSet.unset
    rw [mem_positions_iff, Finset.mem_erase, mem_positions_iff, isSet_unset, Bool.and_eq_true,
      decide_eq_true_iff, and_comm]

theorem positions_union (m n : Bitmask) :
    (m.union n).positions = m.positions.union n.positions := by
  apply PositionSet.ext
  · exact size_union m n
  · ext i
    unfold PositionSet.union
    rw [mem_positions_iff, Finset.mem_union, mem_positions_iff, mem_positions_iff, isSet_union,
      Bool.or_eq_true]

theorem positions_unionAll (ms : List Bitmask) :
    (unionAll ms).positions = PositionSet.unionAll (ms.map positions) := by
  have hfold (m : Bitmask) : (ms.foldl union m).positions =
      m.positions.union (PositionSet.unionAll (ms.map positions)) := by
    induction ms generalizing m with
    | nil => exact PositionSet.union_empty.symm
    | cons n ms ih =>
      rw [List.foldl_cons, ih, positions_union, PositionSet.union_assoc]
      rfl
  rw [unionAll, hfold, positions_empty, PositionSet.empty_union]

/-! ## Programs -/

theorem positions_result (masks : Nat → Bitmask) (command : MaskCommand) :
    (operations.result masks command).positions =
      PositionSet.operations.result (fun r => (masks r).positions) command := by
  cases command with
  | empty target => exact positions_empty
  | withItems target count => exact positions_withItems count
  | ofIndices target count indices => exact positions_ofIndices count indices
  | set target index => exact positions_set (masks target) index
  | unset target index => exact positions_unset (masks target) index
  | union target source => exact positions_union (masks target) (masks source)
  | unionAll target sources =>
    show (unionAll (sources.map masks)).positions = _
    rw [positions_unionAll, List.map_map]
    rfl

theorem positions_apply (masks : Nat → Bitmask) (command : MaskCommand) :
    (fun r => (operations.apply masks command r).positions) =
      PositionSet.operations.apply (fun r => (masks r).positions) command := by
  unfold MaskOperations.apply
  rw [← positions_result]
  exact Function.comp_update positions masks command.target _

/-- Programs of mask operations do to the sets what they do to the masks. -/
theorem positions_run (program : List MaskCommand) :
    (fun r => (operations.run program r).positions) = PositionSet.operations.run program := by
  have hfold (masks : Nat → Bitmask) :
      (fun r => (program.foldl operations.apply masks r).positions) =
        program.foldl PositionSet.operations.apply fun r => (masks r).positions := by
    induction program generalizing masks with
    | nil => rfl
    | cons command program ih => rw [List.foldl_cons, List.foldl_cons, ih, positions_apply]
  unfold MaskOperations.run
  rw [hfold, show operations.empty.positions = PositionSet.operations.empty from positions_empty]

/-! ## Unions -/

theorem unionAll_congr {ms ms' : List Bitmask} (h : ∀ m, m ∈ ms ↔ m ∈ ms') :
    unionAll ms = unionAll ms' := by
  apply positions_injective
  rw [positions_unionAll, positions_unionAll]
  apply PositionSet.unionAll_congr
  intro s
  rw [List.mem_map, List.mem_map]
  simp only [h]

theorem unionAll_append (ms ms' : List Bitmask) :
    unionAll (ms ++ ms') = (unionAll ms).union (unionAll ms') := by
  apply positions_injective
  rw [positions_unionAll, List.map_append, PositionSet.unionAll_append, positions_union,
    positions_unionAll, positions_unionAll]

theorem union_empty (m : Bitmask) : m.union empty = m := by
  apply positions_injective
  rw [positions_union, positions_empty, PositionSet.union_empty]

theorem unionAll_singleton (m : Bitmask) : unionAll [m] = m := rfl

theorem unionAll_cons (m : Bitmask) (ms : List Bitmask) :
    unionAll (m :: ms) = m.union (unionAll ms) :=
  unionAll_append [m] ms

theorem set_of_le {m : Bitmask} {i : Nat} (h : 8 * m.size ≤ i) : m.set i = m := by
  apply positions_injective
  rw [positions_set, PositionSet.set, dif_neg]
  rw [size_positions]
  omega

theorem unset_of_le {m : Bitmask} {i : Nat} (h : 8 * m.size ≤ i) : m.unset i = m := by
  apply positions_injective
  rw [positions_unset]
  have hnot : i ∉ m.positions.members := fun hmem => by
    have hlt := m.positions.lt_limit i hmem
    rw [size_positions] at hlt
    omega
  apply PositionSet.ext
  · rfl
  · exact Finset.erase_eq_of_notMem hnot

end Bitmask

namespace MaskGroup

open Bitmask

mutual

theorem unionAll_masks : (g : MaskGroup) → unionAll g.masks = g.join
  | .mask m => unionAll_singleton m
  | .group parts => unionAll_masksOf parts

theorem unionAll_masksOf : (parts : List MaskGroup) →
    unionAll (masksOf parts) = unionAll (joinParts parts)
  | [] => rfl
  | part :: rest => by
    rw [masksOf, joinParts, unionAll_append, unionAll_cons, unionAll_masks part,
      unionAll_masksOf rest]

end

end MaskGroup

namespace Bitmask

/-- The mask answers every question as the set would. -/
structure StandsFor (m : Bitmask) (s : PositionSet) : Prop where
  size : m.size = s.size
  isSet_iff : ∀ i, m.isSet i = true ↔ i ∈ s.members
  isSetAt_iff : ∀ i, m.isSetAt (.ofIndex i) = true ↔ i ∈ s.members
  mem_indices_iff : ∀ i, i ∈ m.indices ↔ i ∈ s.members
  ascending : m.indices.Pairwise (· < ·)

theorem standsFor_positions (m : Bitmask) : m.StandsFor m.positions where
  size := rfl
  isSet_iff _ := mem_positions_iff.symm
  isSetAt_iff _ := mem_positions_iff.symm
  mem_indices_iff _ := mem_indices_iff.trans mem_positions_iff.symm
  ascending := pairwise_indices m

/-- Masks behave as finite sets.  After any program of mask operations, every mask answers as the
set that the program makes out of sets; setting and clearing a bit beyond the bytes does nothing,
and a union is as long as the longest mask of it.  Unions are the same byte for byte if they are
made of the same masks, in whatever order, grouping and repetition; the union of no masks has no
bytes and changes nothing in a union. -/
theorem programs_act_on_sets :
    (∀ program r, (operations.run program r).StandsFor (PositionSet.operations.run program r)) ∧
    (∀ (m : Bitmask) (i : Nat), 8 * m.size ≤ i → m.set i = m ∧ m.unset i = m) ∧
    (∀ m n : Bitmask, (m.union n).size = max m.size n.size) ∧
    (∀ ms : List Bitmask, (unionAll ms).size = (ms.map Bitmask.size).foldr max 0) ∧
    (∀ ms ms' : List Bitmask, (∀ m, m ∈ ms ↔ m ∈ ms') → unionAll ms = unionAll ms') ∧
    (∀ g g' : MaskGroup, (∀ m, m ∈ g.masks ↔ m ∈ g'.masks) → g.join = g'.join) ∧
    (∀ g : MaskGroup, g.join = unionAll g.masks) ∧
    (unionAll []).size = 0 ∧
    ∀ m : Bitmask, (unionAll []).union m = m ∧ m.union (unionAll []) = m := by
  refine ⟨fun program r => ?_, fun m i hi => ⟨set_of_le hi, unset_of_le hi⟩, size_union,
    size_unionAll, fun ms ms' => unionAll_congr, fun g g' hmasks => ?_,
    fun g => g.unionAll_masks.symm, rfl, fun m => ⟨rfl, union_empty m⟩⟩
  · rw [← positions_run program]
    exact standsFor_positions _
  · rw [← g.unionAll_masks, ← g'.unionAll_masks]
    exact unionAll_congr hmasks

/-- A union of masks of three bytes, of one and of none. -/
example :
    let m := operations.run [.withItems 0 20, .set 0 17, .set 0 24, .ofIndices 1 3 [1, 9],
      .unionAll 2 [1, 0, 3, 1], .unset 2 40] 2
    m.size = 3 ∧ m.indices = [1, 17] := by decide

end Bitmask

end AccessPolicy
