import AccessPolicy.Bitmask
import Mathlib.Data.Nat.Bitwise

/-!
# Bitmasks — sets of positions

A mask is read as the set of positions that it answers to be set; setting or clearing a bit and
joining masks act on this set.  The listed positions are those of the set, and with the size they
determine the bytes.
-/

namespace AccessPolicy

theorem BitCoord.mask_ofIndex_toNat (i : Nat) : (BitCoord.ofIndex i).mask.toNat = 2 ^ (i % 8) := by
  have h : ∀ b < 8, ((1 : UInt8) <<< UInt8.ofNat b).toNat = 2 ^ b := by decide
  exact h (i % 8) (Nat.mod_lt _ (by decide))

namespace Bitmask

/-- A bit of a byte, tested by masking. -/
theorem and_mask_bne_zero (byte : UInt8) (i : Nat) :
    (byte &&& (BitCoord.ofIndex i).mask != 0) = byte.toNat.testBit (i % 8) := by
  rw [Bool.eq_iff_iff, bne_iff_ne, ne_eq, ← UInt8.toNat_inj, UInt8.toNat_and,
    BitCoord.mask_ofIndex_toNat, Nat.and_two_pow]
  cases byte.toNat.testBit (i % 8) <;> simp

theorem isSet_eq (m : Bitmask) (i : Nat) :
    m.isSet i = ((m.bytes[i / 8]?).map fun byte => byte.toNat.testBit (i % 8)).getD false := by
  rw [isSet, isSetAt, show (BitCoord.ofIndex i).byteIndex = i / 8 from rfl]
  cases m.bytes[i / 8]? with
  | none => rfl
  | some byte => exact and_mask_bne_zero byte i

@[simp] theorem isSet_empty (i : Nat) : empty.isSet i = false := rfl

theorem isSet_withItems (count i : Nat) : (withItems count).isSet i = false := by
  rw [isSet_eq, withItems, List.getElem?_replicate]
  split <;> simp

/-! ## Setting bits -/

theorem size_set (m : Bitmask) (j : Nat) : (m.set j).size = m.size := by
  simp [set, size]

theorem isSet_set (m : Bitmask) (i j : Nat) :
    (m.set j).isSet i = (m.isSet i || decide (i = j ∧ i < 8 * m.size)) := by
  rw [isSet_eq, isSet_eq, set, List.getElem?_modify,
    show (BitCoord.ofIndex j).byteIndex = j / 8 from rfl, size]
  cases hbyte : m.bytes[i / 8]? with
  | none =>
    -- past the last byte nothing is set and nothing can be set
    have hlen : m.bytes.length ≤ i / 8 := List.getElem?_eq_none_iff.mp hbyte
    have hfar : ¬ (i = j ∧ i < 8 * m.bytes.length) := by omega
    simp [hfar]
  | some byte =>
    have hlen : i / 8 < m.bytes.length := (List.getElem?_eq_some_iff.mp hbyte).1
    simp only [Option.map_eq_map, Option.map_some, Option.getD_some]
    by_cases hj : j / 8 = i / 8
    · rw [if_pos hj, UInt8.toNat_or, Nat.testBit_or, BitCoord.mask_ofIndex_toNat,
        Nat.testBit_two_pow]
      congr 1
      rw [decide_eq_decide]
      omega
    · have hne : ¬ (i = j ∧ i < 8 * m.bytes.length) := by
        rintro ⟨rfl, -⟩
        exact hj rfl
      simp [hj, hne]

theorem isSet_foldl_set (is : List Nat) (m : Bitmask) (i : Nat) :
    (is.foldl set m).isSet i = (m.isSet i || decide (i ∈ is ∧ i < 8 * m.size)) := by
  induction is generalizing m with
  | nil => simp
  | cons j is ih =>
    rw [List.foldl_cons, ih, isSet_set, size_set, Bool.or_assoc, ← Bool.decide_or]
    congr 2
    rw [List.mem_cons, ← or_and_right]

/-- The mask of some positions, all of them within the number of items, holds just these. -/
theorem isSet_ofIndices {count : Nat} {is : List Nat} (h : ∀ i ∈ is, i < count) (i : Nat) :
    (ofIndices count is).isSet i = true ↔ i ∈ is := by
  rw [ofIndices, isSet_foldl_set, isSet_withItems, Bool.false_or, decide_eq_true_iff]
  refine ⟨And.left, fun hi => ⟨hi, ?_⟩⟩
  -- the bytes are rounded up, so every item has its bit
  have hlt := h i hi
  rw [withItems, size, List.length_replicate]
  omega

/-! ## Clearing bits -/

theorem size_unset (m : Bitmask) (j : Nat) : (m.unset j).size = m.size := by
  unfold unset size
  rw [List.length_modify]

theorem testBit_not_mask (i j : Nat) :
    (~~~(BitCoord.ofIndex j).mask).toNat.testBit (i % 8) = decide (i % 8 ≠ j % 8) := by
  have h : ∀ a < 8, ∀ b < 8, (~~~((1 : UInt8) <<< UInt8.ofNat b)).toNat.testBit a =
      decide (a ≠ b) := by decide
  exact h (i % 8) (by omega) (j % 8) (by omega)

theorem isSet_unset (m : Bitmask) (i j : Nat) :
    (m.unset j).isSet i = (m.isSet i && decide (i ≠ j)) := by
  rw [isSet_eq, isSet_eq, unset, List.getElem?_modify,
    show (BitCoord.ofIndex j).byteIndex = j / 8 from rfl]
  cases m.bytes[i / 8]? with
  | none => simp
  | some byte =>
    simp only [Option.map_eq_map, Option.map_some, Option.getD_some]
    by_cases hj : j / 8 = i / 8
    · -- in the byte of the bit that is cleared, the places decide
      rw [if_pos hj, UInt8.toNat_and, Nat.testBit_and, testBit_not_mask]
      congr 1
      rw [decide_eq_decide]
      omega
    · have hne : i ≠ j := fun heq => hj (by rw [heq])
      simp [hj, hne]

/-! ## Union -/

theorem getElem?_unionBytes (as bs : List UInt8) (i : Nat) :
    (unionBytes as bs)[i]? = match as[i]?, bs[i]? with
      | some a, some b => some (a ||| b)
      | some a, none => some a
      | none, b => b := by
  induction as, bs using unionBytes.induct generalizing i with
  | case1 bs => simp [unionBytes]
  | case2 as h =>
    cases as with
    | nil => exact absurd rfl h
    | cons a as =>
      rw [unionBytes.eq_def]
      simp only [List.getElem?_nil]
      cases (a :: as)[i]? <;> rfl
  | case3 a as b bs ih =>
    rw [unionBytes]
    cases i with
    | zero => rfl
    | succ i =>
      simp only [List.getElem?_cons_succ]
      exact ih i

theorem isSet_union (m n : Bitmask) (i : Nat) : (m.union n).isSet i = (m.isSet i || n.isSet i) := by
  rw [isSet_eq, isSet_eq, isSet_eq, union, getElem?_unionBytes]
  cases m.bytes[i / 8]? <;> cases n.bytes[i / 8]? <;> simp [UInt8.toNat_or, Nat.testBit_or]

theorem isSet_foldl_union (ms : List Bitmask) (m : Bitmask) (i : Nat) :
    (ms.foldl union m).isSet i = (m.isSet i || ms.any (·.isSet i)) := by
  induction ms generalizing m with
  | nil => simp
  | cons n ms ih => rw [List.foldl_cons, ih, isSet_union, List.any_cons, Bool.or_assoc]

theorem isSet_unionAll (ms : List Bitmask) (i : Nat) :
    (unionAll ms).isSet i = ms.any (·.isSet i) := by
  rw [unionAll, isSet_foldl_union, isSet_empty, Bool.false_or]

/-! ## Sizes -/

theorem size_withItems (count : Nat) : (withItems count).size = (count + 7) / 8 :=
  List.length_replicate

theorem size_ofIndices (count : Nat) (indices : List Nat) :
    (ofIndices count indices).size = (count + 7) / 8 := by
  have hfold (m : Bitmask) : (indices.foldl set m).size = m.size := by
    induction indices generalizing m with
    | nil => rfl
    | cons i indices ih => rw [List.foldl_cons, ih, size_set]
  rw [ofIndices, hfold, size_withItems]

theorem length_unionBytes (as bs : List UInt8) :
    (unionBytes as bs).length = max as.length bs.length := by
  induction as, bs using unionBytes.induct with
  | case1 bs => simp [unionBytes]
  | case2 as h =>
    cases as with
    | nil => exact absurd rfl h
    | cons a as => simp [unionBytes]
  | case3 a as b bs ih =>
    rw [unionBytes, List.length_cons, List.length_cons, List.length_cons, ih]
    omega

theorem size_union (m n : Bitmask) : (m.union n).size = max m.size n.size :=
  length_unionBytes m.bytes n.bytes

theorem size_foldl_union (ms : List Bitmask) (m : Bitmask) :
    (ms.foldl union m).size = max m.size ((ms.map size).foldr max 0) := by
  induction ms generalizing m with
  | nil => simp
  | cons n ms ih =>
    rw [List.foldl_cons, ih, size_union, List.map_cons, List.foldr_cons]
    omega

theorem size_unionAll (ms : List Bitmask) : (unionAll ms).size = (ms.map size).foldr max 0 := by
  rw [unionAll, size_foldl_union, show empty.size = 0 from rfl, Nat.zero_max]

/-! ## Bytes and bits -/

theorem lt_of_isSet {m : Bitmask} {i : Nat} (h : m.isSet i = true) : i < 8 * m.size := by
  by_contra hlt
  have hnone : m.bytes[i / 8]? = none := by
    apply List.getElem?_eq_none
    unfold size at hlt
    omega
  rw [isSet_eq, hnone] at h
  exact Bool.false_ne_true h

theorem testBit_of_ge (byte : UInt8) {b : Nat} (h : 8 ≤ b) : byte.toNat.testBit b = false := by
  apply Nat.testBit_lt_two_pow
  calc byte.toNat < 2 ^ 8 := byte.toNat_lt
    _ ≤ 2 ^ b := Nat.pow_le_pow_right (by decide) h

/-- The bits of a byte of a mask. -/
theorem isSet_of_byte {m : Bitmask} {k : Nat} {byte : UInt8} (hbyte : m.bytes[k]? = some byte)
    {b : Nat} (hb : b < 8) : m.isSet (8 * k + b) = byte.toNat.testBit b := by
  have hdiv : (8 * k + b) / 8 = k := by omega
  have hmod : (8 * k + b) % 8 = b := by omega
  rw [isSet_eq, hdiv, hmod, hbyte]
  rfl

/-- A mask is determined by its size and its positions. -/
theorem ext_isSet {m n : Bitmask} (hsize : m.size = n.size) (h : ∀ i, m.isSet i = n.isSet i) :
    m = n := by
  have hbytes : m.bytes = n.bytes := by
    apply List.ext_getElem hsize
    intro k hm hn
    apply UInt8.toNat_inj.mp
    apply Nat.eq_of_testBit_eq
    intro b
    by_cases hb : b < 8
    · rw [← isSet_of_byte (List.getElem?_eq_getElem hm) hb,
        ← isSet_of_byte (List.getElem?_eq_getElem hn) hb]
      exact h _
    · rw [testBit_of_ge _ (by omega), testBit_of_ge _ (by omega)]
  cases m
  cases n
  congr 1

/-! ## Listing the set positions -/

theorem mem_byteIndices_iff {start i : Nat} {byte : UInt8} :
    i ∈ byteIndices start byte ↔
      start ≤ i ∧ i < start + 8 ∧ byte.toNat.testBit (i - start) = true := by
  have hbit (b : Nat) (hb : b < 8) :
      (byte &&& (1 <<< UInt8.ofNat b) != 0) = byte.toNat.testBit b := by
    have h := and_mask_bne_zero byte b
    rw [Nat.mod_eq_of_lt hb, BitCoord.mask, BitCoord.ofIndex, Nat.mod_eq_of_lt hb] at h
    exact h
  rw [byteIndices, List.mem_filterMap]
  constructor
  · rintro ⟨b, hmem, hb⟩
    have hlt : b < 8 := List.mem_range.mp hmem
    rw [hbit b hlt] at hb
    cases hset : byte.toNat.testBit b with
    | false => simp [hset] at hb
    | true =>
      have hi : start + b = i := by simpa [hset] using hb
      subst hi
      rw [Nat.add_sub_cancel_left]
      exact ⟨by omega, by omega, hset⟩
  · rintro ⟨hle, hlt, hset⟩
    refine ⟨i - start, List.mem_range.mpr (by omega), ?_⟩
    rw [hbit _ (by omega), hset, if_pos rfl, Nat.add_sub_cancel' hle]

theorem pairwise_byteIndices (start : Nat) (byte : UInt8) :
    (byteIndices start byte).Pairwise (· < ·) := by
  apply List.Pairwise.filterMap _ _ List.pairwise_lt_range
  intro a b hab i hi j hj
  split at hi <;> split at hj <;> simp_all
  omega

theorem isSet_cons (byte : UInt8) (rest : List UInt8) (i : Nat) :
    (Bitmask.mk (byte :: rest)).isSet i =
      if i < 8 then byte.toNat.testBit i else (Bitmask.mk rest).isSet (i - 8) := by
  rw [isSet_eq]
  by_cases hi : i < 8
  · rw [if_pos hi, Nat.div_eq_of_lt hi, Nat.mod_eq_of_lt hi]
    rfl
  · have hdiv : i / 8 = (i - 8) / 8 + 1 := by omega
    have hmod : i % 8 = (i - 8) % 8 := by omega
    rw [if_neg hi, hdiv, hmod, isSet_eq]
    rfl

theorem mem_indicesFrom_iff {start i : Nat} {bytes : List UInt8} :
    i ∈ indicesFrom start bytes ↔ start ≤ i ∧ (Bitmask.mk bytes).isSet (i - start) = true := by
  induction bytes generalizing start with
  | nil => simp [indicesFrom, isSet_eq]
  | cons byte rest ih =>
    rw [indicesFrom, List.mem_append, mem_byteIndices_iff, ih, isSet_cons]
    by_cases hi : i - start < 8
    · rw [if_pos hi]
      constructor
      · rintro (⟨hle, -, hset⟩ | ⟨hle, hset⟩)
        · exact ⟨hle, hset⟩
        · omega
      · rintro ⟨hle, hset⟩
        exact .inl ⟨hle, by omega, hset⟩
    · rw [if_neg hi, show i - (start + 8) = i - start - 8 by omega]
      constructor
      · rintro (⟨hle, hlt, -⟩ | ⟨hle, hset⟩)
        · omega
        · exact ⟨by omega, hset⟩
      · rintro ⟨hle, hset⟩
        exact .inr ⟨by omega, hset⟩

theorem mem_indices_iff {m : Bitmask} {i : Nat} : i ∈ m.indices ↔ m.isSet i = true := by
  rw [indices, mem_indicesFrom_iff]
  simp

theorem pairwise_indicesFrom (start : Nat) (bytes : List UInt8) :
    (indicesFrom start bytes).Pairwise (· < ·) := by
  induction bytes generalizing start with
  | nil => exact .nil
  | cons byte rest ih =>
    -- the positions of a byte come before those of the bytes behind it
    apply List.pairwise_append.mpr ⟨pairwise_byteIndices start byte, ih (start + 8), ?_⟩
    intro i hi j hj
    have hlt := (mem_byteIndices_iff.mp hi).2.1
    have hle := (mem_indicesFrom_iff.mp hj).1
    omega

theorem pairwise_indices (m : Bitmask) : m.indices.Pairwise (· < ·) :=
  pairwise_indicesFrom 0 m.bytes

end Bitmask

end AccessPolicy
