import AccessPolicy.Evaluation.Operators
import Mathlib.Algebra.Order.Ring.Int
import Mathlib.Algebra.Order.Ring.Nat
import Mathlib.Order.Compare

/-!
# Integers as doubles — which integers are held equal

Integers are compared by the doubles nearest to them.  Up to `2 ^ 53` each integer is a double of its
own; above, the doubles around a number are a power of two apart, and the integers that are rounded
to the same double are equal to every condition.
-/

namespace AccessPolicy

namespace Binary64

/-! ## Rounding a quotient -/

/-- The quotient is rounded down or up, to the nearer side. -/
theorem divNearestEven_cases (num den : Nat) :
    (divNearestEven num den = num / den ∧ 2 * (num % den) ≤ den) ∨
      (divNearestEven num den = num / den + 1 ∧ den ≤ 2 * (num % den)) := by
  unfold divNearestEven
  dsimp only
  split
  · exact .inl ⟨rfl, by omega⟩
  · split
    · exact .inr ⟨rfl, by omega⟩
    · rcases Nat.mod_two_eq_zero_or_one (num / den) with heven | hodd
      · exact .inl ⟨by omega, by omega⟩
      · exact .inr ⟨by omega, by omega⟩

variable {num den k : Nat}

theorem divNearestEven_near (num : Nat) (hden : 0 < den) :
    2 * (divNearestEven num den * den) ≤ 2 * num + den ∧
      2 * num ≤ 2 * (divNearestEven num den * den) + den := by
  have hdiv := Nat.div_add_mod' num den
  rcases divNearestEven_cases num den with ⟨hq, hmod⟩ | ⟨hq, hmod⟩
  · rw [hq]
    omega
  · have hmod' := Nat.mod_lt num hden
    rw [hq, Nat.add_one_mul (num / den)]
    omega

theorem le_divNearestEven (hden : 0 < den) (h : k * den ≤ num) : k ≤ divNearestEven num den := by
  have hk : k ≤ num / den := (Nat.le_div_iff_mul_le hden).mpr h
  rcases divNearestEven_cases num den with ⟨hq, -⟩ | ⟨hq, -⟩ <;> omega

theorem divNearestEven_le (hden : 0 < den) (h : num ≤ k * den) : divNearestEven num den ≤ k := by
  have hk : num / den ≤ k := Nat.div_le_of_le_mul (by rwa [Nat.mul_comm])
  rcases divNearestEven_cases num den with ⟨hq, -⟩ | ⟨hq, hmod⟩
  · omega
  · -- a quotient that is rounded up is not exact
    have hdiv := Nat.div_add_mod' num den
    have hne : num / den ≠ k := by
      rintro rfl
      omega
    omega

theorem divNearestEven_mul (hden : 0 < den) (k : Nat) : divNearestEven (k * den) den = k :=
  Nat.le_antisymm (divNearestEven_le hden (le_refl _)) (le_divNearestEven hden (le_refl _))

theorem divNearestEven_mul_cancel (hden : 0 < den) (h : den ∣ num) :
    divNearestEven num den * den = num := by
  obtain ⟨k, rfl⟩ := h
  rw [Nat.mul_comm den, divNearestEven_mul hden]

/-! ## The nearest double of a natural -/

/-- How far apart the doubles around a natural are. -/
def spacing (n : Nat) : Nat := 2 ^ (n.log2 - 52)

/-- The value of the double nearest to a natural. -/
def nearest (n : Nat) : Nat := divNearestEven n (spacing n) * spacing n

/-- The first 53 bits of a positive natural, rounded; it may reach the next power of two. -/
def mantissa (n : Nat) : Nat := divNearestEven (n * 2 ^ (52 - n.log2)) (2 ^ (n.log2 - 52))

/-- The magnitude bits of the double nearest to a natural. -/
def code (n : Nat) : Nat := if n = 0 then 0 else (n.log2 + 1022) * 2 ^ 52 + mantissa n

variable {n : Nat}

theorem spacing_pos (n : Nat) : 0 < spacing n := Nat.two_pow_pos _

/-- Shifted so that its first bit has the place `p`, a natural lies between two powers of two. -/
theorem shifted_bounds (hn : n ≠ 0) (p : Nat) :
    2 ^ p * 2 ^ (n.log2 - p) ≤ n * 2 ^ (p - n.log2) ∧
      n * 2 ^ (p - n.log2) ≤ 2 ^ (p + 1) * 2 ^ (n.log2 - p) := by
  have hpow (i : Nat) : 2 ^ (p + i) * 2 ^ (n.log2 - p) = 2 ^ (n.log2 + i) * 2 ^ (p - n.log2) := by
    rw [← Nat.pow_add, ← Nat.pow_add]
    congr 1
    omega
  rw [hpow 1]
  refine ⟨?_, Nat.mul_le_mul_right _ Nat.lt_log2_self.le⟩
  calc 2 ^ p * 2 ^ (n.log2 - p)
      = 2 ^ n.log2 * 2 ^ (p - n.log2) := hpow 0
    _ ≤ n * 2 ^ (p - n.log2) := Nat.mul_le_mul_right _ (Nat.log2_self_le hn)

theorem mantissa_bounds (hn : n ≠ 0) : 2 ^ 52 ≤ mantissa n ∧ mantissa n ≤ 2 ^ 53 := by
  obtain ⟨hlow, hhigh⟩ := shifted_bounds hn 52
  exact ⟨le_divNearestEven (Nat.two_pow_pos _) hlow, divNearestEven_le (Nat.two_pow_pos _) hhigh⟩

/-- The mantissa and the exponent give the value. -/
theorem nearest_mul (n : Nat) : nearest n * 2 ^ 52 = mantissa n * 2 ^ n.log2 := by
  rw [nearest, mantissa, spacing]
  rcases Nat.le_total n.log2 52 with hle | hge
  · have hpow : 2 ^ (52 - n.log2) * 2 ^ n.log2 = 2 ^ 52 := by
      rw [← Nat.pow_add, Nat.sub_add_cancel hle]
    have hone (k : Nat) : divNearestEven k 1 = k :=
      (Nat.mul_one _).symm.trans (divNearestEven_mul_cancel Nat.one_pos (Nat.one_dvd k))
    rw [Nat.sub_eq_zero_of_le hle, Nat.pow_zero, hone, hone, Nat.mul_one, Nat.mul_assoc, hpow]
  · have hpow : 2 ^ (n.log2 - 52) * 2 ^ 52 = 2 ^ n.log2 := by
      rw [← Nat.pow_add, Nat.sub_add_cancel hge]
    rw [Nat.sub_eq_zero_of_le hge, Nat.pow_zero, Nat.mul_one, Nat.mul_assoc, hpow]

/-- A mantissa that reaches the next power of two is encoded as if it had the next exponent. -/
theorem encoded_eq_iff {i j p q : Nat} (hp : 2 ^ 52 ≤ p ∧ p ≤ 2 ^ 53) (hq : 2 ^ 52 ≤ q ∧ q ≤ 2 ^ 53) :
    i * 2 ^ 52 + p = j * 2 ^ 52 + q ↔ p * 2 ^ i = q * 2 ^ j := by
  wlog hij : i ≤ j generalizing i j p q
  · rw [eq_comm, this hq hp (Nat.le_of_not_le hij), eq_comm]
  obtain ⟨d, rfl⟩ := Nat.exists_eq_add_of_le hij
  have hvalue : p * 2 ^ i = q * 2 ^ (i + d) ↔ p = q * 2 ^ d := by
    rw [Nat.pow_add, Nat.mul_comm (2 ^ i), ← Nat.mul_assoc]
    exact Nat.mul_left_inj (Nat.two_pow_pos i).ne'
  rw [hvalue]
  match d with
  | 0 => omega
  | 1 => omega
  | d + 2 =>
    -- two exponents apart neither the codes nor the values can meet
    have hfour : q * 4 ≤ q * 2 ^ (d + 2) :=
      Nat.mul_le_mul_left q (Nat.pow_le_pow_right (Nat.succ_pos 1) (Nat.le_add_left 2 d))
    omega

theorem nearest_zero : nearest 0 = 0 := by decide

theorem nearest_pos (hn : n ≠ 0) : 0 < nearest n := by
  have hpos : 0 < mantissa n * 2 ^ n.log2 :=
    Nat.mul_pos ((Nat.two_pow_pos 52).trans_le (mantissa_bounds hn).1) (Nat.two_pow_pos _)
  rw [← nearest_mul] at hpos
  exact Nat.pos_of_mul_pos_right hpos

theorem code_pos (hn : n ≠ 0) : 0 < code n := by
  rw [code, if_neg hn]
  have := (mantissa_bounds hn).1
  omega

/-- Naturals are encoded alike exactly when they are rounded to the same value. -/
theorem code_eq_iff (m n : Nat) : code m = code n ↔ nearest m = nearest n := by
  by_cases hm : m = 0 <;> by_cases hn : n = 0
  · rw [hm, hn]
    exact iff_of_true rfl rfl
  · rw [hm]
    exact iff_of_false (code_pos hn).ne (nearest_zero ▸ (nearest_pos hn).ne)
  · rw [hn]
    exact iff_of_false (code_pos hm).ne' (nearest_zero ▸ (nearest_pos hm).ne')
  · have hcode : code m = code n ↔ m.log2 * 2 ^ 52 + mantissa m = n.log2 * 2 ^ 52 + mantissa n := by
      rw [code, code, if_neg hm, if_neg hn]
      omega
    rw [hcode, encoded_eq_iff (mantissa_bounds hm) (mantissa_bounds hn), ← nearest_mul,
      ← nearest_mul]
    exact Nat.mul_left_inj (Nat.two_pow_pos 52).ne'

/-! ## The bits of an integer -/

theorem lastPlace_one (n : Nat) : lastPlace n 1 = (n.log2 : Int) - 53 := by
  have hone : Nat.log2 1 = 0 := by decide
  rw [lastPlace, hone]
  omega

theorem code_lt (hn : n < 2 ^ 64) : code n < infinityBits := by
  by_cases hzero : n = 0
  · rw [hzero]
    decide
  · have hlog : n.log2 < 64 := (Nat.log2_lt hzero).mpr hn
    have hmantissa := (mantissa_bounds hzero).2
    rw [code, if_neg hzero]
    simp only [infinityBits, Nat.pow_eq]
    omega

theorem ofRatio_one (negative : Bool) (hn : n < 2 ^ 64) :
    ofRatio negative n 1 = ofMagnitude negative (code n) := by
  by_cases hzero : n = 0
  · rw [hzero]
    rfl
  · have hlt := code_lt hn
    rw [code, if_neg hzero] at hlt
    -- the first guess of the last place leaves 54 bits, so the next one is taken
    have hwide : 2 ^ 53 ≤ n * 2 ^ (53 - n.log2) / 2 ^ (n.log2 - 53) :=
      (Nat.le_div_iff_mul_le (Nat.two_pow_pos _)).mpr (shifted_bounds hzero 53).1
    have hup : ((n.log2 : Int) - 53).toNat = n.log2 - 53 := by omega
    have hdown : (-((n.log2 : Int) - 53)).toNat = 53 - n.log2 := by omega
    have hup' : ((n.log2 : Int) - 53 + 1).toNat = n.log2 - 52 := by omega
    have hdown' : (-((n.log2 : Int) - 53 + 1)).toNat = 52 - n.log2 := by omega
    have hexponent : ((n.log2 : Int) - 53 + 1 + 1074).toNat = n.log2 + 1022 := by omega
    rw [ofRatio, if_neg (by omega), lastPlace_one, code, if_neg hzero, mantissa]
    simp only [powerOfTwo, Nat.pow_eq, Nat.one_mul, hup, hdown, if_pos hwide, hup', hdown', hexponent]
    rw [← mantissa, Nat.min_eq_left hlt.le]

theorem magnitude_ofMagnitude (negative : Bool) {m : Nat} (hm : m < 2 ^ 63) :
    (ofMagnitude negative m).magnitude = m ∧ (ofMagnitude negative m).isNegative = negative := by
  have hbits : (ofMagnitude negative m).bits.toNat = (if negative then 2 ^ 63 else 0) + m := by
    refine UInt64.toNat_ofNat_of_lt' ?_
    show (if negative then 2 ^ 63 else 0) + m < 2 ^ 64
    cases negative <;> simp only [if_true, Bool.false_eq_true, if_false] <;> omega
  rw [magnitude, isNegative, hbits]
  cases negative <;> simp only [Nat.pow_eq, if_true, Bool.false_eq_true, if_false, decide_eq_true_eq,
    decide_eq_false_iff_not] <;> omega

/-! ## Comparing integers -/

/-- The value of the double nearest to an integer. -/
def nearestInt (a : Int) : Int := if a < 0 then -(nearest a.natAbs : Int) else nearest a.natAbs

/-- The double nearest to an integer is no NaN, and its order key is the code of its magnitude. -/
theorem orderKey_ofInt {a : Int} (ha : a.natAbs < 2 ^ 64) : (ofInt a).isNaN = false ∧
    (ofInt a).orderKey = if a < 0 then -(code a.natAbs : Int) else code a.natAbs := by
  have hcode := code_lt ha
  have hsmall : code a.natAbs < 2 ^ 63 := hcode.trans (by decide)
  obtain ⟨hmagnitude, hnegative⟩ := magnitude_ofMagnitude (decide (a < 0)) hsmall
  rw [ofInt, ofRatio_one _ ha, isNaN, orderKey, hmagnitude, hnegative]
  refine ⟨decide_eq_false hcode.asymm, ?_⟩
  by_cases hsign : a < 0 <;> simp only [hsign, decide_true, decide_false, if_true, if_false,
    Bool.false_eq_true]

/-- Numeric equality of integers is equality of what they are rounded to. -/
theorem numericEq_ofInt {a b : Int} (ha : a.natAbs < 2 ^ 64) (hb : b.natAbs < 2 ^ 64) :
    (ofInt a).numericEq (ofInt b) = true ↔ nearestInt a = nearestInt b := by
  obtain ⟨hnan, hkey⟩ := orderKey_ofInt ha
  obtain ⟨hnan', hkey'⟩ := orderKey_ofInt hb
  have hcompare : (ofInt a).numericEq (ofInt b) = true ↔ (ofInt a).orderKey = (ofInt b).orderKey := by
    rw [numericEq, compare?, hnan, hnan', Bool.or_false, if_neg Bool.false_ne_true, beq_iff_eq,
      Option.some_inj, compare_eq_iff_eq]
  rw [hcompare, hkey, hkey', nearestInt, nearestInt]
  have hcode := code_eq_iff a.natAbs b.natAbs
  -- of different signs only zeros are equal, and a negative integer is not rounded to zero
  by_cases hsign : a < 0 <;> by_cases hsign' : b < 0 <;>
    simp only [hsign, hsign', if_true, if_false]
  · omega
  · have := code_pos (n := a.natAbs) (by omega)
    have := nearest_pos (n := a.natAbs) (by omega)
    omega
  · have := code_pos (n := b.natAbs) (by omega)
    have := nearest_pos (n := b.natAbs) (by omega)
    omega
  · omega

/-! ## Exact integers -/

/-- Where the doubles are no further apart than the number is divisible, the number is a double. -/
theorem nearest_eq_self_iff : nearest n = n ↔ spacing n ∣ n :=
  ⟨fun h => Dvd.intro_left _ h, divNearestEven_mul_cancel (spacing_pos n)⟩

theorem nearest_mul_two_pow {q : Nat} (hq : q ≤ 2 ^ 53) (k : Nat) :
    nearest (q * 2 ^ k) = q * 2 ^ k := by
  rw [nearest_eq_self_iff, spacing]
  rcases hq.eq_or_lt with rfl | hlt
  · rw [← Nat.pow_add, Nat.log2_two_pow]
    exact Nat.pow_dvd_pow 2 (by omega)
  · have hlog : (q * 2 ^ k).log2 ≤ 52 + k := by
      by_cases hzero : q * 2 ^ k = 0
      · rw [hzero]
        exact Nat.zero_le _
      · have hbound : q * 2 ^ k < 2 ^ (53 + k) := by
          rw [Nat.pow_add]
          exact Nat.mul_lt_mul_of_pos_right hlt (Nat.two_pow_pos k)
        have := (Nat.log2_lt hzero).mpr hbound
        omega
    exact (Nat.pow_dvd_pow 2 (by omega)).trans (Nat.dvd_mul_left _ _)

theorem nearest_of_le (h : n ≤ 2 ^ 53) : nearest n = n := by
  simpa using nearest_mul_two_pow h 0

/-- A rounded number is a double. -/
theorem nearest_nearest (n : Nat) : nearest (nearest n) = nearest n := by
  refine nearest_mul_two_pow (divNearestEven_le (spacing_pos n) ?_) _
  by_cases hn : n = 0
  · rw [hn]
    exact Nat.zero_le _
  · exact (Nat.le_mul_of_pos_right n (Nat.two_pow_pos _)).trans (shifted_bounds hn 52).2

/-- Rounding does not cross `2 ^ 53`. -/
theorem le_nearest (h : 2 ^ 53 ≤ n) : 2 ^ 53 ≤ nearest n := by
  have hn : n ≠ 0 := by omega
  -- 53 bits of the number are kept, and at least one is dropped
  have hlog : 53 ≤ n.log2 := (Nat.le_log2 hn).mpr h
  have hlow := (shifted_bounds hn 52).1
  rw [Nat.sub_eq_zero_of_le (by omega : 52 ≤ n.log2), Nat.pow_zero, Nat.mul_one] at hlow
  calc 2 ^ 53 = 2 ^ 52 * 2 ^ 1 := by decide
    _ ≤ divNearestEven n (spacing n) * spacing n :=
      Nat.mul_le_mul (le_divNearestEven (spacing_pos n) hlow)
        (Nat.pow_le_pow_right (by decide) (by omega))

theorem eq_of_nearest_eq {m : Nat} (hm : m < 2 ^ 53) (h : nearest m = nearest n) : m = n := by
  rw [nearest_of_le hm.le] at h
  rcases Nat.le_total n (2 ^ 53) with hle | hge
  · rwa [nearest_of_le hle] at h
  · have := le_nearest hge
    omega

variable {a b : Int}

theorem natAbs_nearestInt (a : Int) : (nearestInt a).natAbs = nearest a.natAbs := by
  unfold nearestInt
  split <;> omega

theorem nearestInt_eq_self_iff : nearestInt a = a ↔ spacing a.natAbs ∣ a.natAbs := by
  rw [← nearest_eq_self_iff, nearestInt]
  split <;> omega

theorem nearestInt_nearestInt (a : Int) : nearestInt (nearestInt a) = nearestInt a := by
  rw [nearestInt_eq_self_iff, ← nearest_eq_self_iff, natAbs_nearestInt, nearest_nearest]

theorem nearestInt_near (a : Int) : 2 * (a - nearestInt a).natAbs ≤ spacing a.natAbs := by
  have hnear := divNearestEven_near a.natAbs (spacing_pos a.natAbs)
  rw [← nearest] at hnear
  unfold nearestInt
  split <;> omega

theorem eq_of_nearestInt_eq (ha : a.natAbs < 2 ^ 53) (h : nearestInt a = nearestInt b) : a = b := by
  have habs : a.natAbs = b.natAbs := by
    refine eq_of_nearest_eq ha ?_
    rw [← natAbs_nearestInt, ← natAbs_nearestInt, h]
  have hpos (hzero : a.natAbs ≠ 0) := nearest_pos hzero
  rw [nearestInt, nearestInt, ← habs] at h
  split at h <;> split at h <;> omega

end Binary64

namespace Json

open Binary64

/-- The integers that data can hold. -/
def IntegerRange (a : Int) : Prop := -2 ^ 63 ≤ a ∧ a < 2 ^ 64

instance (a : Int) : Decidable (IntegerRange a) := inferInstanceAs (Decidable (_ ∧ _))

theorem IntegerRange.natAbs_lt {a : Int} (h : IntegerRange a) : a.natAbs < 2 ^ 64 := by
  obtain ⟨hlow, hhigh⟩ := h
  omega

theorem strictEq_int {a b : Int} (ha : IntegerRange a) (hb : IntegerRange b) :
    (Json.int a).strictEq (.int b) = decide (nearestInt a = nearestInt b) := by
  rw [Bool.eq_iff_iff, decide_eq_true_iff]
  exact numericEq_ofInt ha.natAbs_lt hb.natAbs_lt

/-- Two integers are equal to a condition exactly when the doubles nearest to them are the same one;
`==`, `!=` and `in` go by this.  An integer is its own nearest double exactly when the distance of
the doubles around it divides it, and two such integers are equal only if they are the same, and so
are two integers one of which is below `2 ^ 53`.  Others may be confused with their neighbours, but
with none that is further away than the doubles around it are from each other, and each integer
that is not a double is confused with the double it is rounded to. -/
theorem strictEq_int_iff_nearest {a b : Int} (ha : IntegerRange a) (hb : IntegerRange b) :
    ((Json.int a).strictEq (.int b) = true ↔ nearestInt a = nearestInt b) ∧
    BinaryOp.apply .eq (.int a) (.int b) = .bool (decide (nearestInt a = nearestInt b)) ∧
    BinaryOp.apply .ne (.int a) (.int b) = .bool (decide (nearestInt a ≠ nearestInt b)) ∧
    (∀ ids : List Int, (∀ id ∈ ids, IntegerRange id) →
      BinaryOp.apply .isIn (.int a) (.arr (ids.map .int)) =
        .bool (decide (∃ id ∈ ids, nearestInt a = nearestInt id))) ∧
    (nearestInt a = a ↔ spacing a.natAbs ∣ a.natAbs) ∧
    (nearestInt a = a ∧ nearestInt b = b ∨ a.natAbs < 2 ^ 53 ∨ b.natAbs < 2 ^ 53 →
      ((Json.int a).strictEq (.int b) = true ↔ a = b)) ∧
    ((Json.int a).strictEq (.int b) = true →
      2 * (a - b).natAbs ≤ spacing a.natAbs + spacing b.natAbs) ∧
    (IntegerRange (nearestInt a) → (Json.int a).strictEq (.int (nearestInt a)) = true) := by
  have hiff : (Json.int a).strictEq (.int b) = true ↔ nearestInt a = nearestInt b := by
    rw [strictEq_int ha hb, decide_eq_true_iff]
  refine ⟨hiff, ?_, ?_, fun ids hids => ?_, nearestInt_eq_self_iff, fun hexact => ?_, fun h => ?_,
    fun hrange => ?_⟩
  · rw [BinaryOp.apply, strictEq_int ha hb]
  · rw [BinaryOp.apply, strictEq_int ha hb, decide_not]
  · rw [BinaryOp.apply, isItemOf, List.any_map]
    congr 1
    rw [Bool.eq_iff_iff, decide_eq_true_iff, List.any_eq_true]
    refine exists_congr fun id => and_congr_right fun hid => ?_
    rw [Function.comp_apply, strictEq_int ha (hids id hid), decide_eq_true_iff]
  · rw [hiff]
    refine ⟨fun h => ?_, congrArg nearestInt⟩
    rcases hexact with ⟨ha', hb'⟩ | ha' | hb'
    · rwa [ha', hb'] at h
    · exact eq_of_nearestInt_eq ha' h
    · exact (eq_of_nearestInt_eq hb' h.symm).symm
  · -- both lie around the double that they are rounded to
    have hnear := nearestInt_near a
    have hnear' := nearestInt_near b
    rw [hiff.mp h] at hnear
    omega
  · rw [strictEq_int ha hrange, nearestInt_nearestInt, decide_eq_true_iff]

/-- The largest integer of data is told apart from a small one, and the first integer that is no
double is confused with its neighbour. -/
theorem strictEq_int_iff_nearest_large :
    (Json.int (2 ^ 64 - 1)).strictEq (.int 42) = false ∧
      (Json.int (2 ^ 53 + 1)).strictEq (.int (nearestInt (2 ^ 53 + 1))) = true ∧
      nearestInt (2 ^ 53 + 1) = 2 ^ 53 := by
  have hlarge : IntegerRange (2 ^ 64 - 1) := by decide
  have hsmall : IntegerRange 42 := by decide
  have hodd : IntegerRange (2 ^ 53 + 1) := by decide
  obtain ⟨-, -, -, -, -, hexact, -⟩ := strictEq_int_iff_nearest hlarge hsmall
  obtain ⟨-, -, -, -, -, -, -, hconfused⟩ := strictEq_int_iff_nearest hodd hsmall
  refine ⟨?_, hconfused (by decide), by decide⟩
  rw [← Bool.not_eq_true, hexact (by decide)]
  decide

/-- Two integers of data that are one apart are equal to `==`, to `!=` and to `in`; only inside of
arrays they are told apart. -/
theorem strictEq_int_confuses :
    let a : Int := 9007199254740992
    let b : Int := 9007199254740993
    IntegerRange a ∧ IntegerRange b ∧ a ≠ b ∧ (Json.int a).strictEq (.int b) = true ∧
      BinaryOp.apply .eq (.int a) (.int b) = .bool true ∧
      BinaryOp.apply .ne (.int a) (.int b) = .bool false ∧
      BinaryOp.apply .isIn (.int a) (.arr [.int b]) = .bool true ∧
      (Json.arr [.int a]).strictEq (.arr [.int b]) = false := by
  refine ⟨by decide, by decide, by decide, by decide, ?_, ?_, ?_, by decide⟩ <;> rfl

end Json

end AccessPolicy
