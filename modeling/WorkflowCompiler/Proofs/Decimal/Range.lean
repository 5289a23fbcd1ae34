import Mathlib
import WorkflowCompiler.Proofs.Decimal.Shortest

/-! # The range of the integers that have a number

An integer has a nearest binary64 number as long as it lies closer to the largest finite number than
to the power of two behind it. A tie goes to the power of two, so that the integer halfway has none.
-/
namespace WorkflowCompiler.Decimal

/-- The least natural number that is rounded beyond the finite numbers. -/
def overflowBound : Nat := 2 ^ 1024 - 2 ^ 970

theorem overflowBound_eq : overflowBound = (2 * 2 ^ 53 - 1) * 2 ^ 970 := by
  rw [overflowBound, Nat.sub_mul, one_mul, ← pow_succ', ← pow_add]

theorem pow2_eq (k : Nat) : pow2 k = 2 ^ k := rfl

theorem exponentFor_one {num : Nat} (h : num ≠ 0) :
    exponentFor num 1 = (num.log2 : Int) - 52 := by
  have hlow : 2 ^ num.log2 ≤ num := Nat.log2_self_le h
  have hbits : ¬(unscale num 1 ((num.log2 : Int) - 52)).1 <
      (unscale num 1 ((num.log2 : Int) - 52)).2 * pow2 52 := by
    rw [Nat.not_lt, unscale]
    split
    next hsign =>
      have hexponent : ((num.log2 : Int) - 52).toNat + 52 = num.log2 := by omega
      calc 1 * pow2 ((num.log2 : Int) - 52).toNat * pow2 52
          = 2 ^ num.log2 := by rw [one_mul, pow2_eq, pow2_eq, ← pow_add, hexponent]
        _ ≤ num := hlow
    next hsign =>
      have hexponent : num.log2 + (-((num.log2 : Int) - 52)).toNat = 52 := by omega
      calc 1 * pow2 52
          = 2 ^ num.log2 * pow2 (-((num.log2 : Int) - 52)).toNat := by
            rw [one_mul, pow2_eq, pow2_eq, ← pow_add, hexponent]
        _ ≤ num * pow2 (-((num.log2 : Int) - 52)).toNat := Nat.mul_le_mul_right _ hlow
  have hone : Nat.log2 1 = 0 := by decide
  simp only [exponentFor, hone, Nat.cast_zero, sub_zero, if_neg hbits]
  omega

theorem pack?_eq_none_iff {mantissa : Nat} {e : Int} : pack? mantissa e = none ↔ 971 < e := by
  unfold pack?
  split
  next h => exact iff_of_true rfl h
  next h => exact iff_of_false (by split <;> nofun) h

/-- There is no number when the exponent is too large, also where rounding makes it so. -/
theorem packRounded?_eq_none_iff {rounded : Nat} {e : Int} :
    packRounded? rounded e = none ↔ 971 < e ∨ e = 971 ∧ rounded = pow2 53 := by
  unfold packRounded?
  split
  next h =>
    rw [pack?_eq_none_iff]
    simp only [h, and_true]
    omega
  next h => simp [pack?_eq_none_iff, h]

theorem roundDiv_eq_iff {num a Q : Nat} (ha : 0 < a) (hQ : Q % 2 = 0) (hlt : num < Q * (2 * a)) :
    roundDiv num (2 * a) = Q ↔ (2 * Q - 1) * a ≤ num := by
  have hdiv : num / (2 * a) < Q := Nat.div_lt_of_lt_mul (by rwa [mul_comm])
  have hmod : num % (2 * a) < 2 * a := Nat.mod_lt _ (by omega)
  have hsum := Nat.div_add_mod num (2 * a)
  unfold roundDiv
  generalize num / (2 * a) = q at *
  generalize num % (2 * a) = r at *
  -- only the last quotient below the bound can be rounded up to it
  by_cases hlast : q + 1 = Q
  · subst hlast
    have hbound : (2 * (q + 1) - 1) * a = 2 * a * q + a := by
      rw [show 2 * (q + 1) - 1 = 2 * q + 1 by omega]
      ring
    rw [hbound]
    simp only
    split
    · omega
    split
    · omega
    · omega
  · have hless : q + 2 ≤ Q := by omega
    have hproduct : 2 * a * (q + 2) ≤ 2 * a * Q := Nat.mul_le_mul_left _ hless
    have hbound : (2 * Q - 1) * a + a = 2 * a * Q := by
      rw [← Nat.succ_mul, show (2 * Q - 1).succ = 2 * Q by omega]
      ring
    rw [mul_add] at hproduct
    simp only
    split
    · omega
    split
    · omega
    · omega

theorem roundAt_971 (num : Nat) : roundAt num 1 971 = roundDiv num (2 * 2 ^ 970) := by
  have hexponent : (971 : Int).toNat = 970 + 1 := rfl
  rw [roundAt, unscale, if_pos (by decide), one_mul, hexponent, pow2_eq, pow_succ']

theorem nearestBits?_eq_none_iff {num : Nat} (h : num ≠ 0) :
    nearestBits? num 1 = none ↔ overflowBound ≤ num := by
  have hlow : 2 ^ num.log2 ≤ num := Nat.log2_self_le h
  have hhigh : num < 2 ^ (num.log2 + 1) := Nat.lt_log2_self
  have hpow : ∀ {m n : Nat}, m ≤ n → 2 ^ m ≤ 2 ^ n := Nat.pow_le_pow_right (by decide)
  rw [nearestBits?, packRounded?_eq_none_iff, exponentFor_one h]
  rcases Nat.lt_trichotomy num.log2 1023 with hless | heq | hmore
  · have hsmall : num < overflowBound := calc
      num < 2 ^ 1023 := hhigh.trans_le (hpow hless)
      _ = 2 ^ 53 * 2 ^ 970 := by rw [← pow_add]
      _ ≤ overflowBound := by
        rw [overflowBound_eq]
        exact Nat.mul_le_mul_right _ (by norm_num)
    exact iff_of_false (by omega) (Nat.not_le.mpr hsmall)
  · -- the exponent is the largest one, and rounding decides
    have hbelow : num < 2 ^ 53 * (2 * 2 ^ 970) := calc
      num < 2 ^ (1023 + 1) := heq ▸ hhigh
      _ = 2 ^ 53 * (2 * 2 ^ 970) := by rw [← pow_succ', ← pow_add]
    rw [heq, overflowBound_eq, ← roundDiv_eq_iff (by positivity) (by norm_num) hbelow,
      ← roundAt_971, ← pow2_eq]
    exact ⟨fun h => (h.resolve_left (by decide)).2, fun h => Or.inr ⟨rfl, h⟩⟩
  · have hlarge : overflowBound ≤ num := calc
      overflowBound ≤ 2 ^ 1024 := Nat.sub_le (2 ^ 1024) (2 ^ 970)
      _ ≤ 2 ^ num.log2 := hpow hmore
      _ ≤ num := hlow
    exact iff_of_true (Or.inl (by omega)) hlarge

/-- An integer has a nearest number unless its amount reaches the bound. -/
theorem ofInt?_eq_none_iff (n : Int) : ofInt? n = none ↔ overflowBound ≤ n.natAbs := by
  rw [ofInt?, nearest?, Option.map_eq_none_iff]
  split
  next h =>
    rw [h, overflowBound_eq]
    exact iff_of_false nofun (Nat.not_le.mpr (by positivity))
  next h => exact nearestBits?_eq_none_iff h

end WorkflowCompiler.Decimal
