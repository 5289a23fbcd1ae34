import Mathlib
import WorkflowCompiler.Decimal.Shortest

/-! # Shortest decimals are numerals

A finite number is never written without digits: on a grid of eighteen digits the decimal next to a
number lies so close to it that it reads back as that number, and no decimal that reads back as a
positive number is zero. So the text of a finite number is a numeral. The other numbers are
infinite or not numbers at all.
-/
namespace WorkflowCompiler.Decimal
open Float.Model

/-! ## Bits -/

theorem beq_self_unpacked (u : UnpackedFloat) : u.beq u = true ↔ u ≠ .notANumber := by
  cases u with
  | infinity s => cases s <;> simp [UnpackedFloat.beq, UnpackedFloat.compare] <;> decide
  | notANumber => simp [UnpackedFloat.beq, UnpackedFloat.compare]
  | zero s => simp [UnpackedFloat.beq, UnpackedFloat.compare]
  | finite s m e h => cases s <;> simp [UnpackedFloat.beq, UnpackedFloat.compare]

theorem isNaN_iff_unpack (x : Float) : isNaN x = true ↔ x.toModel.unpack = .notANumber := by
  have hbeq : (x == x) = x.toModel.unpack.beq x.toModel.unpack := rfl
  rw [isNaN, hbeq, Bool.not_eq_true', ← Bool.not_eq_true, beq_self_unpacked, ne_eq, not_not]

theorem toNat_unpackExponent (bits : UInt64) :
    (@UnpackedFloat.unpackExponent Format.binary64 bits.toBitVec).toNat =
      bits.toNat / pow2 52 % 2048 := by
  simp [UnpackedFloat.unpackExponent, Nat.shiftRight_eq_div_pow, pow2]

theorem toNat_unpackMantissa (bits : UInt64) :
    (@UnpackedFloat.unpackMantissa Format.binary64 bits.toBitVec).toNat = bits.toNat % pow2 52 := by
  simp [UnpackedFloat.unpackMantissa, pow2]

theorem isNaN_iff (x : Float) : isNaN x = true ↔ 2047 * pow2 52 < x.toBits.toNat % pow2 63 := by
  have hexponent := toNat_unpackExponent x.toBits
  have hmantissa := toNat_unpackMantissa x.toBits
  have hlast : (-1#11).toNat = 2047 := by decide
  have hunpack : x.toModel.unpack = .notANumber ↔
      @UnpackedFloat.unpackExponent Format.binary64 x.toBits.toBitVec = -1#11 ∧
        @UnpackedFloat.unpackMantissa Format.binary64 x.toBits.toBitVec ≠ 0#52 := by
    have hbits : x.toModel.toBits = x.toBits := rfl
    simp only [Float.Model.unpack, UnpackedFloat.unpack, hbits]
    split
    · split <;> simp_all
    · split
      · split <;> simp_all
      · simp_all
  rw [isNaN_iff_unpack, hunpack, ne_eq, ← BitVec.toNat_inj, ← BitVec.toNat_inj, hexponent,
    hmantissa, hlast, BitVec.toNat_ofNat]
  simp only [pow2, Nat.reducePow, Nat.pow_eq]
  have hlt : x.toBits.toNat < 2 ^ 64 := x.toBits.toNat_lt
  omega

theorem isNaN_eq_false_of_isFinite {x : Float} (h : isFinite x = true) : isNaN x = false := by
  rw [isFinite, decide_eq_true_iff] at h
  rw [← Bool.not_eq_true, isNaN_iff]
  exact Nat.not_lt.mpr h.le

theorem isInfinite_eq_false_of_isFinite {x : Float} (h : isFinite x = true) :
    isInfinite x = false := by
  rw [isFinite, decide_eq_true_iff] at h
  rw [isInfinite, decide_eq_false_iff_not]
  exact h.ne

theorem isNaN_or_isInfinite {x : Float} (h : isFinite x = false) :
    isNaN x = true ∨ isInfinite x = true := by
  rw [isFinite, decide_eq_false_iff_not, Nat.not_lt] at h
  rw [isNaN_iff, isInfinite, decide_eq_true_iff]
  exact h.lt_or_eq.imp id Eq.symm

theorem magnitude_lt (x : Float) : (magnitude x).1 < 2 ^ 53 := by
  simp only [magnitude]
  split <;> simp only [pow2, Nat.pow_eq] <;> omega

theorem le_magnitude (x : Float) : -1074 ≤ (magnitude x).2 := by
  simp only [magnitude]
  split
  · exact le_rfl
  · simp only
    omega

/-! ## Fractions as rational numbers -/

theorem pow2_pos (k : Nat) : 0 < pow2 k := Nat.pow_pos (by norm_num)

theorem pow10_pos (k : Nat) : 0 < pow10 k := Nat.pow_pos (by norm_num)

theorem cast_pow2 (k : Nat) : (pow2 k : ℚ) = 2 ^ k := by simp [pow2]

theorem cast_pow10 (k : Nat) : (pow10 k : ℚ) = 10 ^ k := by simp [pow10]

theorem scale_pos (n : Nat) (e : Int) : 0 < (scale n e).2 := by
  unfold scale
  split
  · exact Nat.one_pos
  · exact pow2_pos _

theorem scale_eq (n : Nat) (e : Int) :
    ((scale n e).1 : ℚ) / (scale n e).2 = n * 2 ^ e := by
  unfold scale
  split
  next h =>
    lift e to Nat using h
    simp [cast_pow2]
  next h =>
    obtain ⟨k, rfl⟩ : ∃ k : Nat, e = -k := ⟨e.natAbs, by omega⟩
    simp [cast_pow2, div_eq_mul_inv]

theorem decimal_fraction (c : Nat) (k : Int) :
    ∃ num den : Nat, (if 0 ≤ k then (c * pow10 k.toNat, 1) else (c, pow10 (-k).toNat)) = (num, den) ∧
      0 < den ∧ (num : ℚ) / den = c * 10 ^ k := by
  split
  next h =>
    lift k to Nat using h
    exact ⟨_, _, rfl, Nat.one_pos, by simp [cast_pow10]⟩
  next h =>
    obtain ⟨j, rfl⟩ : ∃ j : Nat, k = -j := ⟨k.natAbs, by omega⟩
    exact ⟨_, _, rfl, pow10_pos _, by simp [cast_pow10, div_eq_mul_inv]⟩

theorem Interval.has_of_lt {i : Interval} {e k : Int} {c : Nat}
    (hlow : (i.low : ℚ) * 2 ^ e < c * 10 ^ k) (hhigh : (c : ℚ) * 10 ^ k < i.high * 2 ^ e) :
    i.has e c k = true := by
  obtain ⟨cn, cd, hfraction, hcd, hc⟩ := decimal_fraction c k
  have hld := scale_pos i.low e
  have hhd := scale_pos i.high e
  rw [← scale_eq i.low e, ← hc, div_lt_div_iff₀ (by exact_mod_cast hld) (by exact_mod_cast hcd)] at hlow
  rw [← scale_eq i.high e, ← hc, div_lt_div_iff₀ (by exact_mod_cast hcd) (by exact_mod_cast hhd)] at hhigh
  have hlow' : (scale i.low e).1 * cd < cn * (scale i.low e).2 := by exact_mod_cast hlow
  have hhigh' : cn * (scale i.high e).2 < (scale i.high e).1 * cd := by exact_mod_cast hhigh
  simp only [Interval.has, hfraction]
  split <;> simp [hlow', hhigh', hlow'.le, hhigh'.le]

theorem Interval.ne_zero_of_has {i : Interval} (hi : 0 < i.low) {e k : Int} {c : Nat}
    (h : i.has e c k = true) : c ≠ 0 := by
  rintro rfl
  obtain ⟨cn, cd, hfraction, hcd, hc⟩ := decimal_fraction 0 k
  have hcn : cn = 0 := by
    have hzero : (cn : ℚ) / cd = 0 := by simpa using hc
    have hden : (cd : ℚ) ≠ 0 := by exact_mod_cast hcd.ne'
    exact_mod_cast (div_eq_zero_iff.mp hzero).resolve_right hden
  have hln : 0 < (scale i.low e).1 := by
    unfold scale
    split
    · exact Nat.mul_pos hi (pow2_pos _)
    · exact hi
  have hpos : 0 < (scale i.low e).1 * cd := Nat.mul_pos hln hcd
  simp only [Interval.has, hfraction, hcn] at h
  rw [Nat.zero_mul] at h
  split at h
  · rw [Bool.and_eq_true, decide_eq_true_iff] at h
    omega
  · rw [Bool.and_eq_true, decide_eq_true_iff] at h
    omega

/-! ## A hit on the last grid -/

theorem intervalOf_low_pos {m : Nat} (hm : 0 < m) (q : Int) : 0 < (intervalOf m q).low := by
  simp only [intervalOf]
  split <;> omega

theorem le_roundDiv (num den : Nat) : num / den ≤ roundDiv num den := by
  simp only [roundDiv]
  split
  · exact le_rfl
  · split <;> omega

theorem grid_fraction (m : Nat) (q k : Int) :
    ∃ n d : Nat, (if 0 ≤ k then ((scale m q).1, (scale m q).2 * pow10 k.toNat)
        else ((scale m q).1 * pow10 (-k).toNat, (scale m q).2)) = (n, d) ∧
      0 < d ∧ (n : ℚ) / d = m * 2 ^ q / 10 ^ k := by
  have hscale := scale_eq m q
  have hpos := scale_pos m q
  split
  next h =>
    lift k to Nat using h
    refine ⟨_, _, rfl, Nat.mul_pos hpos (pow10_pos _), ?_⟩
    simp [cast_pow10, ← hscale, div_div]
  next h =>
    obtain ⟨j, rfl⟩ : ∃ j : Nat, k = -j := ⟨k.natAbs, by omega⟩
    refine ⟨_, _, rfl, hpos, ?_⟩
    simp [cast_pow10, ← hscale, div_mul_eq_mul_div]

theorem ne_zero_of_candidate? {m : Nat} (hm : 0 < m) {q k : Int} {c : Nat}
    (h : candidate? (intervalOf m q) m q k = some c) : c ≠ 0 := by
  have hlow := intervalOf_low_pos hm q
  obtain ⟨n, d, hgrid, -, -⟩ := grid_fraction m q k
  simp only [candidate?, hgrid] at h
  split at h
  next hbelow _ =>
    cases h
    have hpos := Nat.pos_of_ne_zero (Interval.ne_zero_of_has hlow hbelow)
    exact (hpos.trans_le (le_roundDiv n d)).ne'
  next hbelow _ =>
    cases h
    exact Interval.ne_zero_of_has hlow hbelow
  next =>
    cases h
    exact Nat.succ_ne_zero _
  next => cases h

/-- On a grid finer than a quarter of the last place the point below a number reads back as it. -/
theorem isSome_candidate? {m : Nat} {q k : Int} (hm : 0 < m) (hk : 4 * (10 : ℚ) ^ k < 2 ^ q) :
    (candidate? (intervalOf m q) m q k).isSome := by
  obtain ⟨n, d, hgrid, hd, hvalue⟩ := grid_fraction m q k
  have hd' : (0 : ℚ) < d := by exact_mod_cast hd
  have hten : (0 : ℚ) < 10 ^ k := by positivity
  have htwo : (0 : ℚ) < 2 ^ q := by positivity
  have hunit : (2 : ℚ) ^ (q - 2) = 2 ^ q / 4 := by
    rw [zpow_sub₀ two_ne_zero]
    norm_num
  have hle : ((n / d : Nat) : ℚ) * 10 ^ k ≤ m * 2 ^ q := by
    rw [← le_div_iff₀ hten, ← hvalue]
    exact Nat.cast_div_le
  have hlt : (m : ℚ) * 2 ^ q < ((n / d : Nat) + 1) * 10 ^ k := by
    rw [← div_lt_iff₀ hten, ← hvalue, div_lt_iff₀ hd']
    exact_mod_cast (Nat.div_lt_iff_lt_mul hd).mp (Nat.lt_succ_self (n / d))
  have hlow : ((intervalOf m q).low : ℚ) ≤ 4 * m - 1 := by
    have : (intervalOf m q).low + 1 ≤ 4 * m := by
      simp only [intervalOf]
      split <;> omega
    have : ((intervalOf m q).low : ℚ) + 1 ≤ 4 * m := by exact_mod_cast this
    linarith
  have hhas : (intervalOf m q).has (q - 2) (n / d) k = true := by
    refine Interval.has_of_lt ?_ ?_
    · rw [hunit]
      nlinarith
    · have hhigh : ((intervalOf m q).high : ℚ) = 4 * m + 2 := by simp [intervalOf]
      rw [hunit, hhigh]
      nlinarith
  simp only [candidate?, hgrid, hhas]
  split <;> simp_all

theorem digits_search_ne_zero {i : Interval} {m : Nat} {q : Int}
    (hhit : ∀ k c, candidate? i m q k = some c → c ≠ 0) {fuel : Nat} {k : Int}
    (hlast : (candidate? i m q (k - fuel)).isSome) : (search i m q fuel k).digits ≠ 0 := by
  induction fuel generalizing k with
  | zero =>
    rw [Nat.cast_zero, sub_zero] at hlast
    obtain ⟨c, hc⟩ := Option.isSome_iff_exists.mp hlast
    simp only [search, hc, Option.getD_some]
    exact hhit k c hc
  | succ fuel ih =>
    cases hc : candidate? i m q k with
    | some c =>
      simp only [search, hc]
      exact hhit k c hc
    | none =>
      simp only [search, hc]
      refine ih ?_
      rwa [Nat.cast_succ, ← sub_sub, sub_right_comm] at hlast

theorem le_leadingZeros {fuel num den : Nat} (h : den ≤ num * 10 ^ fuel) :
    den ≤ num * 10 ^ (leadingZeros fuel num den + 1) := by
  induction fuel generalizing num with
  | zero =>
    rw [leadingZeros]
    omega
  | succ fuel ih =>
    rw [leadingZeros]
    split
    next hle => simpa using hle
    next =>
      rw [pow_succ', ← Nat.mul_assoc]
      refine ih ?_
      rwa [Nat.mul_assoc, ← pow_succ']

theorem pow_place_le {num den : Nat} (hden : 0 < den) (h : den ≤ num * 10 ^ 400) :
    (10 : ℚ) ^ (place num den - 1) ≤ num / den := by
  have hden' : (0 : ℚ) < den := by exact_mod_cast hden
  unfold place
  split
  next hle =>
    have hpos : 0 < num / den := Nat.div_pos hle hden
    have hlength := @Nat.length_toDigits_pos 10 (num / den)
    obtain ⟨l, hl⟩ : ∃ l, (Nat.toDigits 10 (num / den)).length = l + 1 := ⟨_, (Nat.succ_pred hlength.ne').symm⟩
    have hdigits : 10 ^ l ≤ num / den := by
      rcases Nat.eq_zero_or_pos l with rfl | hl'
      · exact hpos
      · by_contra hlt
        have := (Nat.length_toDigits_le_iff (by norm_num) hl').mpr (Nat.not_le.mp hlt)
        omega
    rw [hl, Nat.cast_succ, add_sub_cancel_right, zpow_natCast]
    calc (10 : ℚ) ^ l ≤ (num / den : Nat) := by exact_mod_cast hdigits
      _ ≤ num / den := Nat.cast_div_le
  next =>
    have hzeros : (den : ℚ) ≤ num * 10 ^ (leadingZeros 400 num den + 1) := by
      exact_mod_cast le_leadingZeros h
    have hexponent : -(leadingZeros 400 num den : Int) - 1 =
        -((leadingZeros 400 num den + 1 : Nat) : Int) := by
      push_cast
      ring
    rw [hexponent, zpow_neg, zpow_natCast, inv_eq_one_div, div_le_div_iff₀ (by positivity) hden',
      one_mul]
    exact hzeros

theorem pow_two_le (k : Nat) : 2 ^ (3 * k) ≤ 10 ^ k := by
  rw [pow_mul]
  exact Nat.pow_le_pow_left (by decide) k

theorem shortest_eq (m : Nat) (q : Int) : shortest m q =
    search (intervalOf m q) m q 17 (place (scale m q).1 (scale m q).2 - 1) := rfl

/-- The shortest decimal of a positive number has a digit that is not zero. -/
theorem digits_shortest_ne_zero {m : Nat} {q : Int} (hm : 0 < m) (hlt : m < 2 ^ 53)
    (hq : -1074 ≤ q) : (shortest m q).digits ≠ 0 := by
  have hreach : (scale m q).2 ≤ (scale m q).1 * 10 ^ 400 := by
    unfold scale
    split
    · exact Nat.mul_pos (Nat.mul_pos hm (pow2_pos _)) (by positivity)
    · calc pow2 (-q).toNat ≤ 2 ^ (3 * 400) := Nat.pow_le_pow_right (by norm_num) (by omega)
        _ ≤ 10 ^ 400 := pow_two_le 400
        _ ≤ m * 10 ^ 400 := Nat.le_mul_of_pos_left _ hm
  have hplace := pow_place_le (scale_pos m q) hreach
  rw [scale_eq] at hplace
  rw [shortest_eq]
  set p := place (scale m q).1 (scale m q).2
  refine digits_search_ne_zero (fun k c => ne_zero_of_candidate? hm) (isSome_candidate? hm ?_)
  have hlast : (10 : ℚ) ^ (p - 1 - (17 : Nat)) * 10 ^ 17 = 10 ^ (p - 1) := by
    rw [← zpow_natCast, ← zpow_add₀ (by norm_num)]
    congr 1
    push_cast
    ring
  have htwo : (0 : ℚ) < 2 ^ q := by positivity
  have hm' : (m : ℚ) < 2 ^ 53 := by exact_mod_cast hlt
  have hbound : (m : ℚ) * 2 ^ q < 2 ^ 53 * 2 ^ q := mul_lt_mul_of_pos_right hm' htwo
  linarith

/-! ## Numerals -/

def Digits (cs : List Char) : Prop := cs ≠ [] ∧ ∀ c ∈ cs, c.isDigit = true

/-- A numeral without a sign: digits, with decimals and an exponent behind them where they are
needed. -/
def Unsigned (cs : List Char) : Prop :=
  ∃ whole decimals exponent, cs = whole ++ decimals ++ exponent ∧ Digits whole ∧
    (decimals = [] ∨ ∃ ds, Digits ds ∧ decimals = '.' :: ds) ∧
    (exponent = [] ∨ ∃ s ds, (s = '+' ∨ s = '-') ∧ Digits ds ∧ exponent = 'e' :: s :: ds)

def Numeral (cs : List Char) : Prop := Unsigned cs ∨ ∃ ds, Unsigned ds ∧ cs = '-' :: ds

theorem Digits.numeral {cs : List Char} (h : Digits cs) : Unsigned cs :=
  ⟨cs, [], [], by simp, h, Or.inl rfl, Or.inl rfl⟩

theorem digits_toDigits (n : Nat) : Digits (Nat.toDigits 10 n) :=
  ⟨Nat.toDigits_ne_nil, fun _ hc => Nat.isDigit_of_mem_toDigits (by norm_num) (by norm_num) hc⟩

theorem Digits.append {cs ds : List Char} (h : Digits cs) (hds : ∀ c ∈ ds, c.isDigit = true) :
    Digits (cs ++ ds) :=
  ⟨List.append_ne_nil_of_left_ne_nil h.1 _, List.forall_mem_append.mpr ⟨h.2, hds⟩⟩

theorem Digits.prepend {cs ds : List Char} (h : Digits cs) (hds : ∀ c ∈ ds, c.isDigit = true) :
    Digits (ds ++ cs) :=
  ⟨List.append_ne_nil_of_right_ne_nil _ h.1, List.forall_mem_append.mpr ⟨hds, h.2⟩⟩

theorem isDigit_of_mem_zeros {k : Nat} : ∀ c ∈ List.replicate k '0', c.isDigit = true := by
  intro c hc
  rw [List.eq_of_mem_replicate hc]
  decide

theorem ofDigitChars_zeros {cs : List Char} (h : ∀ c ∈ cs, c = '0') :
    Nat.ofDigitChars 10 cs 0 = 0 := by
  induction cs with
  | nil => rfl
  | cons c rest ih =>
    obtain ⟨rfl, hrest⟩ := List.forall_mem_cons.mp h
    exact ih hrest

/-- Digits of a number that is not zero are left when the zeros at the end are dropped. -/
theorem digits_stripZeros {n : Nat} (hn : n ≠ 0) : Digits (stripZeros (Nat.toDigits 10 n)) := by
  constructor
  · intro hnil
    have hzeros : ∀ c ∈ Nat.toDigits 10 n, c = '0' := by
      simpa [stripZeros, List.dropWhile_eq_nil_iff] using hnil
    have hvalue := @Nat.ofDigitChars_ten_toDigits n
    rw [ofDigitChars_zeros hzeros] at hvalue
    exact hn hvalue.symm
  · intro c hc
    have hmem : c ∈ Nat.toDigits 10 n := by
      rw [stripZeros, List.mem_reverse] at hc
      exact List.mem_reverse.mp ((List.dropWhile_sublist _).subset hc)
    exact (digits_toDigits n).2 c hmem

theorem toList_zeros (k : Nat) : ("".pushn '0' k).toList = List.replicate k '0' := by
  rw [String.pushn_eq_repeat_push]
  induction k with
  | zero => rfl
  | succ k ih => rw [Nat.repeat, String.toList_push, ih, List.replicate_succ']

theorem digits_zero : Digits ['0'] := ⟨by simp, by simp⟩

theorem Digits.take {cs : List Char} (h : Digits cs) {k : Nat} (hk : 0 < k) :
    Digits (cs.take k) := by
  refine ⟨?_, fun c hc => h.2 c (List.mem_of_mem_take hc)⟩
  rw [ne_eq, List.take_eq_nil_iff, not_or]
  exact ⟨hk.ne', h.1⟩

theorem Digits.drop {cs : List Char} (h : Digits cs) {k : Nat} (hk : k < cs.length) :
    Digits (cs.drop k) := by
  refine ⟨?_, fun c hc => h.2 c (List.mem_of_mem_drop hc)⟩
  rw [ne_eq, List.drop_eq_nil_iff]
  exact Nat.not_le.mpr hk

theorem unsigned_point {whole ds : List Char} (hwhole : Digits whole) (hds : Digits ds) :
    Unsigned (whole ++ '.' :: ds) :=
  ⟨whole, '.' :: ds, [], by simp, hwhole, Or.inr ⟨ds, hds, rfl⟩, Or.inl rfl⟩

theorem unsigned_positional {ds : List Char} (h : Digits ds) (point : Int) :
    Unsigned (positional ds point).toList := by
  unfold positional
  split
  · have hdecimals := h.prepend (isDigit_of_mem_zeros (k := (-point).toNat))
    simpa [toList_zeros] using unsigned_point digits_zero hdecimals
  · split
    next =>
      have hwhole := h.append (isDigit_of_mem_zeros (k := point.toNat - ds.length))
      simpa [toList_zeros] using unsigned_point hwhole digits_zero
    next hpoint hlong =>
      have hwhole := h.take (by omega : 0 < point.toNat)
      have hdecimals := h.drop (Nat.not_le.mp hlong)
      simpa using unsigned_point hwhole hdecimals

theorem exponentText_eq (layout : Layout) (e : Int) : ∃ s ds, (s = '+' ∨ s = '-') ∧ Digits ds ∧
    (exponentText layout e).toList = 'e' :: s :: ds := by
  have hdigits : Digits (Nat.repr e.natAbs).toList := by
    rw [Nat.toList_repr]
    exact digits_toDigits _
  have hpadded := hdigits.prepend
    (isDigit_of_mem_zeros (k := layout.width - (Nat.repr e.natAbs).length))
  by_cases he : e < 0
  · exact ⟨'-', _, Or.inr rfl, hpadded, by simp [exponentText, he, toList_zeros]⟩
  · exact ⟨'+', _, Or.inl rfl, hpadded, by simp [exponentText, he, toList_zeros]⟩

theorem unsigned_scientific (layout : Layout) {ds : List Char} (h : Digits ds) (e : Int) :
    Unsigned (scientific layout ds e).toList := by
  refine ⟨ds.take 1, if (ds.drop 1).isEmpty then [] else '.' :: ds.drop 1,
    (exponentText layout e).toList, ?_, h.take Nat.one_pos, ?_, Or.inr (exponentText_eq layout e)⟩
  · unfold scientific
    split <;> simp_all
  · split
    next => exact Or.inl rfl
    next htail =>
      refine Or.inr ⟨_, h.drop ?_, rfl⟩
      rwa [List.isEmpty_iff, List.drop_eq_nil_iff, Nat.not_le] at htail

theorem unsigned_write (layout : Layout) {x : Scientific} (h : x.digits ≠ 0) :
    Unsigned (layout.write x).toList := by
  have hdigits := digits_stripZeros h
  simp only [Layout.write]
  split
  · exact unsigned_positional hdigits _
  · exact unsigned_scientific layout hdigits _

theorem numeral_text {x : Float} (h : isFinite x = true) : Numeral (text x).toList := by
  have hunsigned : Unsigned (if (magnitude x).1 = 0 then "0.0"
      else plainLayout.write (shortest (magnitude x).1 (magnitude x).2)).toList := by
    split
    next => exact unsigned_point digits_zero digits_zero
    next hm =>
      exact unsigned_write _ (digits_shortest_ne_zero (Nat.pos_of_ne_zero hm) (magnitude_lt x)
        (le_magnitude x))
  simp only [text, isNaN_eq_false_of_isFinite h, isInfinite_eq_false_of_isFinite h,
    Bool.false_eq_true, if_false, String.toList_append]
  cases isNegative x with
  | true => exact Or.inr ⟨_, hunsigned, rfl⟩
  | false => exact Or.inl hunsigned

theorem text_of_not_isFinite {x : Float} (h : isFinite x = false) :
    text x ∈ ["nan", "inf", "-inf"] := by
  by_cases hnan : isNaN x = true
  · simp [text, hnan]
  · have hinfinite := (isNaN_or_isInfinite h).resolve_left hnan
    have htext : text x = (if isNegative x then "-" else "") ++ "inf" := by
      simp [text, hnan, hinfinite]
    rw [htext]
    cases isNegative x <;> simp

end WorkflowCompiler.Decimal
