import Mathlib
import WorkflowCompiler.Identifier.Basic

/-! # Stems in one pass

The stem of a name takes five passes over it. One pass does the same: it keeps the word characters
and remembers whether something was left out between them.
-/
namespace WorkflowCompiler.Identifier

/-- The word characters of a text with one underscore for each gap between two of them. `started`
once a character has been kept; `pending` when something has been left out since. -/
def keep : Text → (started pending : Bool) → Text
  | [], _, _ => []
  | p :: ps, started, pending =>
    if p.is isWordChar then
      if started && pending then .char '_' :: p :: keep ps true false else p :: keep ps true false
    else keep ps started true

/-! ## Gaps -/

def isGap (p : CodePoint) : Bool := !p.is isWordChar

theorem ne_underscore {p : CodePoint} (hp : p.is isWordChar = true) : p ≠ .char '_' := by
  rintro rfl
  exact absurd hp (by decide)

theorem isUnderscore_of_word {p : CodePoint} (hp : p.is isWordChar = true) :
    isUnderscore p = false := beq_eq_false_iff_ne.mpr (ne_underscore hp)

/-- Underscores and foreign characters are put together to gaps. The second pass is in a run whenever
the first one is, since it has then been given an underscore. -/
theorem squeeze_squeeze (s : Text) {inner outer : Bool} (h : inner = true → outer = true) :
    squeeze isUnderscore (squeeze isForeign s inner) outer = squeeze isGap s outer := by
  induction s generalizing inner outer with
  | nil => rfl
  | cons p rest ih =>
    have hkept : isUnderscore (.char '_') = true := by decide
    cases hword : p.is isWordChar with
    | true =>
      have hp := isUnderscore_of_word hword
      simp [squeeze, isForeign, isGap, hword, hp, ih]
    | false =>
      cases hp : isUnderscore p with
      | true => cases outer <;> simp [squeeze, isForeign, isGap, hword, hp, ih]
      | false =>
        cases inner with
        | true => simp [squeeze, isForeign, isGap, hword, hp, ih, h rfl]
        | false => cases outer <;> simp [squeeze, isForeign, isGap, hword, hp, hkept, ih]

theorem dropWhile_squeeze (s : Text) (running : Bool) :
    (squeeze isGap s running).dropWhile isUnderscore = squeeze isGap s true := by
  induction s generalizing running with
  | nil => rfl
  | cons p rest ih =>
    have hkept : isUnderscore (.char '_') = true := by decide
    cases hword : p.is isWordChar with
    | true => simp [squeeze, isGap, hword, isUnderscore_of_word hword]
    | false => cases running <;> simp [squeeze, isGap, hword, hkept, ih]

theorem rdropWhile_cons {α : Type} (inClass : α → Bool) (x : α) (xs : List α) :
    (x :: xs).rdropWhile inClass =
      if inClass x && (xs.rdropWhile inClass).isEmpty then [] else x :: xs.rdropWhile inClass := by
  rw [List.rdropWhile, List.reverse_cons, List.dropWhile_append, List.rdropWhile,
    List.isEmpty_reverse]
  cases hrest : (xs.reverse.dropWhile inClass).isEmpty with
  | true =>
    rw [List.isEmpty_iff.mp hrest]
    cases hx : inClass x <;> simp [hx]
  | false => simp

/-- The last pass takes away the underscore of a gap that has no word behind it. -/
theorem rdropWhile_squeeze (s : Text) :
    (squeeze isGap s false).rdropWhile isUnderscore = keep s true false ∧
      (.char '_' :: squeeze isGap s true).rdropWhile isUnderscore = keep s true true ∧
      ∀ pending, (squeeze isGap s true).rdropWhile isUnderscore = keep s false pending := by
  induction s with
  | nil => exact ⟨rfl, by decide, fun pending => rfl⟩
  | cons p rest ih =>
    obtain ⟨hkept, hgap, hnone⟩ := ih
    cases hword : p.is isWordChar with
    | true =>
      have hp := isUnderscore_of_word hword
      simp [squeeze, keep, isGap, hword, hp, rdropWhile_cons, hkept]
    | false => simp [squeeze, keep, isGap, hword, hgap, hnone true]

/-! ## Blanks at the ends -/

theorem keep_gap {s : Text} (hs : ∀ p ∈ s, p.is isWordChar = false) (started pending : Bool) :
    keep s started pending = [] := by
  induction s generalizing pending with
  | nil => rfl
  | cons p rest ih =>
    obtain ⟨hp, hrest⟩ := List.forall_mem_cons.mp hs
    rw [keep, hp, if_neg Bool.false_ne_true, ih hrest]

theorem keep_append_gap (s : Text) {t : Text} (ht : ∀ p ∈ t, p.is isWordChar = false)
    (started pending : Bool) : keep (s ++ t) started pending = keep s started pending := by
  induction s generalizing started pending with
  | nil => exact keep_gap ht started pending
  | cons p rest ih => rw [List.cons_append, keep, keep, ih, ih]

theorem keep_gap_append {s : Text} (hs : ∀ p ∈ s, p.is isWordChar = false) (t : Text)
    (pending pending' : Bool) : keep (s ++ t) false pending = keep t false pending' := by
  induction s generalizing pending with
  | nil => exact ((rdropWhile_squeeze t).2.2 pending).symm.trans ((rdropWhile_squeeze t).2.2 pending')
  | cons p rest ih =>
    obtain ⟨hp, hrest⟩ := List.forall_mem_cons.mp hs
    rw [List.cons_append, keep, hp, if_neg Bool.false_ne_true]
    exact ih hrest true

theorem exists_trimBoth {α : Type} (inClass : α → Bool) (xs : List α) :
    ∃ front back, xs = front ++ Text.trimBoth inClass xs ++ back ∧
      (∀ x ∈ front, inClass x = true) ∧ ∀ x ∈ back, inClass x = true := by
  refine ⟨xs.takeWhile inClass, (xs.dropWhile inClass).rtakeWhile inClass, ?_,
    fun x => List.mem_takeWhile_imp, fun x => List.mem_rtakeWhile_imp⟩
  have hback : Text.trimBoth inClass xs ++ (xs.dropWhile inClass).rtakeWhile inClass =
      xs.dropWhile inClass := by
    rw [Text.trimBoth, List.rtakeWhile, ← List.reverse_append, List.takeWhile_append_dropWhile,
      List.reverse_reverse]
  rw [List.append_assoc, hback, List.takeWhile_append_dropWhile]

theorem isWordChar_of_far {c : Char} (h : c.toNat < 48 ∨ 123 ≤ c.toNat) : isWordChar c = false := by
  rw [Bool.eq_false_iff]
  intro hword
  simp only [isWordChar, Bool.or_eq_true, Bool.and_eq_true, decide_eq_true_iff] at hword
  rcases hword with ⟨hfrom, hto⟩ | ⟨hfrom, hto⟩
  · have hletter : 97 ≤ c.toNat ∧ c.toNat ≤ 122 := ⟨hfrom, hto⟩
    omega
  · have hdigit : 48 ≤ c.toNat ∧ c.toNat ≤ 57 := ⟨hfrom, hto⟩
    omega

theorem toLower_of_far {c : Char} (h : c.toNat < 48 ∨ 123 ≤ c.toNat) : c.toLower = c := by
  rw [Char.toLower, dif_neg]
  rintro ⟨hfrom, hto⟩
  have hcapital : 65 ≤ c.toNat ∧ c.toNat ≤ 90 := ⟨hfrom, hto⟩
  omega

theorem isWordChar_of_mem_lower {p q : CodePoint} (hp : p.is Text.isBlank = true)
    (hq : q ∈ lower p) : q.is isWordChar = false := by
  have hwords : ∀ n < 123, 48 ≤ n → Text.inRanges Text.blankBounds n = false := by decide
  have hspecial : ∀ n ∈ [0x130, 0x212A], Text.inRanges Text.blankBounds n = false := by decide
  cases p with
  | surrogate offset => cases hp
  | char c =>
    have hc : Text.inRanges Text.blankBounds c.toNat = true := hp
    have hfar : c.toNat < 48 ∨ 123 ≤ c.toNat := by
      by_contra hnear
      push Not at hnear
      exact absurd hc (Bool.eq_false_iff.mp (hwords _ hnear.2 hnear.1))
    have hplain : ∀ n ∈ [0x130, 0x212A], c.toNat ≠ n := fun n hn heq =>
      absurd hc (Bool.eq_false_iff.mp (heq ▸ hspecial n hn))
    have hlower : lowerChar c = [c] := by
      rw [lowerChar, if_neg (hplain _ (by simp)), if_neg (hplain _ (by simp)), toLower_of_far hfar]
    rw [lower, hlower] at hq
    rw [List.mem_singleton.mp hq]
    exact isWordChar_of_far hfar

theorem stem_eq_keep (name : Text) : stem name = keep (name.flatMap lower) false false := by
  obtain ⟨front, back, hname, hfront, hback⟩ := exists_trimBoth (·.is Text.isBlank) name
  have hgap : ∀ t : Text, (∀ p ∈ t, p.is Text.isBlank = true) →
      ∀ q ∈ t.flatMap lower, q.is isWordChar = false := by
    intro t ht q hq
    obtain ⟨p, hp, hq⟩ := List.mem_flatMap.mp hq
    exact isWordChar_of_mem_lower (ht p hp) hq
  calc stem name
    _ = ((squeeze isGap ((Text.trim name).flatMap lower) false).dropWhile isUnderscore).rdropWhile
          isUnderscore := by
      rw [stem, squeeze_squeeze _ (fun h => h)]
      rfl
    _ = keep ((Text.trim name).flatMap lower) false false := by
      rw [dropWhile_squeeze, (rdropWhile_squeeze _).2.2 false]
    _ = keep (name.flatMap lower) false false := by
      conv_rhs => rw [hname]
      rw [List.flatMap_append, List.flatMap_append, keep_append_gap _ (hgap back hback),
        keep_gap_append (hgap front hfront) _ false false]
      rfl

end WorkflowCompiler.Identifier
