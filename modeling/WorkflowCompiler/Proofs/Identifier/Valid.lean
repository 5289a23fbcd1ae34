import Mathlib
import WorkflowCompiler.Proofs.Decimal.Shortest
import WorkflowCompiler.Proofs.Identifier.Stem

/-! # Valid identifiers

Whatever a name is made of, its identifier begins with a letter, goes on with letters, digits and
underscores, and is no reserved word. So are the numbered forms of an identifier.
-/
namespace WorkflowCompiler.Identifier

def isLetter (c : Char) : Bool := 'a' ≤ c && c ≤ 'z'

def isNameChar (c : Char) : Bool := isWordChar c || c == '_'

/-- A letter, then letters, digits and underscores, and no reserved word. -/
def isValid : Text → Bool
  | [] => false
  | p :: rest => p.is isLetter && rest.all (·.is isNameChar) && !isReserved (p :: rest)

def Plain (s : Text) : Prop := ∀ p ∈ s, p.is isNameChar = true

def Led (s : Text) : Prop := ∃ p rest, s = p :: rest ∧ p.is isLetter = true ∧ Plain rest

theorem isValid_of_led {s : Text} (h : Led s) (hs : isReserved s = false) : isValid s = true := by
  obtain ⟨p, rest, rfl, hp, hrest⟩ := h
  rw [isValid, hp, hs, List.all_eq_true.mpr hrest]
  rfl

theorem isNameChar_of_isLetter {c : Char} (h : isLetter c = true) : isNameChar c = true := by
  simp only [isLetter] at h
  simp [isNameChar, isWordChar, h]

theorem is_isNameChar {p : CodePoint} (h : p.is isLetter = true) : p.is isNameChar = true := by
  cases p with
  | char c => exact isNameChar_of_isLetter h
  | surrogate offset => cases h

theorem Led.plain {s : Text} (h : Led s) : Plain s := by
  obtain ⟨p, rest, rfl, hp, hrest⟩ := h
  exact List.forall_mem_cons.mpr ⟨is_isNameChar hp, hrest⟩

theorem Led.append {s t : Text} (h : Led s) (ht : Plain t) : Led (s ++ t) := by
  obtain ⟨p, rest, rfl, hp, hrest⟩ := h
  exact ⟨p, rest ++ t, rfl, hp, List.forall_mem_append.mpr ⟨hrest, ht⟩⟩

theorem led_of_isValid {s : Text} (h : isValid s = true) : Led s := by
  cases s with
  | nil => cases h
  | cons p rest =>
    simp only [isValid, Bool.and_eq_true] at h
    exact ⟨p, rest, rfl, h.1.1, List.all_eq_true.mp h.1.2⟩

theorem plain_underscore : Plain "_" := by
  intro p hp
  rw [List.mem_singleton.mp hp]
  decide

theorem is_isNameChar_of_word {p : CodePoint} (h : p.is isWordChar = true) :
    p.is isNameChar = true := by
  cases p with
  | char c =>
    have hc : isWordChar c = true := h
    simp [CodePoint.is, isNameChar, hc]
  | surrogate offset => cases h

theorem plain_keep (s : Text) (started pending : Bool) : Plain (keep s started pending) := by
  induction s generalizing started pending with
  | nil => exact fun p hp => absurd hp List.not_mem_nil
  | cons p rest ih =>
    rw [keep]
    split
    next hp =>
      have hword := is_isNameChar_of_word hp
      split
      · exact List.forall_mem_cons.mpr ⟨by decide, List.forall_mem_cons.mpr ⟨hword, ih _ _⟩⟩
      · exact List.forall_mem_cons.mpr ⟨hword, ih _ _⟩
    next => exact ih _ _

theorem head_keep {s : Text} {pending : Bool} {p : CodePoint} {rest : Text}
    (h : keep s false pending = p :: rest) : p.is isWordChar = true := by
  induction s generalizing pending with
  | nil => cases h
  | cons first others ih =>
    rw [keep] at h
    split at h
    next hfirst =>
      simp only [Bool.false_and, Bool.false_eq_true, if_false] at h
      cases h
      exact hfirst
    next => exact ih h

theorem isDigit_of_le {c : Char} (h : '0' ≤ c) (h' : c ≤ '9') : Text.isDigit c = true := by
  have hdigits : ∀ n < 58, 48 ≤ n → Text.inRanges Text.digitBounds n = true := by decide
  exact hdigits c.toNat (Nat.lt_succ_of_le h') h

theorem isLetter_of_word {p : CodePoint} (h : p.is isWordChar = true)
    (hdigit : p.is Text.isDigit = false) : p.is isLetter = true := by
  cases p with
  | char c =>
    simp only [CodePoint.is, isWordChar, Bool.or_eq_true, Bool.and_eq_true, decide_eq_true_iff]
      at h hdigit
    rcases h with h | h
    · simp [CodePoint.is, isLetter, h]
    · rw [isDigit_of_le h.1 h.2] at hdigit
      cases hdigit
  | surrogate offset => cases h

theorem led_unlead {fallback s : Text} (hfallback : Led fallback) (hs : Plain s)
    (hhead : ∀ p rest, s = p :: rest → p.is isWordChar = true) (hne : s ≠ []) :
    Led (unlead fallback s) := by
  cases s with
  | nil => exact absurd rfl hne
  | cons p rest =>
    rw [unlead]
    split
    next => exact (hfallback.append plain_underscore).append hs
    next hdigit =>
      rw [Bool.not_eq_true] at hdigit
      exact ⟨p, rest, rfl, isLetter_of_word (hhead p rest rfl) hdigit,
        fun q hq => hs q (List.mem_cons_of_mem _ hq)⟩

theorem isReserved_eq_false {s : Text} {p : CodePoint} (h : s.getLast? = some p)
    (hp : (p == .char '_' || p.is Char.isDigit) = true) : isReserved s = false := by
  have hwords : ∀ w ∈ reservedWords,
      w.getLast?.any (fun q => q == .char '_' || q.is Char.isDigit) = false := by decide
  rw [Bool.eq_false_iff]
  intro hs
  have hlast := hwords s (List.contains_iff_mem.mp hs)
  rw [h, Option.any_some, hp] at hlast
  cases hlast

theorem isValid_unreserve {s : Text} (h : Led s) : isValid (unreserve s) = true := by
  unfold unreserve
  split
  next =>
    refine isValid_of_led (h.append plain_underscore) (isReserved_eq_false (p := .char '_') ?_ rfl)
    exact List.getLast?_concat
  next hs => exact isValid_of_led h (by simpa using hs)

theorem is_isWordChar_of_letter {p : CodePoint} (h : p.is isLetter = true) :
    p.is isWordChar = true := by
  cases p with
  | char c =>
    have hc : isLetter c = true := h
    simp only [isLetter] at hc
    simp [CodePoint.is, isWordChar, hc]
  | surrogate offset => cases h

theorem isValid_ofName {fallback : Text} (hfallback : Led fallback) (name : Text) :
    isValid (ofName name fallback) = true := by
  refine isValid_unreserve ?_
  rw [stem_eq_keep]
  split
  next =>
    refine led_unlead hfallback hfallback.plain ?_ ?_
    · intro p rest heq
      obtain ⟨q, others, rfl, hq, -⟩ := hfallback
      cases heq
      exact is_isWordChar_of_letter hq
    · rintro rfl
      obtain ⟨q, others, h, -⟩ := hfallback
      cases h
  next hne =>
    refine led_unlead hfallback (plain_keep _ _ _) (fun p rest => head_keep) ?_
    simpa using hne

theorem led_nodeFallback : Led nodeFallback := led_of_isValid (by decide)

theorem led_workflowFallback : Led workflowFallback := led_of_isValid (by decide)

namespace Allocator

theorem isDigit_of_mem_toString {n : Nat} {p : CodePoint}
    (h : p ∈ Text.ofString (toString n)) : p.is Char.isDigit = true := by
  obtain ⟨c, hc, rfl⟩ := List.mem_map.mp h
  rw [Nat.toString_eq_repr, Nat.toList_repr] at hc
  exact (Decimal.digits_toDigits n).2 c hc

theorem is_isNameChar_of_digit {p : CodePoint} (h : p.is Char.isDigit = true) :
    p.is isNameChar = true := by
  cases p with
  | char c =>
    simp only [CodePoint.is, Char.isDigit, Bool.and_eq_true, decide_eq_true_iff] at h
    have hword : isWordChar c = true := by
      simp only [isWordChar, Bool.or_eq_true, Bool.and_eq_true, decide_eq_true_iff]
      exact Or.inr ⟨h.1, h.2⟩
    simp [CodePoint.is, isNameChar, hword]
  | surrogate offset => cases h

theorem isValid_numbered {base : Text} (h : isValid base = true) (n : Nat) :
    isValid (numbered base n) = true := by
  have hdigits : Plain (Text.ofString (toString n)) :=
    fun p hp => is_isNameChar_of_digit (isDigit_of_mem_toString hp)
  have hled : Led (numbered base n) :=
    ((led_of_isValid h).append plain_underscore).append hdigits
  rcases List.eq_nil_or_concat (Text.ofString (toString n)) with hnil | ⟨init, last, hlast⟩
  · simp [Text.ofString, Text.ofChars, Nat.toString_eq_repr, Nat.toList_repr] at hnil
  · have hmem : last ∈ Text.ofString (toString n) := by
      rw [hlast, List.concat_eq_append]
      exact List.mem_append_right _ List.mem_cons_self
    refine isValid_of_led hled (isReserved_eq_false (p := last) ?_ ?_)
    · rw [numbered, hlast, List.concat_eq_append, ← List.append_assoc, List.getLast?_concat]
    · rw [isDigit_of_mem_toString hmem, Bool.or_true]

theorem isValid_choose {base : Text} (h : isValid base = true) (taken : List Text) :
    isValid (choose taken base) = true := by
  have hfree : ∀ attempts n, isValid (firstFree taken base attempts n) = true := by
    intro attempts
    induction attempts with
    | zero => exact isValid_numbered h
    | succ attempts ih =>
      intro n
      rw [firstFree]
      split
      · exact ih (n + 1)
      · exact isValid_numbered h n
  unfold choose
  split
  · exact hfree _ _
  · exact h

end Allocator

end WorkflowCompiler.Identifier
