import Mathlib
import WorkflowCompiler.Text.Basic
import WorkflowCompiler.Text.Character

/-! # Texts on one line

The words of a text with a space between neighbours hold no line break, since every line break is
blank. A single code point that is replaced throughout is gone.
-/
namespace WorkflowCompiler.Text

def lineBreaks : List Nat := [10, 11, 12, 13, 28, 29, 30, 133, 8232, 8233]

def isLineBreak (c : Char) : Bool := lineBreaks.contains c.toNat

def OneLine (s : Text) : Prop := ∀ p ∈ s, p.is isLineBreak = false

instance (s : Text) : Decidable (OneLine s) :=
  inferInstanceAs (Decidable (∀ p ∈ s, p.is isLineBreak = false))

theorem OneLine.append {s t : Text} (hs : OneLine s) (ht : OneLine t) : OneLine (s ++ t) :=
  List.forall_mem_append.mpr ⟨hs, ht⟩

theorem isBlank_of_isLineBreak {c : Char} (h : isLineBreak c = true) : isBlank c = true := by
  have hblank : ∀ n ∈ lineBreaks, inRanges blankBounds n = true := by decide
  exact hblank c.toNat (List.contains_iff_mem.mp h)

theorem not_isLineBreak_of_not_isBlank {p : CodePoint} (h : p.is isBlank = false) :
    p.is isLineBreak = false := by
  cases p with
  | char c =>
    rw [Bool.eq_false_iff] at h ⊢
    exact fun hbreak => h (isBlank_of_isLineBreak hbreak)
  | surrogate offset => rfl

theorem not_isBlank_of_mem_words {s w : Text} (hw : w ∈ words s) {p : CodePoint} (hp : p ∈ w) :
    p.is isBlank = false := by
  have hstate : ∀ t : Text, (∀ q ∈ (t.foldr wordStep ([], [])).1, q.is isBlank = false) ∧
      ∀ w ∈ (t.foldr wordStep ([], [])).2, ∀ q ∈ w, q.is isBlank = false := by
    intro t
    induction t with
    | nil => exact ⟨fun q hq => absurd hq List.not_mem_nil, fun w hw => absurd hw List.not_mem_nil⟩
    | cons q rest ih =>
      rw [List.foldr_cons, wordStep]
      split
      next =>
        refine ⟨fun r hr => absurd hr List.not_mem_nil, ?_⟩
        split
        · exact ih.2
        · exact List.forall_mem_cons.mpr ih
      next hq => exact ⟨List.forall_mem_cons.mpr ⟨by simpa using hq, ih.1⟩, ih.2⟩
  obtain ⟨hopen, hdone⟩ := hstate s
  rw [words] at hw
  split at hw
  · exact hdone w hw p hp
  · rcases List.mem_cons.mp hw with rfl | hw
    · exact hopen p hp
    · exact hdone w hw p hp

theorem mem_join {separator : Text} {texts : List Text} {p : CodePoint}
    (h : p ∈ join separator texts) : p ∈ separator ∨ ∃ s ∈ texts, p ∈ s := by
  induction texts with
  | nil => cases h
  | cons s rest ih =>
    cases rest with
    | nil =>
      rw [join, List.intercalate_singleton] at h
      exact Or.inr ⟨s, List.mem_cons_self, h⟩
    | cons t others =>
      have hjoin : join separator (s :: t :: others) =
          s ++ separator ++ join separator (t :: others) := by
        simp [join, List.intercalate_cons_cons]
      rw [hjoin, List.mem_append, List.mem_append] at h
      rcases h with (h | h) | h
      · exact Or.inr ⟨s, List.mem_cons_self, h⟩
      · exact Or.inl h
      · refine (ih h).imp_right ?_
        rintro ⟨u, hu, hp⟩
        exact ⟨u, List.mem_cons_of_mem _ hu, hp⟩

theorem oneLine_oneLine (s : Text) : OneLine (oneLine s) := by
  intro p hp
  rcases mem_join hp with hp | ⟨w, hw, hp⟩
  · rw [List.mem_singleton.mp hp]
    decide
  · exact not_isLineBreak_of_not_isBlank (not_isBlank_of_mem_words hw hp)

theorem mem_replaceAll {old : CodePoint} {new s : Text} {p : CodePoint}
    (h : p ∈ replaceAll [old] new s) : p ∈ new ∨ p ∈ s ∧ p ≠ old := by
  rw [replaceAll] at h
  induction s with
  | nil => cases h
  | cons q rest ih =>
    rw [replaceFrom] at h
    split at h
    next =>
      rcases List.mem_append.mp h with h | h
      · exact Or.inl h
      · exact (ih h).imp_right fun hp => ⟨List.mem_cons_of_mem _ hp.1, hp.2⟩
    next hne =>
      rcases List.mem_cons.mp h with rfl | h
      · refine Or.inr ⟨List.mem_cons_self, ?_⟩
        rintro rfl
        simp at hne
      · exact (ih h).imp_right fun hp => ⟨List.mem_cons_of_mem _ hp.1, hp.2⟩

theorem OneLine.replaceAll {old : CodePoint} {new s : Text} (hs : OneLine s) (hnew : OneLine new) :
    OneLine (replaceAll [old] new s) := by
  intro p hp
  rcases mem_replaceAll hp with hp | ⟨hp, _⟩
  · exact hnew p hp
  · exact hs p hp

theorem not_mem_replaceAll {old p : CodePoint} {new s : Text} (hnew : p ∉ new) (hs : p ∉ s) :
    p ∉ replaceAll [old] new s := by
  intro hp
  rcases mem_replaceAll hp with hp | ⟨hp, _⟩
  · exact hnew hp
  · exact hs hp

theorem not_mem_replaceAll_self {old : CodePoint} {new s : Text} (hnew : old ∉ new) :
    old ∉ replaceAll [old] new s := by
  intro hp
  rcases mem_replaceAll hp with hp | ⟨_, hne⟩
  · exact hnew hp
  · exact hne rfl

end WorkflowCompiler.Text
