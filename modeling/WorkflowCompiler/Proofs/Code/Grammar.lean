import Mathlib
import WorkflowCompiler.Code.Basic
import WorkflowCompiler.Profile.Basic
import WorkflowCompiler.Proofs.Identifier.Valid
import WorkflowCompiler.Proofs.Text.Line
import WorkflowCompiler.Proofs.Value.Spelling

/-! # The grammar of the code

Expressions are built from numerals, constants, string literals and identifiers by lists, pairs,
objects and calls of constructs. Whatever a value holds, its literal is an expression, and no
expression holds a control character.
-/
namespace WorkflowCompiler

namespace Text

/-- The inside of a string literal: quotes and backslashes are escaped, and so is every control
character. -/
inductive Escaped : Text → Prop
  | nil : Escaped []
  | plain {p : CodePoint} {rest : Text} (hquote : p ≠ .char '"') (hbackslash : p ≠ .char '\\')
    (hcontrol : 32 ≤ p.toNat) (h : Escaped rest) : Escaped (p :: rest)
  | mark {c : Char} {rest : Text} (hc : c ∈ ['"', '\\', 'n', 'r', 't', 'b', 'f'])
    (h : Escaped rest) : Escaped (.char '\\' :: .char c :: rest)
  | number {ds : List Char} {rest : Text} (hlength : ds.length = 4)
    (hds : ∀ d ∈ ds, (hexValue? d).isSome) (h : Escaped rest) :
    Escaped (.char '\\' :: .char 'u' :: (ofChars ds ++ rest))

def IsStringLiteral (s : Text) : Prop := ∃ inside, Escaped inside ∧ s = "\"" ++ inside ++ "\""

theorem length_toHex (width n : Nat) : (toHex width n).length = width := by
  induction width generalizing n with
  | zero => rfl
  | succ width ih => rw [toHex, List.length_append, ih, List.length_singleton]

theorem isSome_hexValue?_of_mem_toHex {width n : Nat} {d : Char} (h : d ∈ toHex width n) :
    (hexValue? d).isSome := by
  induction width generalizing n with
  | zero => cases h
  | succ width ih =>
    rw [toHex] at h
    rcases List.mem_append.mp h with h | h
    · exact ih h
    · have hdigits : ∀ k < 16, (hexValue? (Nat.digitChar k)).isSome := by decide
      rw [List.mem_singleton.mp h]
      exact hdigits _ (Nat.mod_lt _ (by decide))

theorem escaped_escape (p : CodePoint) {rest : Text} (h : Escaped rest) :
    Escaped (escape p ++ rest) := by
  cases p with
  | surrogate offset =>
    have hoffset : 32 ≤ (CodePoint.surrogate offset).toNat := by
      rw [CodePoint.toNat]
      omega
    exact .plain nofun nofun hoffset h
  | char c =>
    rw [escape, escapeChar]
    split
    · exact .mark (c := '"') (by decide) h
    split
    · exact .mark (c := '\\') (by decide) h
    split
    · exact .mark (c := 'n') (by decide) h
    split
    · exact .mark (c := 'r') (by decide) h
    split
    · exact .mark (c := 't') (by decide) h
    split
    · exact .mark (c := 'b') (by decide) h
    split
    · exact .mark (c := 'f') (by decide) h
    split
    · exact .number (length_toHex 4 c.toNat) (fun _ => isSome_hexValue?_of_mem_toHex) h
    next hquote hbackslash _ _ _ _ _ hcontrol =>
      refine .plain ?_ ?_ (Nat.not_lt.mp hcontrol) h
      · exact fun heq => hquote (CodePoint.char.inj heq)
      · exact fun heq => hbackslash (CodePoint.char.inj heq)

theorem isStringLiteral_stringLiteral (s : Text) : IsStringLiteral (stringLiteral s) := by
  refine ⟨s.flatMap escape, ?_, rfl⟩
  induction s with
  | nil => exact .nil
  | cons p rest ih => exact escaped_escape p ih

end Text

def argumentText (arg : Text × Text) : Text := arg.1 ++ "=" ++ arg.2

inductive IsExpression (profile : Profile) : Text → Prop
  | number {cs : List Char} (h : Decimal.Numeral cs) : IsExpression profile (Text.ofChars cs)
  | constant {s : Text} (h : s ∈ (["None", "True", "False"] : List Text)) : IsExpression profile s
  /-- A number that has no numeral. -/
  | conversion {s : String} (h : s ∈ ["nan", "inf", "-inf"]) :
    IsExpression profile ("float(\"" ++ s ++ "\")")
  | string {s : Text} (h : Text.IsStringLiteral s) : IsExpression profile s
  | identifier {s : Text} (h : Identifier.isValid s = true) : IsExpression profile s
  | list {items : List Text} (h : ∀ e ∈ items, IsExpression profile e) :
    IsExpression profile ("[" ++ Text.join ", " items ++ "]")
  | pair {label e : Text} (hlabel : Text.IsStringLiteral label) (he : IsExpression profile e) :
    IsExpression profile ("(" ++ label ++ ", " ++ e ++ ")")
  | object {entries : List (Text × Text)} (hnames : ∀ x ∈ entries, Text.IsStringLiteral x.1)
    (hvalues : ∀ x ∈ entries, IsExpression profile x.2) :
    IsExpression profile
      ("\x7b" ++ Text.join ", " (entries.map fun x => x.1 ++ ": " ++ x.2) ++ "\x7d")
  | call {role : Role} {args : List (Text × Text)}
    (hnames : ∀ x ∈ args, Identifier.isValid x.1 = true)
    (hvalues : ∀ x ∈ args, IsExpression profile x.2) :
    IsExpression profile
      (profile.construct role ++ "(" ++ Text.join ", " (args.map argumentText) ++ ")")

section Literals
variable (profile : Profile)

theorem isExpression_numberLiteral (x : Float) : IsExpression profile (Value.numberLiteral x) := by
  unfold Value.numberLiteral
  split
  next hfinite => exact .number (Decimal.numeral_text hfinite)
  next hfinite =>
    exact .conversion (Decimal.text_of_not_isFinite (by simpa using hfinite))

theorem isExpression_int (n : Int) : IsExpression profile (Text.ofString (toString n)) := by
  refine .number ?_
  cases n with
  | ofNat n =>
    have hdigits := (Decimal.digits_toDigits n).numeral
    rw [← Nat.toList_repr] at hdigits
    exact Or.inl hdigits
  | negSucc n =>
    have hdigits := (Decimal.digits_toDigits (n + 1)).numeral
    rw [← Nat.toList_repr] at hdigits
    refine Or.inr ⟨_, hdigits, ?_⟩
    exact String.toList_append

mutual

theorem isExpression_spelling (v : Value) : IsExpression profile v.spelling := by
  match v with
  | .null => exact .constant (by decide)
  | .bool true => exact .constant (by decide)
  | .bool false => exact .constant (by decide)
  | .int n => exact isExpression_int profile n
  | .float x => exact isExpression_numberLiteral profile x
  | .str s => exact .string (Text.isStringLiteral_stringLiteral s)
  | .list items =>
    rw [Value.spelling]
    exact .list (isExpression_items items)
  | .object members =>
    have hmembers := isExpression_members members
    have hsorted : ∀ x ∈ Value.sortEntries (Value.spellingMembers members),
        IsExpression profile x.2 := fun x hx => hmembers x ((List.mergeSort_perm _ _).mem_iff.mp hx)
    have hobject := @IsExpression.object profile
      ((Value.sortEntries (Value.spellingMembers members)).map
        fun x => (Text.stringLiteral x.1, x.2))
      (List.forall_mem_map.mpr fun x _ => Text.isStringLiteral_stringLiteral x.1)
      (List.forall_mem_map.mpr hsorted)
    rw [List.map_map] at hobject
    rw [Value.spelling]
    exact hobject

theorem isExpression_items (items : List Value) :
    ∀ e ∈ Value.spellingItems items, IsExpression profile e := by
  match items with
  | [] => exact fun _ he => absurd he List.not_mem_nil
  | v :: rest =>
    rw [Value.spellingItems]
    exact List.forall_mem_cons.mpr ⟨isExpression_spelling v, isExpression_items rest⟩

theorem isExpression_members (members : List (Text × Value)) :
    ∀ x ∈ Value.spellingMembers members, IsExpression profile x.2 := by
  match members with
  | [] => exact fun _ he => absurd he List.not_mem_nil
  | (name, v) :: rest =>
    rw [Value.spellingMembers]
    exact List.forall_mem_cons.mpr ⟨isExpression_spelling v, isExpression_members rest⟩

end

theorem isExpression_literal (l : Literal) : IsExpression profile l.text := by
  rw [← (Value.literal_eq_some_iff.mp l.spells).2]
  exact isExpression_spelling profile l.value

end Literals

namespace Expression

/-- An expression whose names are valid identifiers and whose calls are of constructs. -/
inductive Proper (profile : Profile) : Expression → Prop
  | literal {l : Literal} : Proper profile (.literal l)
  | name {ident : Text} (h : Identifier.isValid ident = true) : Proper profile (.name ident)
  | list {items : List Expression} (h : ∀ e ∈ items, Proper profile e) : Proper profile (.list items)
  | pair {label : Text} {e : Expression} (h : Proper profile e) : Proper profile (.pair label e)
  | call {role : Role} {args : List (Text × Expression)}
    (hnames : ∀ x ∈ args, Identifier.isValid x.1 = true) (hargs : ∀ x ∈ args, Proper profile x.2) :
    Proper profile (.call (profile.construct role) args)

theorem proper_names {profile : Profile} {refs : List Text}
    (h : ∀ x ∈ refs, Identifier.isValid x = true) : Proper profile (.names refs) :=
  .list (List.forall_mem_map.mpr fun x hx => .name (h x hx))

theorem texts_eq (items : List Expression) : texts items = items.map text := by
  induction items with
  | nil => rw [texts, List.map_nil]
  | cons e rest ih => rw [texts, ih, List.map_cons]

theorem argumentTexts_eq (args : List (Text × Expression)) :
    argumentTexts args = (args.map fun x => (x.1, x.2.text)).map argumentText := by
  induction args with
  | nil => rw [argumentTexts, List.map_nil, List.map_nil]
  | cons x rest ih =>
    obtain ⟨keyword, e⟩ := x
    rw [argumentTexts, ih, List.map_cons, List.map_cons, argumentText]

theorem Proper.isExpression {profile : Profile} {e : Expression} (h : Proper profile e) :
    IsExpression profile e.text := by
  induction h with
  | literal =>
    rw [text]
    exact isExpression_literal profile _
  | name h =>
    rw [text]
    exact .identifier h
  | list _ ih =>
    rw [text, texts_eq]
    exact .list (List.forall_mem_map.mpr ih)
  | pair _ ih =>
    rw [text]
    exact .pair (Text.isStringLiteral_stringLiteral _) ih
  | call hnames _ ih =>
    rw [text, argumentTexts_eq]
    exact .call (List.forall_mem_map.mpr hnames) (List.forall_mem_map.mpr ih)

end Expression

/-! ## Control characters -/

namespace Text

/-- A text without control characters. -/
def Visible (s : Text) : Prop := ∀ p ∈ s, 32 ≤ p.toNat

instance (s : Text) : Decidable (Visible s) :=
  inferInstanceAs (Decidable (∀ p ∈ s, 32 ≤ p.toNat))

theorem Visible.append {s t : Text} (hs : Visible s) (ht : Visible t) : Visible (s ++ t) :=
  List.forall_mem_append.mpr ⟨hs, ht⟩

theorem Visible.join {separator : Text} {texts : List Text} (hseparator : Visible separator)
    (h : ∀ s ∈ texts, Visible s) : Visible (join separator texts) := by
  intro p hp
  rcases mem_join hp with hp | ⟨s, hs, hp⟩
  · exact hseparator p hp
  · exact h s hs p hp

theorem visible_ofChars {cs : List Char} (h : ∀ c ∈ cs, 32 ≤ c.toNat) : Visible (ofChars cs) :=
  List.forall_mem_map.mpr h

theorem le_toNat_of_hexValue? {d : Char} (h : (hexValue? d).isSome) : 32 ≤ d.toNat := by
  have hle : ∀ {b : Bool} (c : Char), (decide (c ≤ d) && b) = true → 32 ≤ c.toNat → 32 ≤ d.toNat := by
    intro b c hc hcontrol
    have hcd : c.toNat ≤ d.toNat := decide_eq_true_iff.mp (Bool.and_eq_true_iff.mp hc).1
    exact hcontrol.trans hcd
  unfold hexValue? at h
  split at h
  next hd => exact hle '0' hd (by decide)
  split at h
  next hd => exact hle 'a' hd (by decide)
  split at h
  next hd => exact hle 'A' hd (by decide)
  next => cases h

theorem Escaped.visible {s : Text} (h : Escaped s) : Visible s := by
  induction h with
  | nil => exact fun p hp => absurd hp List.not_mem_nil
  | plain _ _ hcontrol _ ih => exact List.forall_mem_cons.mpr ⟨hcontrol, ih⟩
  | mark hc _ ih =>
    refine List.forall_mem_cons.mpr ⟨by decide, List.forall_mem_cons.mpr ⟨?_, ih⟩⟩
    simp only [List.mem_cons, List.not_mem_nil, or_false] at hc
    rcases hc with rfl | rfl | rfl | rfl | rfl | rfl | rfl <;> decide
  | number _ hds _ ih =>
    refine List.forall_mem_cons.mpr ⟨by decide, List.forall_mem_cons.mpr ⟨by decide, ?_⟩⟩
    exact (visible_ofChars fun d hd => le_toNat_of_hexValue? (hds d hd)).append ih

theorem IsStringLiteral.visible {s : Text} (h : IsStringLiteral s) : Visible s := by
  obtain ⟨inside, hinside, rfl⟩ := h
  have hquote : Visible "\"" := by decide
  exact (hquote.append hinside.visible).append hquote

end Text

theorem Identifier.visible_of_isValid {s : Text} (h : isValid s = true) : Text.Visible s := by
  intro p hp
  have hplain := (led_of_isValid h).plain p hp
  cases p with
  | char c =>
    have hle : ∀ {d : Char}, d ≤ c → d.toNat ≤ c.toNat := id
    have hletter : 'a' ≤ c → 32 ≤ c.toNat := fun h => le_trans (by decide) (hle h)
    have hdigit : '0' ≤ c → 32 ≤ c.toNat := fun h => le_trans (by decide) (hle h)
    simp only [CodePoint.is, isNameChar, isWordChar, Bool.or_eq_true, Bool.and_eq_true,
      decide_eq_true_iff, beq_iff_eq] at hplain
    rcases hplain with (h | h) | rfl
    · exact hletter h.1
    · exact hdigit h.1
    · decide
  | surrogate offset => cases hplain

namespace Decimal

theorem Digits.visible {cs : List Char} (h : Digits cs) : ∀ c ∈ cs, 32 ≤ c.toNat := by
  intro c hc
  have hdigit := h.2 c hc
  simp only [Char.isDigit, Bool.and_eq_true, decide_eq_true_iff] at hdigit
  have hle : 48 ≤ c.toNat := hdigit.1
  omega

theorem Unsigned.visible {cs : List Char} (h : Unsigned cs) : ∀ c ∈ cs, 32 ≤ c.toNat := by
  obtain ⟨whole, decimals, exponent, rfl, hwhole, hdecimals, hexponent⟩ := h
  refine List.forall_mem_append.mpr ⟨List.forall_mem_append.mpr ⟨hwhole.visible, ?_⟩, ?_⟩
  · rcases hdecimals with rfl | ⟨ds, hds, rfl⟩
    · exact fun c hc => absurd hc List.not_mem_nil
    · exact List.forall_mem_cons.mpr ⟨by decide, hds.visible⟩
  · rcases hexponent with rfl | ⟨s, ds, hs, hds, rfl⟩
    · exact fun c hc => absurd hc List.not_mem_nil
    · refine List.forall_mem_cons.mpr ⟨by decide, List.forall_mem_cons.mpr ⟨?_, hds.visible⟩⟩
      rcases hs with rfl | rfl <;> decide

theorem Numeral.visible {cs : List Char} (h : Numeral cs) : Text.Visible (Text.ofChars cs) := by
  refine Text.visible_ofChars ?_
  rcases h with h | ⟨ds, h, rfl⟩
  · exact h.visible
  · exact List.forall_mem_cons.mpr ⟨by decide, h.visible⟩

end Decimal

theorem IsExpression.visible {profile : Profile}
    (hprofile : ∀ role, Text.Visible (profile.construct role)) {s : Text}
    (h : IsExpression profile s) : Text.Visible s := by
  have hcomma : Text.Visible ", " := by decide
  induction h with
  | number h => exact h.visible
  | constant h =>
    have hconstants : ∀ s ∈ (["None", "True", "False"] : List Text), Text.Visible s := by decide
    exact hconstants _ h
  | conversion h =>
    simp only [List.mem_cons, List.not_mem_nil, or_false] at h
    rcases h with rfl | rfl | rfl <;> decide
  | string h => exact h.visible
  | identifier h => exact Identifier.visible_of_isValid h
  | list _ ih =>
    have hopen : Text.Visible "[" := by decide
    have hclose : Text.Visible "]" := by decide
    exact (hopen.append (.join hcomma ih)).append hclose
  | pair hlabel _ ih =>
    have hopen : Text.Visible "(" := by decide
    have hclose : Text.Visible ")" := by decide
    exact (((hopen.append hlabel.visible).append hcomma).append ih).append hclose
  | object hnames _ ih =>
    have hopen : Text.Visible "\x7b" := by decide
    have hcolon : Text.Visible ": " := by decide
    have hclose : Text.Visible "\x7d" := by decide
    refine (hopen.append (.join hcomma (List.forall_mem_map.mpr fun x hx => ?_))).append hclose
    exact ((hnames x hx).visible.append hcolon).append (ih x hx)
  | call hnames _ ih =>
    have hopen : Text.Visible "(" := by decide
    have hequals : Text.Visible "=" := by decide
    have hclose : Text.Visible ")" := by decide
    refine (((hprofile _).append hopen).append
      (.join hcomma (List.forall_mem_map.mpr fun x hx => ?_))).append hclose
    exact ((Identifier.visible_of_isValid (hnames x hx)).append hequals).append (ih x hx)

end WorkflowCompiler
