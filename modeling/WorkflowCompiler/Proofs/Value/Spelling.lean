import Mathlib
import WorkflowCompiler.Value.Text

/-! # What can be written

A value can be written, as a literal or in a message, exactly if no integer in it has too many
digits. Its literal is then what it would be if the digits were not limited.
-/
namespace WorkflowCompiler

theorem Text.isShort_iff {n : Int} :
    isShort n = true ↔ n.natAbs < Decimal.pow10 maxDigits := by
  have hpos : 0 < maxDigits := by decide
  rw [isShort, decide_eq_true_eq]
  generalize maxDigits = k at hpos ⊢
  exact Nat.length_toDigits_le_iff (by decide) hpos

namespace Value

mutual

/-- Whether all that a value holds, apart from lists and objects, has a property. -/
def every (p : Value → Bool) : Value → Bool
  | .list items => everyItem p items
  | .object ms => everyMember p ms
  | v => p v

def everyItem (p : Value → Bool) : List Value → Bool
  | [] => true
  | v :: rest => v.every p && everyItem p rest

def everyMember (p : Value → Bool) : List (Text × Value) → Bool
  | [] => true
  | (_, v) :: rest => v.every p && everyMember p rest

end

theorem every_list_iff {p : Value → Bool} {items : List Value} :
    every p (.list items) = true ↔ ∀ v ∈ items, v.every p = true := by
  rw [every]
  induction items with
  | nil => simp [everyItem]
  | cons v rest ih => rw [everyItem, Bool.and_eq_true, ih, List.forall_mem_cons]

theorem every_object_iff {p : Value → Bool} {ms : Members} :
    every p (.object ms) = true ↔ ∀ m ∈ ms, m.2.every p = true := by
  rw [every]
  induction ms with
  | nil => simp [everyMember]
  | cons m rest ih => rw [everyMember, Bool.and_eq_true, ih, List.forall_mem_cons]

def isShort : Value → Bool
  | .int n => Text.isShort n
  | _ => true

/-- Whether no integer in a value has too many digits. -/
def isWritable (v : Value) : Bool := v.every isShort

theorem isWritable_int (n : Int) : isWritable (.int n) = Text.isShort n := rfl

theorem isWritable_object_iff {ms : Members} :
    isWritable (.object ms) = true ↔ ∀ m ∈ ms, m.2.isWritable = true := every_object_iff

mutual

/-- The literal that a value would have if the digits were not limited. -/
def spelling : Value → Text
  | .null => "None"
  | .bool b => if b then "True" else "False"
  | .int n => toString n
  | .float x => numberLiteral x
  | .str s => Text.stringLiteral s
  | .list items => "[" ++ Text.join ", " (spellingItems items) ++ "]"
  | .object members =>
    "\x7b" ++ Text.join ", " ((sortEntries (spellingMembers members)).map entryText) ++ "\x7d"

def spellingItems : List Value → List Text
  | [] => []
  | v :: rest => spelling v :: spellingItems rest

def spellingMembers : List (Text × Value) → List (Text × Text)
  | [] => []
  | (name, v) :: rest => (name, spelling v) :: spellingMembers rest

end

mutual

/-- A literal fails only because an integer has too many digits. -/
theorem literal_eq (v : Value) :
    v.literal = if v.isWritable then some v.spelling else none := by
  match v with
  | .null | .bool _ | .float _ | .str _ => rfl
  | .int n =>
    rw [literal, Text.ofInt?, isWritable_int, spelling]
  | .list items =>
    rw [literal, literalItems_eq_ite items, isWritable, every, spelling]
    split <;> rfl
  | .object ms =>
    rw [literal, literalMembers_eq_ite ms, isWritable, every, spelling]
    split <;> rfl

theorem literalItems_eq_ite (items : List Value) :
    literalItems items = if everyItem isShort items then some (spellingItems items) else none := by
  match items with
  | [] => rfl
  | v :: rest =>
    rw [literalItems, literal_eq v, literalItems_eq_ite rest, isWritable, everyItem, spellingItems]
    cases v.every isShort <;> cases everyItem isShort rest <;> rfl

theorem literalMembers_eq_ite (ms : List (Text × Value)) :
    literalMembers ms = if everyMember isShort ms then some (spellingMembers ms) else none := by
  match ms with
  | [] => rfl
  | (name, v) :: rest =>
    rw [literalMembers, literal_eq v, literalMembers_eq_ite rest, isWritable, everyMember,
      spellingMembers]
    cases v.every isShort <;> cases everyMember isShort rest <;> rfl

end

theorem literal_eq_some_iff {v : Value} {text : Text} :
    v.literal = some text ↔ v.isWritable = true ∧ v.spelling = text := by
  rw [literal_eq]
  split
  next h => rw [Option.some_inj, and_iff_right h]
  next h => exact ⟨nofun, fun hw => absurd hw.1 h⟩

theorem literal_eq_none_iff {v : Value} : v.literal = none ↔ v.isWritable = false := by
  rw [literal_eq]
  cases v.isWritable <;> simp

mutual

theorem quoted_isSome (v : Value) : v.quoted.isSome = v.isWritable := by
  match v with
  | .null | .bool _ | .float _ | .str _ => rfl
  | .int n =>
    rw [quoted, Text.ofInt?, isWritable_int]
    cases Text.isShort n <;> rfl
  | .list items =>
    rw [quoted, isWritable, every, ← quotedItems_isSome items]
    cases quotedItems items <;> rfl
  | .object ms =>
    rw [quoted, isWritable, every, ← quotedMembers_isSome ms]
    cases quotedMembers ms <;> rfl

theorem quotedItems_isSome (items : List Value) :
    (quotedItems items).isSome = everyItem isShort items := by
  match items with
  | [] => rfl
  | v :: rest =>
    rw [quotedItems, everyItem, ← quotedItems_isSome rest, ← isWritable, ← quoted_isSome v]
    cases v.quoted <;> cases quotedItems rest <;> rfl

theorem quotedMembers_isSome (ms : List (Text × Value)) :
    (quotedMembers ms).isSome = everyMember isShort ms := by
  match ms with
  | [] => rfl
  | (name, v) :: rest =>
    rw [quotedMembers, everyMember, ← quotedMembers_isSome rest, ← isWritable, ← quoted_isSome v]
    cases v.quoted <;> cases quotedMembers rest <;> rfl

end

/-- A value can be shown in a message exactly if it can be written in the code. -/
theorem text_isSome (v : Value) : v.text.isSome = v.isWritable := by
  cases v with
  | str s => rfl
  | null | bool _ | int _ | float _ | list _ | object _ => exact quoted_isSome _

end Value

namespace Literal

theorem ofValue?_eq_some_iff {v : Value} {l : Literal} : ofValue? v = some l ↔ l.value = v := by
  obtain ⟨w, text, hw⟩ := l
  unfold ofValue?
  split
  next text' hv =>
    constructor
    · intro h
      cases h
      rfl
    · rintro rfl
      cases hw.symm.trans hv
      rfl
  next hv =>
    constructor
    · intro h
      cases h
    · rintro rfl
      cases hw.symm.trans hv

theorem ofValue?_eq_none_iff {v : Value} : ofValue? v = none ↔ v.isWritable = false := by
  rw [← Value.literal_eq_none_iff, Option.eq_none_iff_forall_ne_some]
  constructor
  · intro h
    cases hv : v.literal with
    | none => rfl
    | some text => exact (h ⟨v, text, hv⟩ (ofValue?_eq_some_iff.mpr rfl)).elim
  · intro h l hl
    have hspells := l.spells
    rw [ofValue?_eq_some_iff.mp hl, h] at hspells
    cases hspells

end Literal

end WorkflowCompiler
