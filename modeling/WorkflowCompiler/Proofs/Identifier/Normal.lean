import Mathlib
import WorkflowCompiler.CommandLine.Run
import WorkflowCompiler.Proofs.Identifier.Valid

/-! # Identifiers as normal forms

The stem of an identifier is made of words with single underscores between them, and a text of that
form is its own stem. So the identifier of a name is the identifier of itself, and the file of a
module that is named after its workflow bears the name of the module.
-/
namespace WorkflowCompiler.Identifier

/-- Words of letters and digits with one underscore between neighbours. -/
inductive Joined : Text → Prop
  | last {p : CodePoint} (hp : p.is isWordChar = true) : Joined [p]
  | next {p : CodePoint} {rest : Text} (hp : p.is isWordChar = true) (h : Joined rest) :
    Joined (p :: rest)
  | gap {p : CodePoint} {rest : Text} (hp : p.is isWordChar = true) (h : Joined rest) :
    Joined (p :: .char '_' :: rest)

namespace Joined
variable {s t : Text}

theorem ne_nil (h : Joined s) : s ≠ [] := by cases h <;> exact List.cons_ne_nil _ _

theorem head {p : CodePoint} (h : Joined (p :: s)) : p.is isWordChar = true := by
  cases h with
  | last hp | next hp _ | gap hp _ => exact hp

theorem append (hs : Joined s) (ht : Joined t) : Joined (s ++ "_" ++ t) := by
  induction hs with
  | last hp => exact .gap hp ht
  | next hp _ ih => exact .next hp ih
  | gap hp _ ih => exact .gap hp ih

theorem plain (h : Joined s) : Plain s := by
  induction h with
  | last hp => exact List.forall_mem_singleton.mpr (is_isNameChar_of_word hp)
  | next hp _ ih => exact List.forall_mem_cons.mpr ⟨is_isNameChar_of_word hp, ih⟩
  | gap hp _ ih =>
    exact List.forall_mem_cons.mpr
      ⟨is_isNameChar_of_word hp, List.forall_mem_cons.mpr ⟨by decide, ih⟩⟩

theorem exists_last (h : Joined s) : ∃ init p, s = init ++ [p] ∧ p ≠ .char '_' := by
  induction h with
  | last hp => exact ⟨[], _, rfl, ne_underscore hp⟩
  | @next q _ _ _ ih =>
    obtain ⟨init, p, rfl, hp⟩ := ih
    exact ⟨q :: init, p, rfl, hp⟩
  | @gap q _ _ _ ih =>
    obtain ⟨init, p, rfl, hp⟩ := ih
    exact ⟨q :: .char '_' :: init, p, rfl, hp⟩

/-- No two neighbours are underscores, also when one underscore is put at the end. -/
theorem isChain (h : Joined s) (q : CodePoint) :
    (q :: (s ++ "_")).IsChain fun a b => a ≠ .char '_' ∨ b ≠ .char '_' := by
  induction h generalizing q with
  | last hp =>
    have hword := ne_underscore hp
    exact .cons_cons (.inr hword) (.cons_cons (.inl hword) (.singleton _))
  | next hp _ ih => exact .cons_cons (.inr (ne_underscore hp)) (ih _)
  | gap hp _ ih =>
    have hword := ne_underscore hp
    exact .cons_cons (.inr hword) (.cons_cons (.inl hword) (ih _))

end Joined

/-! ## Stems -/

theorem joined_cons_keep {p : CodePoint} (hp : p.is isWordChar = true) (s : Text) (pending : Bool) :
    Joined (p :: keep s true pending) := by
  induction s generalizing p pending with
  | nil => exact .last hp
  | cons q rest ih =>
    rw [keep]
    split
    next hq =>
      cases pending with
      | false => exact .next hp (ih hq false)
      | true => exact .gap hp (ih hq false)
    next => exact ih hp true

theorem joined_keep (s : Text) (pending : Bool) :
    keep s false pending = [] ∨ Joined (keep s false pending) := by
  induction s generalizing pending with
  | nil => exact Or.inl rfl
  | cons p rest ih =>
    rw [keep]
    split
    next hp => exact Or.inr (joined_cons_keep hp rest false)
    next => exact ih true

theorem joined_stem {name : Text} (h : stem name ≠ []) : Joined (stem name) := by
  rw [stem_eq_keep] at h ⊢
  exact (joined_keep _ _).resolve_left h

theorem Joined.keep_true {s : Text} (h : Joined s) : keep s true false = s ∧
    keep s true true = .char '_' :: s := by
  induction h with
  | last hp => simp [keep, hp]
  | next hp _ ih => simp [keep, hp, ih.1]
  | gap hp _ ih =>
    have hgap : CodePoint.is isWordChar (.char '_') = false := by decide
    simp [keep, hp, hgap, ih.2]

theorem Joined.keep_false {s : Text} (h : Joined s) : keep s false false = s := by
  cases h with
  | last hp => simp [keep, hp]
  | next hp h => simp [keep, hp, h.keep_true.1]
  | gap hp h =>
    have hgap : CodePoint.is isWordChar (.char '_') = false := by decide
    simp [keep, hp, hgap, h.keep_true.2]

theorem lower_of_isNameChar {p : CodePoint} (h : p.is isNameChar = true) : lower p = [p] := by
  have hlower : ∀ n < 123, isNameChar (Char.ofNat n) = true →
      lowerChar (Char.ofNat n) = [Char.ofNat n] := by decide
  cases p with
  | surrogate offset => rfl
  | char c =>
    have hc : isNameChar c = true := h
    have hbound : c.toNat < 123 := by
      simp only [isNameChar, isWordChar, Bool.or_eq_true, Bool.and_eq_true, decide_eq_true_iff,
        beq_iff_eq] at hc
      rcases hc with (hc | hc) | rfl
      · exact Nat.lt_succ_of_le hc.2
      · exact Nat.lt_of_le_of_lt hc.2 (by decide)
      · decide
    rw [← Char.ofNat_toNat c] at hc ⊢
    rw [lower, hlower _ hbound hc]
    rfl

theorem flatMap_lower {s : Text} (h : Plain s) : s.flatMap lower = s := by
  induction s with
  | nil => rfl
  | cons p rest ih =>
    obtain ⟨hp, hrest⟩ := List.forall_mem_cons.mp h
    rw [List.flatMap_cons, lower_of_isNameChar hp, ih hrest, List.singleton_append]

theorem Joined.stem_unreserve {s : Text} (h : Joined s) : stem (unreserve s) = s := by
  rw [stem_eq_keep, unreserve]
  split
  · rw [flatMap_lower (List.forall_mem_append.mpr ⟨h.plain, plain_underscore⟩),
      keep_append_gap _ (by decide), h.keep_false]
  · rw [flatMap_lower h.plain, h.keep_false]

/-! ## Identifiers -/

theorem not_isDigit_of_isLetter {p : CodePoint} (h : p.is isLetter = true) :
    p.is Text.isDigit = false := by
  have hletters : ∀ n < 123, 97 ≤ n → Text.inRanges Text.digitBounds n = false := by decide
  cases p with
  | surrogate offset => rfl
  | char c =>
    simp only [CodePoint.is, isLetter, Bool.and_eq_true, decide_eq_true_iff] at h
    exact hletters c.toNat (Nat.lt_succ_of_le h.2) h.1

theorem Led.unlead {s : Text} (h : Led s) (fallback : Text) : Identifier.unlead fallback s = s := by
  obtain ⟨p, rest, rfl, hp, -⟩ := h
  rw [Identifier.unlead, not_isDigit_of_isLetter hp, if_neg Bool.false_ne_true]

theorem Joined.unlead {fallback s : Text} (h : Joined s) (hfallback : Joined fallback) :
    Joined (Identifier.unlead fallback s) := by
  cases s with
  | nil => exact absurd rfl h.ne_nil
  | cons p rest =>
    rw [Identifier.unlead]
    split
    · exact hfallback.append h
    · exact h

/-- An identifier is made of words with single underscores between them, the first of which begins
with a letter, and possibly the mark of a reserved word. -/
theorem exists_ofName_eq {fallback : Text} (hfallback : Joined fallback) (hled : Led fallback)
    (name : Text) : ∃ s, Joined s ∧ Led s ∧ ofName name fallback = unreserve s := by
  have hjoined : Joined (if (stem name).isEmpty then fallback else stem name) := by
    split
    · exact hfallback
    next hne => exact joined_stem (by simpa using hne)
  refine ⟨_, hjoined.unlead hfallback, led_unlead hled hjoined.plain ?_ hjoined.ne_nil, rfl⟩
  intro p rest heq
  rw [heq] at hjoined
  exact hjoined.head

theorem ofName_unreserve {s : Text} (h : Joined s) (hled : Led s) (fallback : Text) :
    ofName (unreserve s) fallback = unreserve s := by
  rw [ofName]
  simp only [h.stem_unreserve, List.isEmpty_iff, h.ne_nil, if_false, hled.unlead]

theorem not_infix_unreserve {s : Text} (h : Joined s) : ¬("__" : Text) <:+: unreserve s := by
  have hstart : unreserve s <+: s ++ "_" := by
    unfold unreserve
    split
    · exact List.prefix_rfl
    · exact List.prefix_append _ _
  intro hpair
  have hchain := List.IsChain.infix (h.isChain (.char '_')).tail (hpair.trans hstart.isInfix)
  exact absurd hchain (by decide)

theorem isReserved_of_getLast? {s : Text} (h : Joined s)
    (hlast : (unreserve s).getLast? = some (.char '_')) :
    isReserved s = true ∧ unreserve s = s ++ "_" := by
  unfold unreserve at hlast ⊢
  split at hlast
  next hs => exact ⟨hs, if_pos hs⟩
  next =>
    obtain ⟨init, p, rfl, hp⟩ := h.exists_last
    rw [List.getLast?_concat] at hlast
    exact absurd (Option.some.inj hlast) hp

/-! ## Module files -/

theorem ofChars_chars {s : Text} (h : Plain s) : Text.ofChars s.chars = s := by
  induction s with
  | nil => rfl
  | cons p rest ih =>
    obtain ⟨hp, hrest⟩ := List.forall_mem_cons.mp h
    cases p with
    | surrogate offset => cases hp
    | char c => exact congrArg (CodePoint.char c :: ·) (ih hrest)

theorem ofString_fileName (moduleName : Text) : Text.ofString (CommandLine.fileName moduleName) =
    ofName moduleName workflowFallback ++ ".py" := by
  have hplain := (led_of_isValid (isValid_ofName led_workflowFallback moduleName)).plain
  rw [CommandLine.fileName, Text.ofString, String.toList_append, String.toList_ofList, Text.ofChars,
    List.map_append]
  exact congrArg (· ++ Text.ofString ".py") (ofChars_chars hplain)

theorem moduleNameOf_eq {settings : CommandLine.Settings} (workflow : Workflow)
    (h : ∀ name, settings.moduleName = .value name → name = "") :
    CommandLine.moduleNameOf settings workflow = ofName workflow.name workflowFallback := by
  unfold CommandLine.moduleNameOf
  split
  next name hname => rw [if_pos (h name hname)]
  · rfl
  · rfl

theorem joined_fallback {fallback : Text} (h : fallback ∈ [nodeFallback, workflowFallback]) :
    Joined fallback := by
  have hstem : ∀ s ∈ [nodeFallback, workflowFallback], stem s = s ∧ s ≠ [] := by decide
  obtain ⟨heq, hne⟩ := hstem fallback h
  rw [← heq] at hne ⊢
  exact joined_stem hne

theorem led_fallback {fallback : Text} (h : fallback ∈ [nodeFallback, workflowFallback]) :
    Led fallback := by
  rcases List.mem_pair.mp h with rfl | rfl
  · exact led_nodeFallback
  · exact led_workflowFallback

/-- The identifier of a name is valid, has no two underscores in a row and ends with one only if it
is a reserved word that is marked by it. It is the identifier of itself. So where no module is asked
for, the file of the code is called like the module, which is called after the workflow. -/
theorem ofName_normal {fallback : Text} (h : fallback ∈ [nodeFallback, workflowFallback])
    (name : Text) :
    isValid (ofName name fallback) = true ∧ ¬("__" : Text) <:+: ofName name fallback ∧
    ((ofName name fallback).getLast? = some (.char '_') →
      ∃ word ∈ reservedWords, ofName name fallback = word ++ "_") ∧
    ofName (ofName name fallback) fallback = ofName name fallback ∧
    ∀ (settings : CommandLine.Settings) (workflow : Workflow), workflow.name = name →
      (∀ m, settings.moduleName = .value m → m = "") →
      CommandLine.moduleNameOf settings workflow = ofName name workflowFallback ∧
      Text.ofString (CommandLine.fileName (CommandLine.moduleNameOf settings workflow)) =
        CommandLine.moduleNameOf settings workflow ++ ".py" := by
  have hstable : ∀ fallback ∈ [nodeFallback, workflowFallback],
      ofName (ofName name fallback) fallback = ofName name fallback := by
    intro fallback h
    obtain ⟨s, hs, hled, heq⟩ := exists_ofName_eq (joined_fallback h) (led_fallback h) name
    rw [heq, ofName_unreserve hs hled]
  obtain ⟨s, hs, -, heq⟩ := exists_ofName_eq (joined_fallback h) (led_fallback h) name
  refine ⟨isValid_ofName (led_fallback h) name, ?_, ?_, hstable fallback h, ?_⟩
  · rw [heq]
    exact not_infix_unreserve hs
  · rw [heq]
    intro hlast
    obtain ⟨hreserved, hmark⟩ := isReserved_of_getLast? hs hlast
    exact ⟨s, List.contains_iff_mem.mp hreserved, hmark⟩
  · rintro settings workflow rfl hmodule
    have hname := moduleNameOf_eq workflow hmodule
    refine ⟨hname, ?_⟩
    rw [ofString_fileName, hname, hstable _ (by decide)]

theorem ofName_normal_reserved : ofName " Class?" workflowFallback = "class_" ∧
    ofName "class_" workflowFallback = "class_" ∧
    Text.ofString (CommandLine.fileName (CommandLine.moduleNameOf
      { workflow := "w.json", moduleName := .value "" } ⟨⟨[], []⟩, " Class?"⟩)) = "class_.py" := by
  have heq : ofName " Class?" workflowFallback = "class_" := by decide
  have hfallback : workflowFallback ∈ [nodeFallback, workflowFallback] := by decide
  obtain ⟨-, -, -, hstable, hfile⟩ := ofName_normal hfallback " Class?"
  obtain ⟨hname, hpath⟩ := hfile { workflow := "w.json", moduleName := .value "" }
    ⟨⟨[], []⟩, " Class?"⟩ rfl fun m hm => (CommandLine.Choice.value.inj hm).symm
  rw [heq] at hstable hname
  rw [hname] at hpath
  refine ⟨heq, hstable, ?_⟩
  rw [hname]
  exact hpath

end WorkflowCompiler.Identifier
