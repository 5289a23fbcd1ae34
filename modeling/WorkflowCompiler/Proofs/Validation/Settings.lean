import Mathlib
import WorkflowCompiler.Block.Basic
import WorkflowCompiler.Proofs.Validation.Sound
import WorkflowCompiler.Proofs.Value.Members
import WorkflowCompiler.Template.Basic

/-! # Settings of accepted nodes

What a node is set to is its configuration, with the default of every field that is not given. In
an accepted graph a field with choices is set to one of them, unless it is given as an empty text,
the condition of a conditional is a text, and every delay has an amount and a length.
-/
namespace WorkflowCompiler

theorem Members.get_cons (m : Text × Value) (rest : Members) (name : Text) :
    Members.get (m :: rest) name = if name = m.1 then m.2 else rest.get name := by
  by_cases h : name = m.1
  · simp [Members.get, Members.get?, List.lookup, h]
  · have hne : (name == m.1) = false := beq_eq_false_iff_ne.mpr h
    simp [Members.get, Members.get?, List.lookup, hne, h]

theorem Members.get_put (ms : Members) (name other : Text) (value : Value) :
    (ms.put name value).get other = if other = name then value else ms.get other := by
  induction ms with
  | nil => rw [Members.put, Members.get_cons]
  | cons m rest ih =>
    rw [Members.put]
    split
    next h =>
      subst h
      simp only [Members.get_cons]
      split <;> rfl
    next h =>
      simp only [Members.get_cons, ih]
      split
      next hkey =>
        subst hkey
        rw [if_neg h]
      · rfl

theorem Value.isNull_iff {v : Value} : v.isNull = true ↔ v = .null := by
  cases v <;> simp [Value.isNull]

namespace Field

theorem get_fill (config : Members) (field : Field) (name : Text) :
    (Field.fill config field).get name =
      if name = field.name ∧ (config.get name).isNull then field.default else config.get name := by
  unfold Field.fill
  split
  next h =>
    rw [Bool.and_eq_true] at h
    rw [Members.get_put]
    by_cases hname : name = field.name
    · subst hname
      simp [h.1]
    · simp [hname]
  next h =>
    split
    next hname =>
      obtain ⟨rfl, hnull⟩ := hname
      have hdefault : field.default.isNull = true := by simpa [hnull] using h
      rw [Value.isNull_iff.mp hnull, Value.isNull_iff.mp hdefault]
    · rfl

theorem get_foldl_fill {fields : List Field} {name : Text} (h : ∀ f ∈ fields, f.name ≠ name)
    (config : Members) : (fields.foldl Field.fill config).get name = config.get name := by
  induction fields generalizing config with
  | nil => rfl
  | cons f rest ih =>
    rw [List.foldl_cons, ih fun x hx => h x (List.mem_cons_of_mem _ hx), get_fill, if_neg]
    exact fun hname => h f List.mem_cons_self hname.1.symm

theorem get_foldl_fill_mem {fields : List Field} (hnodup : (fields.map (·.name)).Nodup)
    {field : Field} (hf : field ∈ fields) (config : Members) :
    (fields.foldl Field.fill config).get field.name =
      if (config.get field.name).isNull then field.default else config.get field.name := by
  induction fields generalizing config with
  | nil => exact absurd hf List.not_mem_nil
  | cons f rest ih =>
    obtain ⟨hfresh, hrest⟩ := List.nodup_cons.mp hnodup
    rw [List.foldl_cons]
    rcases List.mem_cons.mp hf with rfl | hf
    · rw [get_foldl_fill, get_fill]
      · simp
      · intro x hx hname
        exact hfresh (List.mem_map.mpr ⟨x, hx, hname⟩)
    · have hne : field.name ≠ f.name := by
        intro hname
        exact hfresh (List.mem_map.mpr ⟨field, hf, hname⟩)
      have hfill : (Field.fill config f).get field.name = config.get field.name := by
        rw [get_fill, if_neg fun h => hne h.1]
      rw [ih hrest hf, hfill]

end Field

theorem NodeKind.fields_nodup (kind : NodeKind) : (kind.fields.map (·.name)).Nodup := by
  cases kind <;> decide

theorem Node.get_settings (node : Node) {field : Field} (hf : field ∈ node.kind.fields) :
    node.settings.get field.name = if (node.config.get field.name).isNull then field.default
      else node.config.get field.name :=
  Field.get_foldl_fill_mem node.kind.fields_nodup hf node.config

namespace Validated
open Validation

theorem checkField_eq_none (v : Validated) {node : Node} (hn : node ∈ v.graph.nodes) {field : Field}
    (hf : field ∈ node.kind.fields) : checkField node field = .ok none :=
  checkNode_eq_nil_iff.mp (checkConfig_eq_nil_iff.mp v.checkConfig_eq_nil node hn) field hf

/-- A field with choices is set to one of them, unless it is given as an empty text. -/
theorem choice_settings (v : Validated) {node : Node} (hn : node ∈ v.graph.nodes) {name : Text}
    {choices : List Text} (hf : Field.choice name choices ∈ node.kind.fields)
    (hchoices : choices ≠ []) (hgiven : node.config.get name ≠ .str []) :
    ∃ s ∈ choices, node.settings.get name = .str s := by
  have hcheck := v.checkField_eq_none hn hf
  have hget : node.settings.get name = if (node.config.get name).isNull then .str (choices.headD [])
      else node.config.get name := node.get_settings hf
  simp only [checkField, Field.choice, isRequired, Bool.false_or, Bool.false_eq_true,
    if_false] at hcheck
  cases hnull : (node.config.get name).isNull with
  | true =>
    obtain ⟨first, rest, rfl⟩ := List.exists_cons_of_ne_nil hchoices
    exact ⟨first, List.mem_cons_self, by rw [hget, if_pos hnull, List.headD_cons]⟩
  | false =>
    rw [hnull] at hget
    have hpresent : isAbsent { name, type := .string, default := .str (choices.headD []), choices }
        (node.config.get name) = false := by
      cases hv : node.config.get name with
      | null => simp [hv, Value.isNull] at hnull
      | str s =>
        rw [hv] at hgiven
        have hs : s ≠ [] := fun hs => hgiven (by rw [hs])
        exact decide_eq_false hs
      | _ => rfl
    rw [hpresent] at hcheck
    simp only [Bool.false_eq_true, if_false] at hcheck
    obtain ⟨problem, hproblem, hnone⟩ := map_eq_ok hcheck
    rw [Option.map_eq_none_iff.mp hnone] at hproblem
    simp only [problem?] at hproblem
    split at hproblem
    · cases hproblem
    · split at hproblem
      · obtain ⟨_, _, hproblem⟩ := exists_of_bind_eq_ok hproblem
        cases hproblem
      next htype hchoice =>
        cases hv : node.config.get name with
        | str s =>
          refine ⟨s, ?_, by rw [hget, hv]; rfl⟩
          simpa [hv, isChoice, hchoices] using hchoice
        | _ => simp [hv, FieldType.admits] at htype

section Settled
variable (v : Validated) {node : Node} (hn : node ∈ v.graph.nodes)
include v hn

theorem exists_join (hk : node.kind = .parallel)
    (hgiven : node.config.get "joinStrategy" ≠ .str []) :
    ∃ join, JoinStrategy.ofValue (node.settings.get "joinStrategy") = .ok join := by
  have hf : Field.choice "joinStrategy" ["wait-for-all", "race"] ∈ node.kind.fields := by
    simp [hk, NodeKind.fields, Field.own]
  obtain ⟨s, hs, hget⟩ := v.choice_settings hn hf (List.cons_ne_nil _ _) hgiven
  rw [hget]
  rcases List.mem_pair.mp hs with rfl | rfl
  · exact ⟨.waitForAll, rfl⟩
  · exact ⟨.race, rfl⟩

/-- The kind of a loop is known, and so is the parameter that it asks for. -/
theorem exists_loopKind (hk : node.kind = .loop) (hgiven : node.config.get "loopType" ≠ .str []) :
    ∃ kind parameter, LoopKind.ofValue (node.settings.get "loopType") = .ok kind ∧
      Template.choose Template.loopParameters (node.settings.get "loopType") = .ok parameter := by
  have hf : Field.choice "loopType" ["fixed-count", "while", "for-each"] ∈ node.kind.fields := by
    simp [hk, NodeKind.fields, Field.own]
  obtain ⟨s, hs, hget⟩ := v.choice_settings hn hf (List.cons_ne_nil _ _) hgiven
  rw [hget]
  simp only [List.mem_cons, List.not_mem_nil, or_false] at hs
  rcases hs with rfl | rfl | rfl
  · exact ⟨.fixedCount, _, rfl, rfl⟩
  · exact ⟨.whileTrue, _, rfl, rfl⟩
  · exact ⟨.forEach, _, rfl, rfl⟩

theorem delayAmount_settings (hk : node.kind = .delay) :
    (∃ n, node.settings.get "delayAmount" = .int n) ∨
      ∃ x, node.settings.get "delayAmount" = .float x := by
  let field : Field := { name := "delayAmount", type := .number, required := true, minimum := some 0 }
  have hf : field ∈ node.kind.fields := by
    simp [field, hk, NodeKind.fields, Field.own]
  have hcheck := v.checkField_eq_none hn hf
  have hget : node.settings.get "delayAmount" = if (node.config.get "delayAmount").isNull then .null
      else node.config.get "delayAmount" := node.get_settings hf
  simp only [checkField, field, isRequired, Bool.true_or, if_true] at hcheck
  rw [hget]
  cases hv : node.config.get "delayAmount" with
  | int n => exact Or.inl ⟨n, rfl⟩
  | float x => exact Or.inr ⟨x, rfl⟩
  | _ => simp [hv, isAbsent, problem?, FieldType.admits, Except.map] at hcheck

theorem condition_settings (hk : node.kind = .conditional) :
    ∃ s, node.settings.get "condition" = .str s := by
  have hf : Field.requiredText "condition" ∈ node.kind.fields := by
    simp [hk, NodeKind.fields, Field.own]
  have hcheck := v.checkField_eq_none hn hf
  have hget : node.settings.get "condition" = if (node.config.get "condition").isNull then .null
      else node.config.get "condition" := node.get_settings hf
  simp only [checkField, Field.requiredText, isRequired, Bool.true_or, if_true] at hcheck
  rw [hget]
  cases hv : node.config.get "condition" with
  | str s => exact ⟨s, rfl⟩
  | _ => simp [hv, isAbsent, problem?, FieldType.admits, Except.map] at hcheck

end Settled

end Validated

theorem Validated.exists_seconds (v : Validated) {node : Node} (hn : node ∈ v.graph.nodes)
    (hk : node.kind = .delay) (hgiven : node.config.get "delayUnit" ≠ .str []) :
    ∃ x, Template.seconds node.settings = .ok x := by
  have hf : Field.choice "delayUnit" ["seconds", "minutes", "hours"] ∈ node.kind.fields := by
    simp [hk, NodeKind.fields, Field.own]
  obtain ⟨unit, hunit, hget⟩ := v.choice_settings hn hf (List.cons_ne_nil _ _) hgiven
  obtain ⟨times, htimes⟩ : ∃ times, Template.secondsOf.lookup unit = some times := by
    simp only [List.mem_cons, List.not_mem_nil, or_false] at hunit
    rcases hunit with rfl | rfl | rfl <;> exact ⟨_, rfl⟩
  have hseconds : ∀ amount, node.settings.get? "delayAmount" = some amount →
      Template.seconds node.settings = Template.scaled amount times := by
    intro amount hamount
    simp only [Template.seconds, hamount, hget, Template.choose, htimes]
    rfl
  rcases v.delayAmount_settings hn hk with ⟨n, hn⟩ | ⟨x, hx⟩
  · exact ⟨_, hseconds _ (Members.get?_of_get hn nofun)⟩
  · exact ⟨_, hseconds _ (Members.get?_of_get hx nofun)⟩

end WorkflowCompiler
