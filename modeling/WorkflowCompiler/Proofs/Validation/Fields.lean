import Mathlib
import WorkflowCompiler.Proofs.Validation.Settings

/-! # What a field asks for

A field admits the values that have its type, are among its choices and reach its minimum. The check
of a node finds fault with a field exactly if the field is needed and not given, or given as a value
that it does not admit; an empty text counts as not given where a text is wanted.

In an accepted graph every node therefore meets its fields, and the tables that later stages look
settings up in know them. There is one exception: a field with choices that is given as an empty
text counts as not given for the check, but no default takes its place in the settings.
-/
namespace WorkflowCompiler

/-- What a field asks of a value. -/
structure Field.Admits (field : Field) (v : Value) : Prop where
  type : field.type.admits v = true
  choice : field.choices ≠ [] → ∃ s ∈ field.choices, v = .str s
  minimum : ∀ least, field.minimum = some least → Validation.isBelow least v = false

/-- The values that count as not given. -/
def Field.Ungiven (field : Field) (v : Value) : Prop :=
  v = .null ∨ field.type = .string ∧ v = .str []

namespace Node
variable (node : Node) (field : Field)

/-- A field has to be given always, or because of what another field is set to. -/
def Needs : Prop :=
  field.required = true ∨ ∃ name expected, field.requiredWhen = some (name, expected) ∧
    node.settings.get name = .str expected

/-- What is wrong with how a field is given. -/
def Errs : Prop :=
  (field.Ungiven (node.config.get field.name) ∧ node.Needs field) ∨
    (¬ field.Ungiven (node.config.get field.name) ∧ ¬ field.Admits (node.config.get field.name))

/-- A field is set to a value that it admits, or it is not set and need not be. -/
def Meets : Prop :=
  (node.settings.get field.name = .null ∧ ¬ node.Needs field) ∨
    field.Admits (node.settings.get field.name)

/-- A field with choices is given as an empty text. -/
def LeavesBlank : Prop := field.choices ≠ [] ∧ node.config.get field.name = .str []

/-- The later stages know what a node is set to: how branches are joined, how a loop is repeated and
by which parameter, and the unit of a delay. -/
structure Known : Prop where
  join : node.kind = .parallel →
    ∃ join, JoinStrategy.ofValue (node.settings.get "joinStrategy") = .ok join
  loop : node.kind = .loop → ∃ kind, LoopKind.ofValue (node.settings.get "loopType") = .ok kind
  parameter : node.kind = .loop →
    ∃ parameter, Template.choose Template.loopParameters (node.settings.get "loopType") =
      .ok parameter
  unit : node.kind = .delay →
    ∃ times, Template.choose Template.secondsOf (node.settings.get "delayUnit") = .ok times

end Node

/-- The fields of a kind that later stages look up in a table. -/
def NodeKind.tabled : NodeKind → List Text
  | .parallel => ["joinStrategy"]
  | .loop => ["loopType"]
  | .delay => ["delayUnit"]
  | _ => []

section Catalogue
variable (kind : NodeKind)

/-- Every default passes the check of its own field. -/
theorem NodeKind.problem?_default :
    ∀ f ∈ kind.fields, f.default.isNull = true ∨
      (Validation.problem? f f.default).toOption = some none := by
  cases kind <;> decide

theorem NodeKind.nil_not_mem_choices : ∀ f ∈ kind.fields, [] ∉ f.choices := by
  cases kind <;> decide

theorem NodeKind.minimum_of_string :
    ∀ f ∈ kind.fields, f.type = .string → f.minimum = none := by
  cases kind <;> decide

/-- The field that makes another one required is a field of the same kind. -/
theorem NodeKind.mem_of_requiredWhen :
    ∀ f ∈ kind.fields, ∀ control ∈ f.requiredWhen, control.1 ∈ kind.fields.map (·.name) := by
  cases kind <;> decide

end Catalogue

namespace Validation

theorem isChoice_iff {choices : List Text} {v : Value} :
    isChoice choices v = true ↔ ∃ s ∈ choices, v = .str s := by
  cases v <;> simp [isChoice]

theorem isText_iff {text : Text} {v : Value} : isText text v = true ↔ v = .str text := by
  cases v <;> simp [isText]

theorem isAbsent_iff {field : Field} {v : Value} : isAbsent field v = true ↔ field.Ungiven v := by
  cases v <;> simp [isAbsent, Field.Ungiven]
  exact fun _ => Iff.rfl

theorem problem?_eq_none_iff {field : Field} {v : Value} :
    problem? field v = .ok none ↔ field.Admits v := by
  unfold problem?
  constructor
  · intro h
    split at h
    · cases h
    next htype =>
      split at h
      · obtain ⟨_, _, h⟩ := exists_of_bind_eq_ok h
        cases h
      next hchoice =>
        refine ⟨by simpa using htype, ?_, ?_⟩
        · intro hchoices
          rw [← isChoice_iff]
          simpa [hchoices] using hchoice
        · intro least hleast
          rw [hleast] at h
          by_contra hbelow
          rw [Bool.not_eq_false] at hbelow
          simp only [hbelow, if_true] at h
          obtain ⟨_, _, h⟩ := exists_of_bind_eq_ok h
          cases h
  · intro h
    have hchoice : ¬ (!field.choices.isEmpty && !isChoice field.choices v) = true := by
      by_cases hchoices : field.choices = []
      · simp [hchoices]
      · simp [isChoice_iff.mpr (h.choice hchoices)]
    rw [h.type, Bool.not_true, if_neg Bool.false_ne_true, if_neg hchoice]
    cases hleast : field.minimum with
    | none => rfl
    | some least => simp [h.minimum least hleast]

theorem controlling_eq {node : Node} {field : Field} (hf : field ∈ node.kind.fields) :
    controlling node field.name = node.settings.get field.name := by
  have hfind : node.kind.fields.find? (·.name == field.name) = some field := by
    have hsome : (node.kind.fields.find? (·.name == field.name)).isSome :=
      List.find?_isSome.mpr ⟨field, hf, beq_self_eq_true field.name⟩
    obtain ⟨other, hother⟩ := Option.isSome_iff_exists.mp hsome
    have hname : other.name = field.name := by simpa using List.find?_some hother
    rw [hother, List.inj_on_of_nodup_map node.kind.fields_nodup
      (List.mem_of_find?_eq_some hother) hf hname]
  rw [node.get_settings hf, controlling]
  cases node.config.get field.name <;> simp [Value.isNull, hfind]

theorem isRequired_iff {node : Node} {field : Field} (hf : field ∈ node.kind.fields) :
    isRequired node field = true ↔ node.Needs field := by
  unfold isRequired Node.Needs
  rw [Bool.or_eq_true]
  refine or_congr_right ?_
  cases hcontrol : field.requiredWhen with
  | none => simp
  | some control =>
    obtain ⟨other, hother, hname⟩ :=
      List.mem_map.mp (node.kind.mem_of_requiredWhen field hf control hcontrol)
    simp only [Option.some.injEq]
    rw [← hname, controlling_eq hother, isText_iff]
    constructor
    · intro h
      exact ⟨_, _, rfl, by rw [← hname, h]⟩
    · rintro ⟨name, expected, rfl, h⟩
      rw [hname, h]

/-- The check of a field finds fault with it exactly if something is wrong with how it is given. -/
theorem checkField_eq_none_iff {node : Node} {field : Field} (hf : field ∈ node.kind.fields) :
    checkField node field = .ok none ↔ ¬ node.Errs field := by
  have hmap : ∀ x : Except Fault (Option Text),
      (x.map fun problem => problem.map (invalidConfig node field)) = .ok none ↔ x = .ok none := by
    rintro (fault | problem)
    · simp [Except.map]
    · simp [Except.map]
  simp only [checkField, Node.Errs, ← isAbsent_iff, ← isRequired_iff hf, ← problem?_eq_none_iff]
  by_cases habsent : isAbsent field (node.config.get field.name) = true
  · simp [habsent]
  · simp [habsent, hmap]

end Validation

namespace Validated
open Validation

section Meets
variable (v : Validated) {node : Node} (hn : node ∈ v.graph.nodes)
variable {field : Field} (hf : field ∈ node.kind.fields)
include hn hf

theorem not_errs : ¬ node.Errs field :=
  (checkField_eq_none_iff hf).mp (v.checkField_eq_none hn hf)

/-- A field that is not given is met by its default, or else need not be given. -/
theorem meets_of_null (hnull : node.config.get field.name = .null) : node.Meets field := by
  have hget : node.settings.get field.name = field.default := by
    rw [node.get_settings hf, hnull]
    rfl
  unfold Node.Meets
  rw [hget]
  rcases node.kind.problem?_default field hf with hdefault | hdefault
  · apply Or.inl
    refine ⟨Value.isNull_iff.mp hdefault, ?_⟩
    intro hneeds
    exact v.not_errs hn hf (.inl ⟨.inl hnull, hneeds⟩)
  · exact .inr (problem?_eq_none_iff.mp (eq_ok_of_toOption hdefault))

/-- A given field is met by its value. An empty text that is not to be one of some choices is a text
like any other. -/
theorem meets_of_given (hnull : node.config.get field.name ≠ .null)
    (hblank : ¬ node.LeavesBlank field) : node.Meets field := by
  have hget : node.settings.get field.name = node.config.get field.name := by
    rw [node.get_settings hf, if_neg (mt Value.isNull_iff.mp hnull)]
  apply Or.inr
  rw [hget]
  by_cases hgiven : field.Ungiven (node.config.get field.name)
  · obtain ⟨htype, hempty⟩ := hgiven.resolve_left hnull
    have hminimum := node.kind.minimum_of_string field hf htype
    rw [hempty]
    refine ⟨by rw [htype]; rfl, ?_, ?_⟩
    · intro hchoices
      exact absurd ⟨hchoices, hempty⟩ hblank
    · intro least hleast
      rw [hminimum] at hleast
      cases hleast
  · by_contra hadmits
    exact v.not_errs hn hf (.inr ⟨hgiven, hadmits⟩)

theorem meets_iff : node.Meets field ↔ ¬ node.LeavesBlank field := by
  constructor
  · rintro hmeets ⟨hchoices, hempty⟩
    have hget : node.settings.get field.name = .str [] := by
      rw [node.get_settings hf, hempty]
      rfl
    rcases hmeets with ⟨hnull, -⟩ | hadmits
    · rw [hget] at hnull
      cases hnull
    · obtain ⟨s, hs, heq⟩ := hadmits.choice hchoices
      rw [hget] at heq
      obtain rfl := Value.str.inj heq
      exact node.kind.nil_not_mem_choices field hf hs
  · intro hblank
    by_cases hnull : node.config.get field.name = .null
    · exact v.meets_of_null hn hf hnull
    · exact v.meets_of_given hn hf hnull hblank

end Meets

section Known
variable (v : Validated) {node : Node} (hn : node ∈ v.graph.nodes)
include hn

/-- The settings of a node that leaves none of its tabled fields blank are known. -/
theorem known_of_given (hgiven : ∀ name ∈ node.kind.tabled, node.config.get name ≠ .str []) :
    node.Known where
  join hk := v.exists_join hn hk (hgiven _ (by simp [hk, NodeKind.tabled]))
  loop hk := by
    obtain ⟨kind, -, hkind, -⟩ :=
      v.exists_loopKind hn hk (hgiven _ (by simp [hk, NodeKind.tabled]))
    exact ⟨kind, hkind⟩
  parameter hk := by
    obtain ⟨-, parameter, -, hparameter⟩ :=
      v.exists_loopKind hn hk (hgiven _ (by simp [hk, NodeKind.tabled]))
    exact ⟨parameter, hparameter⟩
  unit hk := by
    have hf : Field.choice "delayUnit" ["seconds", "minutes", "hours"] ∈ node.kind.fields := by
      simp [hk, NodeKind.fields, Field.own]
    obtain ⟨s, hs, hget⟩ := v.choice_settings hn hf (List.cons_ne_nil _ _)
      (hgiven _ (by simp [hk, NodeKind.tabled]))
    rw [hget]
    simp only [List.mem_cons, List.not_mem_nil, or_false] at hs
    rcases hs with rfl | rfl | rfl
    · exact ⟨1, rfl⟩
    · exact ⟨60, rfl⟩
    · exact ⟨3600, rfl⟩

end Known

end Validated

theorem Node.Known.not_blank {node : Node} (h : node.Known) :
    ∀ name ∈ node.kind.tabled, node.config.get name ≠ .str [] := by
  intro name hname hempty
  have hget : ∀ choices, Field.choice name choices ∈ node.kind.fields →
      node.settings.get name = .str [] := by
    intro choices hf
    have := node.get_settings hf
    simpa [Field.choice, hempty, Value.isNull] using this
  cases hk : node.kind with
  | parallel =>
    obtain rfl : name = "joinStrategy" := by simpa [hk, NodeKind.tabled] using hname
    obtain ⟨join, hjoin⟩ := h.join hk
    rw [hget ["wait-for-all", "race"] (by simp [hk, NodeKind.fields, Field.own])] at hjoin
    cases hjoin
  | loop =>
    obtain rfl : name = "loopType" := by simpa [hk, NodeKind.tabled] using hname
    obtain ⟨kind, hkind⟩ := h.loop hk
    rw [hget ["fixed-count", "while", "for-each"]
      (by simp [hk, NodeKind.fields, Field.own])] at hkind
    cases hkind
  | delay =>
    obtain rfl : name = "delayUnit" := by simpa [hk, NodeKind.tabled] using hname
    obtain ⟨times, htimes⟩ := h.unit hk
    rw [hget ["seconds", "minutes", "hours"] (by simp [hk, NodeKind.fields, Field.own])] at htimes
    cases htimes
  | _ => simp [hk, NodeKind.tabled] at hname

/-- A node of an accepted graph meets all its fields, except those with choices that it gives as an
empty text; and what it is set to is known to the later stages exactly if no field that they look up
is given so. -/
theorem Validated.meets_fields (v : Validated) {node : Node} (hn : node ∈ v.graph.nodes) :
    (∀ field ∈ node.kind.fields, node.Meets field ↔ ¬ node.LeavesBlank field) ∧
      (node.Known ↔ ∀ name ∈ node.kind.tabled, node.config.get name ≠ .str []) := by
  constructor
  · intro field hf
    exact v.meets_iff hn hf
  · exact ⟨Node.Known.not_blank, v.known_of_given hn⟩

/-- A loop that does not say how it is repeated. -/
def unsaidLoop : Node := ⟨"h", .loop, [("loopType", .str []), ("loopCount", .int 2)], none⟩

/-- A delay that leaves its unit to the default. -/
def shortDelay : Node := ⟨"d", .delay, [("delayAmount", .int 5)], none⟩

def loopThenDelay : Graph where
  nodes := [⟨"i", .input, [], none⟩, unsaidLoop, shortDelay]
  edges := [⟨"e1", "i", "h", none, none⟩, ⟨"e2", "h", "d", some "exit", none⟩]

theorem validate_loopThenDelay : validate loopThenDelay = .ok [] :=
  Validation.validate_eq_nil rfl rfl rfl (by cbv) (by cbv) rfl

/-- The loop is accepted though its kind is not known; the delay meets its fields. -/
theorem meets_fields_loopThenDelay :
    (∃ v : Validated, v.graph = loopThenDelay) ∧
      (unsaidLoop ∈ loopThenDelay.nodes ∧ ¬ unsaidLoop.Known ∧
        ¬ unsaidLoop.Meets (Field.choice "loopType" ["fixed-count", "while", "for-each"])) ∧
      (shortDelay ∈ loopThenDelay.nodes ∧ shortDelay.Known ∧
        ∀ field ∈ shortDelay.kind.fields, shortDelay.Meets field) := by
  let v : Validated := ⟨loopThenDelay, [], validate_loopThenDelay, rfl⟩
  have hloop : unsaidLoop ∈ v.graph.nodes := by simp [v, loopThenDelay]
  have hdelay : shortDelay ∈ v.graph.nodes := by simp [v, loopThenDelay]
  obtain ⟨hmeets, hknown⟩ := v.meets_fields hloop
  obtain ⟨hmeets', hknown'⟩ := v.meets_fields hdelay
  have hfield : Field.choice "loopType" ["fixed-count", "while", "for-each"] ∈
      unsaidLoop.kind.fields := by
    simp [unsaidLoop, NodeKind.fields, Field.own]
  have hgiven : ∀ name, shortDelay.config.get name ≠ .str [] := by
    intro name
    rw [shortDelay, Members.get_cons]
    split
    · simp
    · simp [Members.get, Members.get?]
  refine ⟨⟨v, rfl⟩, ⟨hloop, ?_, ?_⟩, hdelay, ?_, ?_⟩
  · rw [hknown]
    exact fun h => h "loopType" List.mem_cons_self rfl
  · rw [hmeets _ hfield, not_not]
    exact ⟨List.cons_ne_nil _ _, rfl⟩
  · rw [hknown']
    exact fun name _ => hgiven name
  · intro field hf
    rw [hmeets' field hf]
    exact fun hblank => hgiven field.name hblank.2

end WorkflowCompiler
