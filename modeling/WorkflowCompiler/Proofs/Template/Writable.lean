import Mathlib
import WorkflowCompiler.Block.Basic
import WorkflowCompiler.Proofs.Template.Arguments

/-! # What can be stated

The construct of a node shows some of its fields, and for a delay the seconds. Where its parts are
there, it can be stated exactly if all of that can be written.
-/
namespace WorkflowCompiler

theorem LoopKind.eq_of_ofValue {v : Value} {kind : LoopKind} (h : LoopKind.ofValue v = .ok kind) :
    v = .str kind.name := by
  rw [LoopKind.ofValue] at h
  split at h
  next found hfound =>
    cases h
    obtain ⟨s, hs, hname⟩ := Option.bind_eq_some_iff.mp hfound
    have hkind : kind.name = s := by simpa using List.find?_some hname
    cases v with
    | str text =>
      cases hs
      rw [hkind]
    | null | bool _ | int _ | float _ | list _ | object _ => cases hs
  · cases h

theorem LoopKind.exists_parameter {v : Value} {kind : LoopKind} (h : LoopKind.ofValue v = .ok kind) :
    ∃ field slot, Template.choose Template.loopParameters v = .ok (field, slot) := by
  rw [LoopKind.eq_of_ofValue h]
  cases kind <;> exact ⟨_, _, rfl⟩

namespace Value

theorem isWritable_of_not_isGiven {v : Value} (h : v.isGiven = false) : v.isWritable = true := by
  cases v with
  | null | bool _ | float _ | str _ => rfl
  | int n =>
    obtain rfl : n = 0 := by simpa [isGiven] using h
    rfl
  | list items =>
    obtain rfl : items = [] := by simpa [isGiven] using h
    rfl
  | object ms =>
    obtain rfl : ms = [] := by simpa [isGiven] using h
    rfl

theorem isWritable_of_isNull {v : Value} (h : v.isNull = true) : v.isWritable = true := by
  cases v with
  | null => rfl
  | bool _ | int _ | float _ | str _ | list _ | object _ => cases h

theorem isWritable_getD (ms : Members) (name s : Text) :
    ((ms.get? name).getD (.str s)).isWritable = (ms.get name).isWritable := by
  rw [Members.get]
  cases ms.get? name <;> rfl

end Value

namespace Template

def shownFields (kind : NodeKind) : List Text :=
  ("description" : Text) :: (stepFields kind).map (·.name)

/-- The name of the field for the parameter that a loop asks for, if its kind is known. -/
def loopField (settings : Members) : List Text :=
  match choose loopParameters (settings.get "loopType") with
  | .ok (field, _) => [field]
  | .error _ => []

end Template

namespace Node

def shownFields (node : Node) : List Text :=
  match node.kind with
  | .agent => ["model", "instruction", "description"]
  | .conditional => ["condition"]
  | .loop => ("loopType" : Text) :: "maxIterations" :: Template.loopField node.settings
  | .sequential | .parallel | .router => []
  | kind => Template.shownFields kind

/-- No integer in what the construct of a node shows has too many digits. -/
structure Writable (node : Node) : Prop where
  fields : ∀ field ∈ node.shownFields, (node.settings.get field).isWritable = true
  seconds : node.kind = .delay → ∀ x, Template.seconds node.settings = .ok x → x.isWritable = true

theorem writable_iff {node : Node} (hk : node.kind ≠ .delay) :
    node.Writable ↔ ∀ field ∈ node.shownFields, (node.settings.get field).isWritable = true :=
  ⟨fun h => h.fields, fun h => ⟨h, fun hdelay => absurd hdelay hk⟩⟩

end Node

namespace Template

section Values
variable {kind : NodeKind} {settings : Members} {profile : Profile}

theorem writable_description :
    (∀ x ∈ description settings, x.2.isWritable = true) ↔
      (settings.get "description").isWritable = true := by
  simp only [description]
  split
  · exact List.forall_mem_singleton
  next h => simp [Value.isWritable_of_not_isGiven (Bool.eq_false_iff.mpr h)]

theorem writable_agentValues :
    (∀ x ∈ agentValues settings, x.2.isWritable = true) ↔
      ∀ field ∈ (["model", "instruction", "description"] : List Text),
        (settings.get field).isWritable = true := by
  rw [agentValues, List.forall_mem_append, writable_description]
  simp [fixed, Value.isWritable_getD, and_assoc]

theorem writable_stepConfig :
    Value.isWritable (.object (stepConfig kind settings)) = true ↔
      ∀ field ∈ stepFields kind, (settings.get field.name).isWritable = true := by
  rw [Value.isWritable_object_iff]
  constructor
  · intro h field hfield
    by_cases hnull : (settings.get field.name).isNull = true
    · exact Value.isWritable_of_isNull hnull
    · exact h (field.name, settings.get field.name)
        (List.mem_filterMap.mpr ⟨field, hfield, if_neg hnull⟩)
  · intro h m hm
    obtain ⟨field, hfield, heq⟩ := List.mem_filterMap.mp hm
    dsimp only at heq
    split at heq
    · cases heq
    · cases heq
      exact h field hfield

theorem writable_stepValues :
    (∀ x ∈ stepValues kind settings, x.2.isWritable = true) ↔
      ∀ field ∈ shownFields kind, (settings.get field).isWritable = true := by
  have hconfig : (∀ x ∈ [fixed "kind" (.str kind.wireName),
      fixed "config" (.object (stepConfig kind settings))], x.2.isWritable = true) ↔
      Value.isWritable (.object (stepConfig kind settings)) = true := by
    rw [List.forall_mem_cons, List.forall_mem_singleton]
    exact and_iff_right rfl
  rw [stepValues, List.forall_mem_append, hconfig, writable_description, writable_stepConfig,
    shownFields, List.forall_mem_cons, List.forall_mem_map, and_comm]

theorem writable_fieldValue {field : Text} {slot : Slot} :
    (∀ x ∈ fieldValue settings profile field slot, x.2.isWritable = true) ↔
      (settings.get field).isWritable = true := by
  simp only [fieldValue]
  split
  next h => simp [Value.isWritable_of_isNull h]
  · exact List.forall_mem_singleton

theorem writable_loopValues {param : Text} {slot : Slot} :
    (∀ x ∈ loopValues settings profile param slot, x.2.isWritable = true) ↔
      ∀ field ∈ (["loopType", "maxIterations", param] : List Text),
        (settings.get field).isWritable = true := by
  rw [loopValues, List.forall_mem_cons, List.forall_mem_append, writable_fieldValue,
    writable_fieldValue]
  simp [and_comm]

end Values

section Statement
variable {template : Template} {profile : Profile} {node : Node} {ident label : Text}
  {parts : Parts} {predecessor : Option Text} {s : Statement}

theorem exists_statement_iff :
    (∃ s, template.statement profile node ident label parts predecessor = .ok s) ↔
      (∃ args, template.arguments node.kind node.settings profile parts = .ok args) ∧
      ∃ remarks, template.remarks node.kind node.settings profile parts = .ok remarks := by
  rw [statement, exists_bind_ok_iff]
  constructor
  · rintro ⟨args, hargs, hrest⟩
    obtain ⟨remarks, hremarks, _⟩ := exists_bind_ok_iff.mp hrest
    exact ⟨⟨args, hargs⟩, remarks, hremarks⟩
  · rintro ⟨⟨args, hargs⟩, remarks, hremarks⟩
    exact ⟨args, hargs, exists_bind_ok_iff.mpr ⟨remarks, hremarks, _, rfl⟩⟩

theorem statement_ident (h : template.statement profile node ident label parts predecessor = .ok s) :
    s.ident = ident := by
  obtain ⟨args, _, h⟩ := exists_of_bind_eq_ok h
  obtain ⟨remarks, _, h⟩ := exists_of_bind_eq_ok h
  cases h
  rfl

theorem exists_append_iff {α : Type} {values : List Passed} {x : Except Fault α}
    {last : α → Passed} :
    (∃ args, (do
      let args ← passing values
      let a ← x
      return args ++ (← passing [last a])) = (.ok args : Except Fault (List Argument))) ↔
      (∀ x ∈ values, x.2.isWritable = true) ∧ ∃ a, x = .ok a ∧ (last a).2.isWritable = true := by
  have hlast : ∀ a, (last a).2.isWritable = true ↔ ∃ args, passing [last a] = .ok args := by
    intro a
    rw [exists_passing_iff, List.forall_mem_singleton]
  simp only [exists_bind_ok_iff, ← exists_passing_iff, hlast]
  constructor
  · rintro ⟨args, hargs, a, ha, more, hmore, _⟩
    exact ⟨⟨args, hargs⟩, a, ha, more, hmore⟩
  · rintro ⟨⟨args, hargs⟩, a, ha, more, hmore⟩
    exact ⟨args, hargs, a, ha, more, hmore, _, rfl⟩

/-- A step can be stated exactly if what it shows can be written; a delay also needs a length. -/
theorem exists_statement_step (hk : node.kind.isContainer = false) :
    (∃ s, node.kind.template.statement profile node ident label parts predecessor = .ok s) ↔
      (node.kind = .delay → ∃ x, seconds node.settings = .ok x) ∧ node.Writable := by
  rw [exists_statement_iff]
  cases hkind : node.kind with
  | sequential | parallel | conditional | loop | router => simp [hkind, NodeKind.isContainer] at hk
  | agent =>
    rw [Node.writable_iff (by simp [hkind]), Node.shownFields, hkind]
    simp only [reduceCtorEq, false_implies, true_and]
    rw [← writable_agentValues, ← exists_passing_iff]
    exact and_iff_left ⟨_, rfl⟩
  | input | output | database | fileOperation | transform | debug | binding =>
    rw [Node.writable_iff (by simp [hkind]), Node.shownFields, hkind]
    simp only [reduceCtorEq, false_implies, true_and]
    rw [← writable_stepValues, ← exists_passing_iff]
    exact and_iff_left ⟨_, rfl⟩
  | apiCall | validator =>
    rw [Node.writable_iff (by simp [hkind]), Node.shownFields, hkind]
    simp only [reduceCtorEq, false_implies, true_and]
    rw [← writable_stepValues, and_iff_left ⟨_, rfl⟩]
    exact exists_append_iff.trans (and_iff_left ⟨_, rfl, rfl⟩)
  | delay =>
    have hfields : node.shownFields = shownFields .delay := by rw [Node.shownFields, hkind]
    rw [and_iff_left ⟨_, rfl⟩]
    refine exists_append_iff.trans ?_
    rw [writable_stepValues, ← hfields]
    constructor
    · rintro ⟨hfields, x, hx, hwritable⟩
      refine ⟨fun _ => ⟨x, hx⟩, hfields, fun _ y hy => ?_⟩
      cases hx.symm.trans hy
      exact hwritable
    · rintro ⟨hseconds, hwritable⟩
      obtain ⟨x, hx⟩ := hseconds rfl
      exact ⟨hwritable.fields, x, hx, hwritable.seconds hkind x hx⟩

/-- A loop of a known kind can be stated exactly if what it shows can be written. -/
theorem exists_statement_loop (hk : node.kind = .loop) {field : Text} {slot : Slot}
    (hchoose : choose loopParameters (node.settings.get "loopType") = .ok (field, slot))
    (hbody : parts.body.isSome) :
    (∃ s, node.kind.template.statement profile node ident label parts predecessor = .ok s) ↔
      node.Writable := by
  have hshown : node.Writable ↔ ∀ x ∈ loopValues node.settings profile field slot,
      x.2.isWritable = true := by
    rw [Node.writable_iff (by simp [hk]), Node.shownFields, hk, writable_loopValues]
    simp only [loopField, hchoose]
  rw [exists_statement_iff, hshown, hk]
  refine (and_iff_left ⟨_, rfl⟩).trans ⟨?_, fun h => ?_⟩
  · rintro ⟨args, hargs⟩
    obtain ⟨_, _, before, _, hchoose', hpasses, _⟩ := eq_of_loopArguments hargs
    cases hchoose.symm.trans hchoose'
    exact exists_passing_iff.mp ⟨before, passing_eq_ok_iff.mpr hpasses⟩
  · obtain ⟨hkind, hparams⟩ := List.forall_mem_cons.mp h
    obtain ⟨kind, hkind⟩ := exists_written_iff.mpr hkind
    obtain ⟨params, hparams⟩ := exists_passing_iff.mpr hparams
    obtain ⟨body, hbody⟩ := Option.isSome_iff_exists.mp hbody
    rw [NodeKind.template, arguments, loopArguments, hkind, ok_bind, hchoose, ok_bind]
    dsimp only
    rw [hparams, ok_bind, hbody]
    exact ⟨_, rfl⟩

theorem exists_statement_conditional (hk : node.kind = .conditional) {condition : Value}
    {ifTrue ifFalse : Expression} (h : condition.isWritable = true) :
    ∃ s, node.kind.template.statement profile node ident label
      { condition := some condition, ifTrue := some ifTrue, ifFalse := some ifFalse }
      predecessor = .ok s := by
  obtain ⟨e, he⟩ := exists_written_iff.mpr h
  have hcondition : conditionOf node.settings
      { condition := some condition, ifTrue := some ifTrue, ifFalse := some ifFalse } =
      condition := rfl
  rw [exists_statement_iff, hk]
  rw [NodeKind.template, arguments, splitArguments, hcondition, he, ok_bind]
  exact ⟨⟨_, rfl⟩, _, rfl⟩

theorem exists_statement_outcome {ports : Text × Text}
    (hports : node.kind.outcomePorts? = some ports) {condition : Text}
    {ifTrue ifFalse : Expression} :
    ∃ s, Template.outcomeSplit.statement profile node ident label
      { condition := some (.str condition), ifTrue := some ifTrue, ifFalse := some ifFalse }
      predecessor = .ok s := by
  rw [exists_statement_iff]
  exact ⟨⟨_, rfl⟩, _, by rw [remarks, outcomePorts, hports]; rfl⟩

theorem exists_statement_plain
    (hk : node.kind = .sequential ∨ node.kind = .router ∨
      node.kind = .parallel ∧ ∃ join, parts.join = some (.str join)) :
    ∃ s, node.kind.template.statement profile node ident label parts predecessor = .ok s := by
  rw [exists_statement_iff]
  rcases hk with hk | hk | ⟨hk, join, hjoin⟩
  · rw [hk]
    exact ⟨⟨_, rfl⟩, _, rfl⟩
  · rw [hk]
    exact ⟨⟨_, rfl⟩, _, rfl⟩
  · have hof : joinOf node.settings parts = .str join := by rw [joinOf, hjoin, Option.getD_some]
    rw [hk]
    simp only [NodeKind.template, arguments, remarks, hof]
    refine ⟨⟨_, rfl⟩, ?_⟩
    split
    · exact ⟨_, rfl⟩
    · exact ⟨_, rfl⟩

/-- Where a node other than a conditional is stated, what it shows can be written. -/
theorem writable_of_statement (hk : node.kind ≠ .conditional)
    (h : node.kind.template.statement profile node ident label parts predecessor = .ok s) :
    node.Writable := by
  cases hkind : node.kind with
  | conditional => exact absurd hkind hk
  | sequential | parallel | router =>
    refine ⟨fun field hfield => ?_, fun hdelay => ?_⟩
    · simp [Node.shownFields, hkind] at hfield
    · cases hkind.symm.trans hdelay
  | loop =>
    obtain ⟨args, hargs, _⟩ := statement_args h
    rw [hkind] at hargs
    obtain ⟨field, slot, _, body, hchoose, _, hbody, _⟩ := eq_of_loopArguments hargs
    exact (exists_statement_loop hkind hchoose (by rw [hbody]; rfl)).mp ⟨s, h⟩
  | agent | input | output | database | fileOperation | transform | debug | binding | apiCall
  | validator | delay => exact ((exists_statement_step (by rw [hkind]; rfl)).mp ⟨s, h⟩).2

end Statement

end Template

end WorkflowCompiler
