import Mathlib
import WorkflowCompiler.Emission.Basic
import WorkflowCompiler.Proofs.Fault
import WorkflowCompiler.Proofs.Graph.Canonical

/-! # Templates up to layout and the order of members

The statement of a node and the statement of its canonical form are the same lines of code. All that
differs is the values in their arguments, and only by the order of members, which literals do not
show.
-/
namespace WorkflowCompiler

def Parts.canonical (parts : Parts) : Parts :=
  { parts with condition := parts.condition.map Value.canonical }

namespace Template

def Argument.written (arg : Argument) : Option Text × Text := (arg.1, arg.2.text)

def writtenArguments (args : Except Fault (List Argument)) : Option (List (Option Text × Text)) :=
  args.toOption.map (List.map Argument.written)

/-! ## Values that are passed on -/

def Passed.spelled (passed : Passed) : Option Text × Option Text := (passed.1, passed.2.literal)

theorem text_written (v : Value) : (written v).toOption.map Expression.text = v.literal := by
  unfold written
  split
  next l hl =>
    obtain rfl := Literal.ofValue?_eq_some_iff.mp hl
    exact l.spells.symm
  next hl => exact (Value.literal_eq_none_iff.mpr (Literal.ofValue?_eq_none_iff.mp hl)).symm

theorem text_written_canonical (v : Value) :
    (written v.canonical).toOption.map Expression.text =
      (written v).toOption.map Expression.text := by
  rw [text_written, Value.literal_canonical, text_written]

/-- How values are passed on depends on their keywords and literals alone. -/
theorem passing_congr {values values' : List Passed}
    (h : values.map Passed.spelled = values'.map Passed.spelled) :
    writtenArguments (passing values) = writtenArguments (passing values') := by
  unfold passing
  induction values generalizing values' with
  | nil =>
    obtain rfl : values' = [] := by simpa using h.symm
    rfl
  | cons first rest ih =>
    cases values' with
    | nil => cases h
    | cons first' rest' =>
      obtain ⟨hfirst, hrest⟩ := List.cons.inj h
      obtain ⟨hkeyword, hliteral⟩ := Prod.mk.inj hfirst
      rw [← text_written, ← text_written] at hliteral
      have harg : (do return (first.1, ← written first.2)
          : Except Fault Argument).toOption.map Argument.written =
          (do return (first'.1, ← written first'.2) : Except Fault Argument).toOption.map
            Argument.written := by
        refine toOption_bind_congr hliteral fun e e' htext => ?_
        exact congrArg some (Prod.ext hkeyword htext)
      rw [List.mapM_cons, List.mapM_cons]
      refine toOption_bind_congr harg fun arg arg' harg => ?_
      refine toOption_bind_congr (ih hrest) fun args args' hargs => ?_
      exact congrArg some (by rw [List.map_cons, List.map_cons, harg, hargs])

section Settings
variable {ms ns : Members} (h : ms.Mirrors ns)
include h

theorem spelled_description :
    (description ms).map Passed.spelled = (description ns).map Passed.spelled := by
  simp only [description, h.get, Value.isGiven_canonical]
  split
  · simp [Passed.spelled, fixed, Value.literal_canonical]
  · rfl

theorem stepConfig_mirrored (kind : NodeKind) :
    stepConfig kind ms = (stepConfig kind ns).map fun m => (m.1, m.2.canonical) := by
  simp only [stepConfig, h.get, Value.isNull_canonical, List.map_filterMap]
  congr 1
  funext field
  split <;> rfl

theorem spelled_stepValues (kind : NodeKind) :
    (stepValues kind ms).map Passed.spelled = (stepValues kind ns).map Passed.spelled := by
  have hconfig : (Value.object (stepConfig kind ms)).literal =
      (Value.object (stepConfig kind ns)).literal := by
    rw [stepConfig_mirrored h, ← Value.canonicalMembers_eq, ← Value.literal_canonical,
      Value.canonical, Value.canonicalMembers_canonical, ← Value.canonical, Value.literal_canonical]
  simp only [stepValues, List.map_append, spelled_description h, List.map_cons, List.map_nil,
    Passed.spelled, fixed, hconfig]

theorem literal_getD_mirrored (name s : Text) :
    ((ms.get? name).getD (.str s)).literal = ((ns.get? name).getD (.str s)).literal := by
  rw [h name]
  cases ns.get? name with
  | none => rfl
  | some v => exact v.literal_canonical

theorem spelled_agentValues :
    (agentValues ms).map Passed.spelled = (agentValues ns).map Passed.spelled := by
  simp only [agentValues, List.map_append, spelled_description h, List.map_cons, List.map_nil,
    Passed.spelled, fixed, h.get, Value.literal_canonical, literal_getD_mirrored h]

theorem spelled_fieldValue (profile : Profile) (field : Text) (slot : Slot) :
    (fieldValue ms profile field slot).map Passed.spelled =
      (fieldValue ns profile field slot).map Passed.spelled := by
  simp only [fieldValue, h.get, Value.isNull_canonical]
  split
  · rfl
  · simp [Passed.spelled, Value.literal_canonical]

end Settings

theorem choose_canonical {α : Type} (table : List (Text × α)) (v : Value) :
    (choose table v.canonical).toOption = (choose table v).toOption := by
  cases v with
  | null | bool _ | int _ | float _ | str _ => simp
  | list _ | object _ => simp [choose, Except.toOption]

theorem scaled_canonical (v : Value) (times : Nat) :
    (scaled v.canonical times).toOption = (scaled v times).toOption.map Value.canonical := by
  cases v with
  | int n =>
    rw [Value.canonical_int]
    exact congrArg some (Value.canonical_int _).symm
  | list items =>
    have hflatten : (List.replicate times (items.map Value.canonical)).flatten =
        (List.replicate times items).flatten.map Value.canonical := by
      rw [List.map_flatten, List.map_replicate]
    rw [Value.canonical_list]
    exact congrArg some ((congrArg Value.list hflatten).trans (Value.canonical_list _).symm)
  | bool b =>
    rw [Value.canonical_bool]
    exact congrArg some (Value.canonical_int _).symm
  | float x =>
    rw [Value.canonical_float]
    exact congrArg some (Value.canonical_float _).symm
  | str s =>
    rw [Value.canonical_str]
    exact congrArg some (Value.canonical_str _).symm
  | null =>
    rw [Value.canonical_null]
    rfl
  | object ms =>
    rw [Value.canonical_object]
    rfl

theorem seconds_mirrored {ms ns : Members} (h : ms.Mirrors ns) :
    (seconds ms).toOption = (seconds ns).toOption.map Value.canonical := by
  simp only [seconds, h "delayAmount", h.get]
  cases ns.get? "delayAmount" with
  | none => rfl
  | some amount =>
    refine Option.map_id_apply.symm.trans ?_
    refine toOption_bind_congr (f := id) (g := id) (by rw [choose_canonical]) ?_
    rintro times _ rfl
    rw [Option.map_id_apply, scaled_canonical]
    rfl

section Arguments
variable {ms ns : Members} (h : ms.Mirrors ns) (profile : Profile) (parts : Parts)
include h

theorem literal_conditionOf :
    (conditionOf ms parts.canonical).literal = (conditionOf ns parts).literal := by
  unfold conditionOf Parts.canonical
  cases parts.condition with
  | none => exact literal_getD_mirrored h "condition" []
  | some v => exact v.literal_canonical

theorem written_splitArguments :
    writtenArguments (splitArguments ms profile parts.canonical) =
      writtenArguments (splitArguments ns profile parts) := by
  have hcondition : (written (conditionOf ms parts.canonical)).toOption.map Expression.text =
      (written (conditionOf ns parts)).toOption.map Expression.text := by
    rw [text_written, literal_conditionOf h, text_written]
  refine toOption_bind_congr hcondition fun condition condition' htext => ?_
  have htrue : parts.canonical.ifTrue = parts.ifTrue := rfl
  have hfalse : parts.canonical.ifFalse = parts.ifFalse := rfl
  rw [htrue, hfalse]
  cases needed "if_true" parts.ifTrue with
  | error fault => rfl
  | ok ifTrue =>
    cases needed "if_false" parts.ifFalse with
    | error fault => rfl
    | ok ifFalse =>
      refine congrArg some ?_
      simp only [List.map_cons, Argument.written, htext]

theorem written_loopArguments :
    writtenArguments (loopArguments ms profile parts.canonical) =
      writtenArguments (loopArguments ns profile parts) := by
  have hkind : (written (ms.get "loopType")).toOption.map Expression.text =
      (written (ns.get "loopType")).toOption.map Expression.text := by
    rw [h.get, text_written_canonical]
  refine toOption_bind_congr hkind fun kind kind' htext => ?_
  refine toOption_bind_congr (f := id) (g := id) (by rw [h.get, choose_canonical]) ?_
  rintro ⟨field, slot⟩ _ rfl
  have hparams : (fieldValue ms profile field slot
        ++ fieldValue ms profile "maxIterations" .maxIterations).map Passed.spelled =
      (fieldValue ns profile field slot
        ++ fieldValue ns profile "maxIterations" .maxIterations).map Passed.spelled := by
    rw [List.map_append, spelled_fieldValue h, spelled_fieldValue h, List.map_append]
  refine toOption_bind_congr (passing_congr hparams) fun params params' hwritten => ?_
  have hbody : parts.canonical.body = parts.body := rfl
  rw [hbody]
  cases needed "body" parts.body with
  | error fault => rfl
  | ok body =>
    refine congrArg some ?_
    simp only [List.map_append, List.map_cons, List.map_nil, hwritten, Argument.written, htext]

/-- The arguments are written the same. How a container is joined must be given, as it would be
shown in a remark otherwise. -/
theorem written_arguments {template : Template} (kind : NodeKind)
    (hjoin : template = .parallel → parts.join.isSome) :
    writtenArguments (template.arguments kind ms profile parts.canonical) =
      writtenArguments (template.arguments kind ns profile parts) := by
  cases template with
  | agent => exact passing_congr (spelled_agentValues h)
  | step => exact passing_congr (spelled_stepValues h kind)
  | outcomeStep =>
    refine toOption_bind_congr (passing_congr (spelled_stepValues h kind)) fun args args' hargs => ?_
    refine toOption_bind_congr (f := id) (g := id) rfl ?_
    rintro ports _ rfl
    exact congrArg some (by rw [List.map_append, List.map_append, hargs]; rfl)
  | delay =>
    refine toOption_bind_congr (passing_congr (spelled_stepValues h kind)) fun args args' hargs => ?_
    refine toOption_bind_congr (f := id) (g := Value.canonical)
      (Option.map_id_apply.trans (seconds_mirrored h)) ?_
    rintro _ amount rfl
    have hamount : [fixed "seconds" amount.canonical].map Passed.spelled =
        [fixed "seconds" amount].map Passed.spelled := by
      simp only [List.map_singleton, Passed.spelled, fixed, Value.literal_canonical]
    refine toOption_bind_congr (passing_congr hamount) fun found found' hfound => ?_
    exact congrArg some (by rw [List.map_append, List.map_append, hargs, hfound])
  | sequential => rfl
  | parallel =>
    obtain ⟨join, hj⟩ := Option.isSome_iff_exists.mp (hjoin rfl)
    simp only [arguments, joinOf, Parts.canonical, hj, Option.getD_some]
  | conditional => exact written_splitArguments h profile parts
  | outcomeSplit => exact written_splitArguments h profile parts
  | router => rfl
  | loop => exact written_loopArguments h profile parts

end Arguments

theorem written_foldl_addArgument {args args' : List Argument}
    {named named' : List (Text × Expression)}
    (hargs : args.map Argument.written = args'.map Argument.written)
    (hnamed : named.map (fun a => (a.1, a.2.text)) = named'.map fun a => (a.1, a.2.text)) :
    (args.foldl addArgument named).map (fun a => (a.1, a.2.text)) =
      (args'.foldl addArgument named').map fun a => (a.1, a.2.text) := by
  induction args generalizing args' named named' with
  | nil =>
    obtain rfl : args' = [] := by simpa using hargs.symm
    exact hnamed
  | cons arg rest ih =>
    cases args' with
    | nil => cases hargs
    | cons arg' rest' =>
      obtain ⟨harg, hrest⟩ := List.cons.inj hargs
      rw [List.foldl_cons, List.foldl_cons]
      refine ih hrest ?_
      obtain ⟨hkeyword, htext⟩ := Prod.mk.inj harg
      have hany : ∀ keyword : Text, named.any (·.1 == keyword) = named'.any (·.1 == keyword) := by
        intro keyword
        have hkeys := congrArg (fun xs => xs.any fun x : Text × Text => x.1 == keyword) hnamed
        simpa only [List.any_map, Function.comp_def] using hkeys
      unfold addArgument
      rw [hkeyword]
      split
      · exact hnamed
      next keyword _ =>
        rw [hany]
        split
        · exact hnamed
        · rw [List.map_append, List.map_append, hnamed, List.map_singleton, List.map_singleton,
            htext]

theorem lines_of_written {s t : Statement} (hcomments : s.comments = t.comments)
    (hident : s.ident = t.ident) (hconstruct : s.construct = t.construct)
    (hargs : s.written = t.written) : s.lines = t.lines := by
  rw [Statement.lines, Statement.writeTo, hcomments, hident, hconstruct, hargs, Statement.lines,
    Statement.writeTo]

/-- A node and its canonical form are stated in the same lines. -/
theorem lines_statement_canonical {template : Template} (profile : Profile) (node : Node)
    (ident label : Text) (parts : Parts) (predecessor : Option Text)
    (hjoin : template = .parallel → parts.join.isSome) :
    (template.statement profile node.canonical ident label parts.canonical
        predecessor).toOption.map Statement.lines =
      (template.statement profile node ident label parts predecessor).toOption.map
        Statement.lines := by
  have hargs := written_arguments node.mirrors_settings profile parts node.kind hjoin
  have hremarks : template.remarks node.kind node.canonical.settings profile parts.canonical =
      template.remarks node.kind node.settings profile parts := by
    cases template with
    | parallel =>
      obtain ⟨join, hj⟩ := Option.isSome_iff_exists.mp (hjoin rfl)
      simp only [remarks, joinOf, Parts.canonical, hj, Option.getD_some]
    | agent | step | outcomeStep | delay | sequential | conditional | router | loop
    | outcomeSplit => rfl
  refine toOption_bind_congr hargs fun args' args hwritten => ?_
  rw [Node.kind_canonical, hremarks]
  cases template.remarks node.kind node.settings profile parts with
  | error fault => rfl
  | ok remarks =>
    refine congrArg some (lines_of_written rfl rfl rfl (written_foldl_addArgument ?_ rfl))
    rw [List.map_append, List.map_append, hwritten]

end Template

end WorkflowCompiler
