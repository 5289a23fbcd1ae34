import Mathlib
import WorkflowCompiler.Proofs.Code.Binding
import WorkflowCompiler.Proofs.Emission.Render
import WorkflowCompiler.Proofs.Template.Arguments

/-! # What the statement of a node refers to

The statement of a node refers to its parts and to its predecessor, and to nothing else. With a
built-in profile no part is left out: its slot has a keyword that no argument before it has.
-/
namespace WorkflowCompiler

namespace Profile

theorem keyword_of_builtIn {profile : Profile} (h : profile ∈ builtIn) {slot : Slot}
    (hslot : slot.holdsBlocks) :
    ∃ keyword, profile.keyword slot = some keyword ∧ keyword ≠ "name" := by
  rcases List.mem_pair.mp h with rfl | rfl <;> cases slot <;> simp [Slot.holdsBlocks] at hslot <;>
    exact ⟨_, rfl, by decide⟩

theorem keyword_ne_of_builtIn {profile : Profile} (h : profile ∈ builtIn) {slot other : Slot}
    (hslot : slot.holdsBlocks) (hother : other.holdsBlocks = false) :
    profile.keyword other ≠ profile.keyword slot := by
  rcases List.mem_pair.mp h with rfl | rfl <;> cases slot <;> cases hslot <;> cases other <;>
    cases hother <;> decide

theorem ifTrue_ne_ifFalse_of_builtIn {profile : Profile} (h : profile ∈ builtIn) :
    profile.keyword .ifTrue ≠ profile.keyword .ifFalse := by
  rcases List.mem_pair.mp h with rfl | rfl <;> decide

theorem childrenKeyword_of_builtIn {profile : Profile} (h : profile ∈ builtIn) :
    profile.holdsBlocks (Emission.childrenKeyword profile) := by
  rcases List.mem_pair.mp h with rfl | rfl <;> decide

end Profile

def Parts.references (parts : Parts) : List Text :=
  parts.inner.flatMap fun part => part.elim [] (·.references)

namespace Template

section Statement
variable {template : Template} {profile : Profile} {node : Node} {ident label : Text}
  {parts : Parts} {predecessor : Option Text} {s : Statement}

theorem mem_references_statement
    (h : template.statement profile node ident label parts predecessor = .ok s) {x : Text}
    (hx : x ∈ s.references) : x ∈ parts.references ∨ predecessor = some x := by
  obtain ⟨arg, harg, hx⟩ := Statement.mem_references.mp hx
  rcases argument_cases h harg with ⟨_, hvalue⟩ | horigin | ⟨_, y, hy, _, hname⟩
  · simp [hvalue, Expression.string, Expression.references] at hx
  · rcases horigin.expression with ⟨v, hv⟩ | hpart | hlist
    · rw [hv] at hx
      simp [Expression.references] at hx
    · exact Or.inl (List.mem_flatMap.mpr ⟨_, hpart, hx⟩)
    · rw [hlist] at hx
      simp [Expression.references, Expression.itemReferences] at hx
  · rw [hname, Expression.references] at hx
    obtain rfl := List.mem_singleton.mp hx
    exact Or.inr hy

theorem held_of_arguments (hprofile : profile ∈ Profile.builtIn)
    (h : template.statement profile node ident label parts predecessor = .ok s)
    (before : List Argument) {after : List Argument} (slot : Slot) {e : Expression}
    (hslot : slot.holdsBlocks)
    (hargs : template.arguments node.kind node.settings profile parts =
      .ok (before ++ (profile.keyword slot, e) :: after))
    (hbefore : ∀ arg ∈ before, arg.1 ≠ profile.keyword slot) :
    e.references ⊆ s.held profile := by
  obtain ⟨keyword, hkeyword, hname⟩ := profile.keyword_of_builtIn hprofile hslot
  obtain ⟨args, hargs', heq⟩ := statement_args h
  obtain rfl := Except.ok.inj (hargs'.symm.trans hargs)
  rw [hkeyword] at heq hbefore
  have hmem : (keyword, e) ∈ s.args := by
    rw [heq, List.append_assoc, List.cons_append]
    refine mem_foldl_addArgument ?_ hbefore
    intro arg harg
    obtain rfl := List.mem_singleton.mp harg
    exact hname.symm
  exact fun x hx => Statement.mem_held hmem (Profile.holdsBlocks_of_keyword hslot hkeyword) hx

/-- What a template holds of its parts. -/
def ownReferences (template : Template) (parts : Parts) : List Text :=
  match template with
  | .agent | .step | .outcomeStep | .delay => []
  | .sequential => (parts.children.getD (.list [])).references
  | .parallel => (parts.members.getD (.list [])).references
  | .conditional | .outcomeSplit =>
    (parts.ifTrue.getD (.list [])).references ++ (parts.ifFalse.getD (.list [])).references
  | .router => (parts.routes.getD (.list [])).references
  | .loop => (parts.body.getD (.list [])).references

theorem ownReferences_subset_held (hprofile : profile ∈ Profile.builtIn)
    (h : template.statement profile node ident label parts predecessor = .ok s) :
    template.ownReferences parts ⊆ s.held profile := by
  obtain ⟨args, hargs, _⟩ := statement_args h
  cases template with
  | agent | step | outcomeStep | delay => exact List.nil_subset _
  | sequential =>
    exact held_of_arguments hprofile h [] .children rfl rfl (by simp)
  | parallel =>
    obtain ⟨join, -, heq⟩ := exists_of_bind_eq_ok hargs
    cases heq
    exact held_of_arguments hprofile h [] .branches rfl hargs (by simp)
  | router =>
    exact held_of_arguments hprofile h [] .routes rfl rfl (by simp)
  | conditional | outcomeSplit =>
    obtain ⟨condition, ifTrue, ifFalse, _, htrue, hfalse, rfl⟩ := eq_of_splitArguments hargs
    simp only [ownReferences, htrue, hfalse, Option.getD_some]
    apply List.append_subset.mpr
    constructor
    · refine held_of_arguments hprofile h [_] .ifTrue rfl hargs ?_
      intro arg harg
      obtain rfl := List.mem_singleton.mp harg
      exact Profile.keyword_ne_of_builtIn hprofile rfl rfl
    · refine held_of_arguments hprofile h [_, _] .ifFalse rfl hargs ?_
      intro arg harg
      rcases List.mem_pair.mp harg with rfl | rfl
      · exact Profile.keyword_ne_of_builtIn hprofile rfl rfl
      · exact Profile.ifTrue_ne_ifFalse_of_builtIn hprofile
  | loop =>
    obtain ⟨field, slot, before, body, hchoose, hbefore, hbody, rfl⟩ := eq_of_loopArguments hargs
    simp only [ownReferences, hbody, Option.getD_some]
    refine held_of_arguments hprofile h before .body rfl hargs ?_
    intro arg harg
    obtain ⟨passed, hpassed, hkeyword, -⟩ := exists_of_forall₂ hbefore harg
    obtain ⟨slot, ⟨hslot, -⟩, hslot'⟩ := slot_of_mem_loopValues hchoose hpassed
    rw [hkeyword, hslot']
    exact Profile.keyword_ne_of_builtIn hprofile rfl hslot

end Statement

end Template

end WorkflowCompiler
