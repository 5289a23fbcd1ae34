import Mathlib
import WorkflowCompiler.Emission.Basic

/-! # What code binds and refers to

The identifiers that an expression refers to, those that a statement holds as its inner blocks, and
when a list of statements uses nothing before it is bound.
-/
namespace WorkflowCompiler

namespace Expression

mutual

def references : Expression → List Text
  | .literal _ => []
  | .name ident => [ident]
  | .list items => itemReferences items
  | .pair _ e => e.references
  | .call _ args => argumentReferences args

def itemReferences : List Expression → List Text
  | [] => []
  | e :: rest => e.references ++ itemReferences rest

def argumentReferences : List (Text × Expression) → List Text
  | [] => []
  | (_, e) :: rest => e.references ++ argumentReferences rest

end

theorem references_list (items : List Expression) :
    (list items).references = items.flatMap references := by
  rw [references]
  induction items with
  | nil => rfl
  | cons e rest ih => rw [itemReferences, ih, List.flatMap_cons]

@[simp] theorem flatMap_references_names (idents : List Text) :
    (idents.map name).flatMap references = idents := by
  induction idents with
  | nil => rfl
  | cons ident rest ih =>
    rw [List.map_cons, List.flatMap_cons, ih]
    rfl

@[simp] theorem references_names (idents : List Text) : (names idents).references = idents := by
  rw [names, references_list, flatMap_references_names]

end Expression

def Slot.holdsBlocks : Slot → Bool
  | .children | .branches | .ifTrue | .ifFalse | .routes | .body => true
  | .join | .predecessor | .condition | .loopKind | .count | .loopCondition | .items
  | .maxIterations => false

def Profile.holdsBlocks (profile : Profile) (keyword : Text) : Bool :=
  Slot.all.any fun slot => slot.holdsBlocks && profile.keyword slot == some keyword

theorem Profile.holdsBlocks_of_keyword {profile : Profile} {slot : Slot} {keyword : Text}
    (hslot : slot.holdsBlocks) (hkeyword : profile.keyword slot = some keyword) :
    profile.holdsBlocks keyword := by
  apply List.any_eq_true.mpr
  refine ⟨slot, by cases slot <;> decide, ?_⟩
  simp [hslot, hkeyword]

namespace Statement

def references (s : Statement) : List Text := s.args.flatMap (·.2.references)

def held (profile : Profile) (s : Statement) : List Text :=
  (s.args.filter fun arg => profile.holdsBlocks arg.1).flatMap (·.2.references)

theorem mem_references {s : Statement} {x : Text} :
    x ∈ s.references ↔ ∃ arg ∈ s.args, x ∈ arg.2.references := List.mem_flatMap

theorem mem_held {profile : Profile} {s : Statement} {x : Text} {arg : Text × Expression}
    (harg : arg ∈ s.args) (hholds : profile.holdsBlocks arg.1) (hx : x ∈ arg.2.references) :
    x ∈ s.held profile :=
  List.mem_flatMap.mpr ⟨arg, List.mem_filter.mpr ⟨harg, hholds⟩, hx⟩

def bound (statements : List Statement) : List Text := statements.map (·.ident)

@[simp] theorem bound_append (ss ts : List Statement) : bound (ss ++ ts) = bound ss ++ bound ts :=
  List.map_append

@[simp] theorem bound_singleton (s : Statement) : bound [s] = [s.ident] := rfl

/-- Every statement refers only to what the statements before it bind. -/
def Defined (statements : List Statement) : Prop :=
  ∀ before s after, statements = before ++ s :: after → ∀ x ∈ s.references, x ∈ bound before

theorem defined_nil : Defined [] := fun before s after h => by simp at h

theorem Defined.concat {ss : List Statement} (h : Defined ss) {s : Statement}
    (hs : ∀ x ∈ s.references, x ∈ bound ss) : Defined (ss ++ [s]) := by
  intro before t after heq
  rcases List.eq_nil_or_concat after with rfl | ⟨rest, last, rfl⟩
  · obtain ⟨rfl, hlast⟩ := List.append_inj' heq rfl
    obtain rfl := List.singleton_inj.mp hlast
    exact hs
  · rw [List.concat_eq_append, ← List.cons_append, ← List.append_assoc] at heq
    obtain ⟨rfl, _⟩ := List.append_inj' heq rfl
    exact h before t rest rfl

/-- One identifier is bound to a construct that holds the other one. -/
def Holds (profile : Profile) (statements : List Statement) (a b : Text) : Prop :=
  ∃ s ∈ statements, s.ident = a ∧ b ∈ s.held profile

theorem Holds.mono {profile : Profile} {ss ts : List Statement} (h : ss ⊆ ts) {a b : Text}
    (hab : Holds profile ss a b) : Holds profile ts a b := by
  obtain ⟨s, hs, rest⟩ := hab
  exact ⟨s, h hs, rest⟩

end Statement

end WorkflowCompiler
