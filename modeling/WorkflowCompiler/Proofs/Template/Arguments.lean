import Mathlib
import WorkflowCompiler.Proofs.Code.Binding
import WorkflowCompiler.Proofs.Fault
import WorkflowCompiler.Proofs.Value.Members
import WorkflowCompiler.Proofs.Value.Spelling

/-! # Where the arguments of a template come from

An argument has the keyword of a slot or one of a few fixed keywords, and it passes on a setting or
a part. The slot for the predecessor is filled by nothing else.
-/
namespace WorkflowCompiler

def Parts.inner (parts : Parts) : List (Option Expression) :=
  [parts.children, parts.members, parts.ifTrue, parts.ifFalse, parts.routes, parts.body]

namespace Template

/-! ## Values that are passed on -/

theorem written_eq_ok_iff {v : Value} {e : Expression} :
    written v = .ok e ↔ ∃ l : Literal, l.value = v ∧ e = .literal l := by
  unfold written
  split
  next l hl =>
    have hvalue := Literal.ofValue?_eq_some_iff.mp hl
    constructor
    · intro h
      cases h
      exact ⟨l, hvalue, rfl⟩
    · rintro ⟨m, hm, rfl⟩
      rw [Literal.ofValue?_eq_some_iff.mpr hm] at hl
      cases hl
      rfl
  next hl =>
    constructor
    · intro h
      cases h
    · rintro ⟨m, hm, rfl⟩
      rw [Literal.ofValue?_eq_some_iff.mpr hm] at hl
      cases hl

theorem written_eq_error {v : Value} (h : v.isWritable = false) :
    written v = .error .longNumber := by
  rw [written, Literal.ofValue?_eq_none_iff.mpr h]

theorem exists_written_iff {v : Value} : (∃ e, written v = .ok e) ↔ v.isWritable = true := by
  constructor
  · rintro ⟨e, h⟩
    by_contra hlong
    rw [written_eq_error (Bool.eq_false_iff.mpr hlong)] at h
    cases h
  · intro h
    exact ⟨_, written_eq_ok_iff.mpr
      ⟨⟨v, v.spelling, Value.literal_eq_some_iff.mpr ⟨h, rfl⟩⟩, rfl, rfl⟩⟩

/-- An argument passes a value on: it has its keyword and its literal. -/
def Passes (passed : Passed) (arg : Argument) : Prop :=
  arg.1 = passed.1 ∧ ∃ l : Literal, l.value = passed.2 ∧ arg.2 = .literal l

theorem passed_eq_ok_iff {passed : Passed} {arg : Argument} :
    (do return (passed.1, ← written passed.2) : Except Fault Argument) = .ok arg ↔
      Passes passed arg := by
  constructor
  · intro h
    obtain ⟨e, he, h⟩ := exists_of_bind_eq_ok h
    cases h
    exact ⟨rfl, written_eq_ok_iff.mp he⟩
  · rintro ⟨hkeyword, hliteral⟩
    rw [written_eq_ok_iff.mpr hliteral, ← hkeyword]
    rfl

theorem passing_eq_ok_iff {values : List Passed} {args : List Argument} :
    passing values = .ok args ↔ List.Forall₂ Passes values args := by
  rw [passing, mapM_eq_ok_iff]
  exact ⟨.imp fun _ _ => passed_eq_ok_iff.mp, .imp fun _ _ => passed_eq_ok_iff.mpr⟩

theorem exists_passing_iff {values : List Passed} :
    (∃ args, passing values = .ok args) ↔ ∀ x ∈ values, x.2.isWritable = true := by
  simp only [passing, exists_mapM_ok_iff, exists_bind_ok_iff, ← exists_written_iff]
  refine forall₂_congr fun x _ => exists_congr fun e => and_iff_left ⟨_, rfl⟩

theorem needed_eq_ok {name : Text} {part : Option Expression} {e : Expression}
    (h : needed name part = .ok e) : part = some e := by
  cases part with
  | none => cases h
  | some e' =>
    cases h
    rfl

theorem mem_of_choose {α : Type} {table : List (Text × α)} {v : Value} {a : α}
    (h : choose table v = .ok a) : ∃ name, (name, a) ∈ table := by
  cases v with
  | str name =>
    simp only [choose] at h
    split at h
    next found hfound =>
      cases h
      exact ⟨name, mem_of_lookup hfound⟩
    · cases h
  | null | bool _ | int _ | float _ | list _ | object _ => cases h

theorem slot_of_choose {v : Value} {field : Text} {slot : Slot}
    (h : choose loopParameters v = .ok (field, slot)) :
    slot.holdsBlocks = false ∧ slot ≠ .predecessor := by
  have hall : ∀ x ∈ loopParameters, x.2.2.holdsBlocks = false ∧ x.2.2 ≠ .predecessor := by decide
  obtain ⟨name, hmem⟩ := mem_of_choose h
  exact hall _ hmem

section Arguments
variable {settings : Members} {profile : Profile} {parts : Parts} {args : List Argument}

theorem of_mem_fieldValue {field : Text} {slot : Slot} {passed : Passed}
    (h : passed ∈ fieldValue settings profile field slot) :
    passed = (profile.keyword slot, settings.get field) := by
  simp only [fieldValue] at h
  split at h
  · cases h
  · exact List.mem_singleton.mp h

theorem eq_of_splitArguments (h : splitArguments settings profile parts = .ok args) :
    ∃ condition ifTrue ifFalse, written (conditionOf settings parts) = .ok condition ∧
      parts.ifTrue = some ifTrue ∧ parts.ifFalse = some ifFalse ∧
      args = [(profile.keyword .condition, condition), (profile.keyword .ifTrue, ifTrue),
        (profile.keyword .ifFalse, ifFalse)] := by
  unfold splitArguments at h
  obtain ⟨condition, hcondition, h⟩ := exists_of_bind_eq_ok h
  obtain ⟨ifTrue, htrue, h⟩ := exists_of_bind_eq_ok h
  obtain ⟨ifFalse, hfalse, h⟩ := exists_of_bind_eq_ok h
  cases h
  exact ⟨condition, ifTrue, ifFalse, hcondition, needed_eq_ok htrue, needed_eq_ok hfalse, rfl⟩

/-- What a loop passes on before its body: its kind, the parameter for it and the limit. -/
def loopValues (settings : Members) (profile : Profile) (field : Text) (slot : Slot) :
    List Passed :=
  (profile.keyword .loopKind, settings.get "loopType") ::
    (fieldValue settings profile field slot
      ++ fieldValue settings profile "maxIterations" .maxIterations)

theorem eq_of_loopArguments (h : loopArguments settings profile parts = .ok args) :
    ∃ field slot before body,
      choose loopParameters (settings.get "loopType") = .ok (field, slot) ∧
      List.Forall₂ Passes (loopValues settings profile field slot) before ∧
      parts.body = some body ∧ args = before ++ [(profile.keyword .body, body)] := by
  unfold loopArguments at h
  obtain ⟨kind, hkind, h⟩ := exists_of_bind_eq_ok h
  obtain ⟨⟨field, slot⟩, hchoose, h⟩ := exists_of_bind_eq_ok h
  obtain ⟨params, hparams, h⟩ := exists_of_bind_eq_ok h
  obtain ⟨body, hbody, h⟩ := exists_of_bind_eq_ok h
  cases h
  exact ⟨field, slot, _, body, hchoose,
    .cons ⟨rfl, written_eq_ok_iff.mp hkind⟩ (passing_eq_ok_iff.mp hparams), needed_eq_ok hbody, rfl⟩

theorem slot_of_mem_loopValues {field : Text} {slot : Slot} {passed : Passed}
    (hchoose : choose loopParameters (settings.get "loopType") = .ok (field, slot))
    (h : passed ∈ loopValues settings profile field slot) :
    ∃ slot : Slot, (slot.holdsBlocks = false ∧ slot ≠ .predecessor) ∧
      passed.1 = profile.keyword slot := by
  rcases List.mem_cons.mp h with rfl | h
  · exact ⟨.loopKind, by decide, rfl⟩
  · rcases List.mem_append.mp h with h | h
    · exact ⟨slot, slot_of_choose hchoose, by rw [of_mem_fieldValue h]⟩
    · exact ⟨.maxIterations, by decide, by rw [of_mem_fieldValue h]⟩

end Arguments

def fixedKeywords : List Text :=
  ["kind", "config", "description", "model", "instruction", "outcomes", "seconds"]

/-- A keyword that is fixed or belongs to a slot other than that of the predecessor. -/
def Usual (profile : Profile) (keyword : Option Text) : Prop :=
  (∃ k ∈ fixedKeywords, keyword = some k) ∨
    ∃ slot, slot ≠ .predecessor ∧ keyword = profile.keyword slot

/-- The keyword of an argument is a usual one, and what it passes on is a literal, a part or an empty
list. -/
structure Origin (profile : Profile) (parts : Parts) (arg : Argument) : Prop where
  keyword : Usual profile arg.1
  expression : (∃ l, arg.2 = .literal l) ∨ some arg.2 ∈ parts.inner ∨ arg.2 = .list []

section Origin
variable {kind : NodeKind} {settings : Members} {profile : Profile} {parts : Parts}
  {args : List Argument} {arg : Argument} {values : List Passed} {passed : Passed}

theorem usual_fixed {k : Text} {v : Value} (hk : k ∈ fixedKeywords) :
    Usual profile (fixed k v).1 := Or.inl ⟨k, hk, rfl⟩

theorem usual_slot {slot : Slot} (hslot : slot ≠ .predecessor) :
    Usual profile (profile.keyword slot) := Or.inr ⟨slot, hslot, rfl⟩

theorem usual_description (h : passed ∈ description settings) : Usual profile passed.1 := by
  simp only [description] at h
  split at h
  · obtain rfl := List.mem_singleton.mp h
    exact usual_fixed (by decide)
  · cases h

theorem usual_stepValues (h : passed ∈ stepValues kind settings) : Usual profile passed.1 := by
  rcases List.mem_append.mp h with h | h
  · rcases List.mem_pair.mp h with rfl | rfl
    · exact usual_fixed (by decide)
    · exact usual_fixed (by decide)
  · exact usual_description h

theorem usual_agentValues (h : passed ∈ agentValues settings) : Usual profile passed.1 := by
  rcases List.mem_append.mp h with h | h
  · rcases List.mem_pair.mp h with rfl | rfl
    · exact usual_fixed (by decide)
    · exact usual_fixed (by decide)
  · exact usual_description h

theorem origin_of_passes (hpasses : List.Forall₂ Passes values args)
    (husual : ∀ passed ∈ values, Usual profile passed.1) (harg : arg ∈ args) :
    Origin profile parts arg := by
  obtain ⟨passed, hmem, hkeyword, l, _, hl⟩ := exists_of_forall₂ hpasses harg
  exact ⟨hkeyword ▸ husual passed hmem, Or.inl ⟨l, hl⟩⟩

theorem origin_of_passing (h : passing values = .ok args)
    (husual : ∀ passed ∈ values, Usual profile passed.1) (harg : arg ∈ args) :
    Origin profile parts arg := origin_of_passes (passing_eq_ok_iff.mp h) husual harg

theorem origin_written {slot : Slot} (hslot : slot ≠ .predecessor) {v : Value} {e : Expression}
    (h : written v = .ok e) : Origin profile parts (profile.keyword slot, e) := by
  obtain ⟨l, _, rfl⟩ := written_eq_ok_iff.mp h
  exact ⟨usual_slot hslot, Or.inl ⟨l, rfl⟩⟩

theorem origin_part {slot : Slot} (hslot : slot ≠ .predecessor) {e : Expression}
    (he : some e ∈ parts.inner) : Origin profile parts (profile.keyword slot, e) :=
  ⟨usual_slot hslot, Or.inr (Or.inl he)⟩

theorem origin_optional {slot : Slot} (hslot : slot ≠ .predecessor) {part : Option Expression}
    (hpart : part ∈ parts.inner) :
    Origin profile parts (profile.keyword slot, part.getD (.list [])) := by
  cases part with
  | none => exact ⟨usual_slot hslot, Or.inr (Or.inr rfl)⟩
  | some e => exact origin_part hslot hpart

theorem origin_of_arguments {template : Template}
    (h : template.arguments kind settings profile parts = .ok args) (harg : arg ∈ args) :
    Origin profile parts arg := by
  cases template with
  | agent => exact origin_of_passing h (fun _ => usual_agentValues) harg
  | step => exact origin_of_passing h (fun _ => usual_stepValues) harg
  | outcomeStep | delay =>
    obtain ⟨before, hbefore, h⟩ := exists_of_bind_eq_ok h
    obtain ⟨_, _, h⟩ := exists_of_bind_eq_ok h
    obtain ⟨last, hlast, h⟩ := exists_of_bind_eq_ok h
    cases h
    rcases List.mem_append.mp harg with harg | harg
    · exact origin_of_passing hbefore (fun _ => usual_stepValues) harg
    · exact origin_of_passing hlast (List.forall_mem_singleton.mpr (usual_fixed (by decide))) harg
  | sequential =>
    cases h
    obtain rfl := List.mem_singleton.mp harg
    exact origin_optional (by decide) (by simp [Parts.inner])
  | parallel =>
    obtain ⟨join, hjoin, h⟩ := exists_of_bind_eq_ok h
    cases h
    rcases List.mem_pair.mp harg with rfl | rfl
    · exact origin_optional (by decide) (by simp [Parts.inner])
    · exact origin_written (by decide) hjoin
  | conditional | outcomeSplit =>
    obtain ⟨condition, ifTrue, ifFalse, hcondition, htrue, hfalse, rfl⟩ := eq_of_splitArguments h
    simp only [List.mem_cons, List.not_mem_nil, or_false] at harg
    rcases harg with rfl | rfl | rfl
    · exact origin_written (by decide) hcondition
    · exact origin_part (by decide) (htrue ▸ by simp [Parts.inner])
    · exact origin_part (by decide) (hfalse ▸ by simp [Parts.inner])
  | router =>
    cases h
    obtain rfl := List.mem_singleton.mp harg
    exact origin_optional (by decide) (by simp [Parts.inner])
  | loop =>
    obtain ⟨field, slot, before, body, hchoose, hpasses, hbody, rfl⟩ := eq_of_loopArguments h
    rcases List.mem_append.mp harg with harg | harg
    · refine origin_of_passes hpasses (fun passed hmem => ?_) harg
      obtain ⟨slot, ⟨_, hslot⟩, hkeyword⟩ := slot_of_mem_loopValues hchoose hmem
      exact hkeyword ▸ usual_slot hslot
    · obtain rfl := List.mem_singleton.mp harg
      exact origin_part (by decide) (hbody ▸ by simp [Parts.inner])

end Origin

section Statement

theorem of_mem_foldl_addArgument {args : List Argument} {named : List (Text × Expression)}
    {arg : Text × Expression} (h : arg ∈ args.foldl addArgument named) :
    arg ∈ named ∨ (some arg.1, arg.2) ∈ args := by
  induction args generalizing named with
  | nil => exact Or.inl h
  | cons a rest ih =>
    rcases ih h with h | h
    · unfold addArgument at h
      split at h
      · exact Or.inl h
      next keyword hkeyword =>
        split at h
        · exact Or.inl h
        · rcases List.mem_append.mp h with h | h
          · exact Or.inl h
          · obtain rfl := List.mem_singleton.mp h
            exact Or.inr (List.mem_cons.mpr (Or.inl (Prod.ext hkeyword.symm rfl)))
    · exact Or.inr (List.mem_cons_of_mem _ h)

theorem mem_addArgument {named : List (Text × Expression)} {arg : Text × Expression}
    (h : arg ∈ named) (a : Argument) : arg ∈ addArgument named a := by
  unfold addArgument
  split
  · exact h
  · split
    · exact h
    · exact List.mem_append_left _ h

theorem foldl_addArgument_subset (args : List Argument) {named : List (Text × Expression)} :
    named ⊆ args.foldl addArgument named := by
  induction args generalizing named with
  | nil => exact List.Subset.refl _
  | cons a rest ih => exact fun arg harg => ih (mem_addArgument harg a)

theorem mem_foldl_addArgument {before after : List Argument} {named : List (Text × Expression)}
    {keyword : Text} {e : Expression} (hnamed : ∀ arg ∈ named, arg.1 ≠ keyword)
    (hbefore : ∀ arg ∈ before, arg.1 ≠ some keyword) :
    (keyword, e) ∈ (before ++ (some keyword, e) :: after).foldl addArgument named := by
  rw [List.foldl_append, List.foldl_cons]
  apply foldl_addArgument_subset
  have hfree : ((before.foldl addArgument named).any (·.1 == keyword)) = false := by
    rw [List.any_eq_false]
    intro arg harg heq
    have hkeyword : arg.1 = keyword := by simpa using heq
    rcases of_mem_foldl_addArgument harg with h | h
    · exact hnamed arg h hkeyword
    · exact hbefore _ h (by rw [hkeyword])
  simp only [addArgument, hfree]
  exact List.mem_append_right _ (List.mem_singleton.mpr rfl)

variable {template : Template} {profile : Profile} {node : Node} {ident label : Text}
  {parts : Parts} {predecessor : Option Text} {s : Statement}

theorem statement_args (h : template.statement profile node ident label parts predecessor = .ok s) :
    ∃ args, template.arguments node.kind node.settings profile parts = .ok args ∧
      s.args = (args ++ predecessorArgument profile predecessor).foldl addArgument
        [("name", .string (profile.displayName label ident))] := by
  obtain ⟨args, hargs, h⟩ := exists_of_bind_eq_ok h
  obtain ⟨remarks, _, h⟩ := exists_of_bind_eq_ok h
  cases h
  exact ⟨args, hargs, rfl⟩

theorem args_ne_nil (h : template.statement profile node ident label parts predecessor = .ok s) :
    s.args ≠ [] := by
  obtain ⟨args, -, heq⟩ := statement_args h
  rw [heq]
  exact List.ne_nil_of_mem (foldl_addArgument_subset _ List.mem_cons_self)

/-- An argument of a statement is the name, has an origin, or refers to the predecessor. -/
theorem argument_cases (h : template.statement profile node ident label parts predecessor = .ok s)
    {arg : Text × Expression} (harg : arg ∈ s.args) :
    arg.1 = "name" ∧ arg.2 = .string (profile.displayName label ident) ∨
      Origin profile parts (some arg.1, arg.2) ∨
      profile.keyword .predecessor = some arg.1 ∧
        ∃ x, predecessor = some x ∧ x ≠ [] ∧ arg.2 = .name x := by
  obtain ⟨args, hargs, heq⟩ := statement_args h
  rw [heq] at harg
  rcases of_mem_foldl_addArgument harg with harg | harg
  · rw [List.mem_singleton.mp harg]
    exact Or.inl ⟨rfl, rfl⟩
  · rcases List.mem_append.mp harg with harg | harg
    · exact Or.inr (Or.inl (origin_of_arguments hargs harg))
    · cases predecessor with
      | none => cases harg
      | some x =>
        rw [predecessorArgument] at harg
        split at harg
        · cases harg
        next hx =>
          obtain ⟨hkeyword, hexpression⟩ := Prod.mk.inj (List.mem_singleton.mp harg)
          exact Or.inr (Or.inr ⟨hkeyword.symm, x, rfl, hx, hexpression⟩)

/-- Where no other argument goes by its keyword, the argument for the predecessor is there exactly if
there is a predecessor. -/
theorem mem_args_predecessor
    (h : template.statement profile node ident label parts predecessor = .ok s) {k : Text}
    (hk : profile.keyword .predecessor = some k) (hname : k ≠ "name") (hfixed : k ∉ fixedKeywords)
    (hslot : ∀ slot, profile.keyword slot = some k → slot = .predecessor) {e : Expression} :
    (k, e) ∈ s.args ↔ ∃ x, predecessor = some x ∧ x ≠ [] ∧ e = .name x := by
  have hbefore : ∀ arg, Origin profile parts arg → arg.1 ≠ some k := by
    intro arg horigin hkeyword
    rcases horigin.keyword with ⟨k', hk', heq⟩ | ⟨slot, hne, heq⟩
    · rw [hkeyword] at heq
      exact hfixed (Option.some.inj heq ▸ hk')
    · exact hne (hslot slot (heq.symm.trans hkeyword))
  constructor
  · intro harg
    rcases argument_cases h harg with ⟨hkeyword, _⟩ | horigin | ⟨_, hx⟩
    · exact absurd hkeyword hname
    · exact absurd rfl (hbefore _ horigin)
    · exact hx
  · rintro ⟨x, rfl, hx, rfl⟩
    obtain ⟨args, hargs, heq⟩ := statement_args h
    have hpredecessor : predecessorArgument profile (some x) = [(some k, .name x)] := by
      rw [predecessorArgument, if_neg hx, hk]
    rw [heq, hpredecessor]
    exact mem_foldl_addArgument (List.forall_mem_singleton.mpr (Ne.symm hname))
      fun arg harg => hbefore arg (origin_of_arguments hargs harg)

end Statement

end Template

end WorkflowCompiler
