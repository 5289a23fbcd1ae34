import Mathlib
import WorkflowCompiler.Document.Load
import WorkflowCompiler.Proofs.Validation.Branches
import WorkflowCompiler.Proofs.Validation.Fields
import WorkflowCompiler.Proofs.Validation.Warnings
import WorkflowCompiler.Proofs.Value.Spelling

/-! # No finding about a field is lost

The checks run one after the other and none depends on what another one found, so whatever else is
wrong with a graph, every field that errs is reported. The code of a finding tells which check it
comes from, and so the findings about fields are these and no others. The checks fail to give an
answer only where the check of branches stumbles, or where a number that is too small is too long to
be shown.
-/
namespace WorkflowCompiler
open Validation

/-- A finding says that a field of a node is missing, or what is wrong with its value. -/
def Node.Reports (node : Node) (field : Field) (d : Diagnostic) : Prop :=
  d = missingConfig node field ∨ ∃ problem, d = invalidConfig node field problem

/-- The codes of the findings about fields. -/
def Diagnostic.IsOfField (d : Diagnostic) : Prop :=
  d.code = "missing-config" ∨ d.code = "invalid-config"

/-- A field is given as an integer that is below its minimum and has too many digits to be shown. -/
def Node.Overflows (node : Node) (field : Field) : Prop :=
  ∃ n least, node.config.get field.name = .int n ∧ field.minimum = some least ∧ n < least ∧
    Text.isShort n = false

/-- A field with a minimum is a number without choices, and one with choices is a text. -/
theorem NodeKind.minimum_or_choices (kind : NodeKind) : ∀ f ∈ kind.fields,
    (f.minimum.isSome → f.choices = [] ∧ (f.type = .int ∨ f.type = .number)) ∧
      (f.choices ≠ [] → f.type = .string) := by
  cases kind <;> decide

namespace Validation
variable {g : Graph} {d : Diagnostic}

theorem exists_shown_iff {v : Value} : (∃ text, v.shown = .ok text) ↔ v.isWritable = true := by
  rw [← v.text_isSome, Value.shown]
  cases v.text <;> simp

/-- What is wrong with a value can be said unless too long a number has to be shown. -/
theorem exists_problem?_iff {kind : NodeKind} {field : Field} (hf : field ∈ kind.fields)
    {v : Value} : (∃ problem, problem? field v = .ok problem) ↔
      ¬ ∃ n least, v = .int n ∧ field.minimum = some least ∧ n < least ∧
        Text.isShort n = false := by
  obtain ⟨hminimum, hchoices⟩ := kind.minimum_or_choices field hf
  unfold problem?
  split
  next htype =>
    refine iff_of_true ⟨_, rfl⟩ ?_
    rintro ⟨n, least, rfl, hleast, _⟩
    obtain ⟨_, hnumber | hnumber⟩ := hminimum (by simp [hleast]) <;>
      simp [hnumber, FieldType.admits] at htype
  next htype =>
  split
  next hchoice =>
    have hstring : field.type = .string := hchoices (by simp at hchoice; exact hchoice.1)
    cases v with
    | str s => exact iff_of_true ⟨_, rfl⟩ (by rintro ⟨_, _, hv, _⟩; cases hv)
    | _ => simp [hstring, FieldType.admits] at htype
  next hchoice =>
  split
  next hnone =>
    refine iff_of_true ⟨_, rfl⟩ ?_
    rintro ⟨_, _, _, hleast, _⟩
    cases hnone.symm.trans hleast
  next least hleast =>
    split
    next hbelow =>
      have hshown : (∃ text, v.shown = .ok text) ↔ v.isWritable = true := exists_shown_iff
      rw [exists_bind_ok_iff]
      refine (exists_congr fun text => and_iff_left ⟨_, rfl⟩).trans (hshown.trans ?_)
      cases v with
      | int n =>
        rw [Value.isWritable_int, ← Bool.not_eq_false]
        refine not_congr ⟨fun hlong => ?_, ?_⟩
        · exact ⟨n, least, rfl, hleast, of_decide_eq_true hbelow, hlong⟩
        · rintro ⟨_, _, hv, _, _, hlong⟩
          cases hv
          exact hlong
      | float x => exact iff_of_true rfl (by rintro ⟨_, _, hv, _⟩; cases hv)
      | _ => cases hbelow
    next hbelow =>
      refine iff_of_true ⟨_, rfl⟩ ?_
      rintro ⟨n, _, rfl, hleast', hlt, _⟩
      cases hleast.symm.trans hleast'
      exact hbelow (decide_eq_true hlt)

/-- The check of a field gives an answer unless it has to show too long a number. -/
theorem exists_checkField_iff {node : Node} {field : Field} (hf : field ∈ node.kind.fields) :
    (∃ found, checkField node field = .ok found) ↔ ¬ node.Overflows field := by
  simp only [checkField]
  split
  next habsent =>
    refine iff_of_true ⟨_, rfl⟩ ?_
    rintro ⟨n, _, hv, _⟩
    rw [hv] at habsent
    cases habsent
  next habsent => rw [exists_map_ok_iff, exists_problem?_iff hf, Node.Overflows]

/-- A field errs exactly if the check reports it, where it gives an answer. -/
theorem errs_of_checkField {node : Node} {field : Field} (hf : field ∈ node.kind.fields)
    (h : checkField node field = .ok (some d)) : node.Errs field := by
  by_contra herrs
  rw [(checkField_eq_none_iff hf).mpr herrs] at h
  cases h

theorem exists_of_errs {node : Node} {field : Field} (hf : field ∈ node.kind.fields)
    (herrs : node.Errs field) {found : Option Diagnostic} (h : checkField node field = .ok found) :
    ∃ d, found = some d := by
  cases found with
  | some d => exact ⟨d, rfl⟩
  | none => exact absurd herrs ((checkField_eq_none_iff hf).mp h)

section Codes

theorem checkIdentity_code (h : d ∈ checkIdentity g) :
    d.code = "duplicate-node" ∨ d.code = "duplicate-edge" := by
  rcases List.mem_append.mp h with h | h
  · obtain ⟨id, -, rfl⟩ := List.mem_map.mp h
    exact .inl rfl
  · obtain ⟨id, -, rfl⟩ := List.mem_map.mp h
    exact .inr rfl

theorem checkEdges_code (h : d ∈ checkEdges g) :
    d.code = "dangling-edge" ∨ d.code = "invalid-port" := by
  obtain ⟨e, -, h⟩ := List.mem_flatMap.mp h
  unfold checkEdge at h
  split at h
  · apply Or.inr
    unfold checkOutput checkInput at h
    rcases List.mem_append.mp h with h | h
    · split at h
      · rw [List.mem_singleton.mp h]
        rfl
      · split at h
        · exact absurd h List.not_mem_nil
        · rw [List.mem_singleton.mp h]
          rfl
    · split at h
      · exact absurd h List.not_mem_nil
      · rw [List.mem_singleton.mp h]
        rfl
  · apply Or.inl
    rcases List.mem_append.mp h with h | h <;> split at h
    · rw [List.mem_singleton.mp h]
      rfl
    · exact absurd h List.not_mem_nil
    · rw [List.mem_singleton.mp h]
      rfl
    · exact absurd h List.not_mem_nil

theorem checkReachability_code (h : d ∈ checkReachability g) :
    d.code = "no-entry" ∨ d.code = "unreachable-node" := by
  unfold checkReachability at h
  split at h
  · exact absurd h List.not_mem_nil
  split at h
  · rw [List.mem_singleton.mp h]
    exact .inl rfl
  · obtain ⟨id, -, h⟩ := List.mem_filterMap.mp h
    obtain ⟨node, -, rfl⟩ := Option.map_eq_some_iff.mp h
    exact .inr rfl

theorem checkCycles_code (h : d ∈ checkCycles g) : d.code = "illegal-cycle" := by
  obtain ⟨members, -, rfl⟩ := List.mem_map.mp h
  rfl

theorem not_isOfField {code : Text} (h : d.code = code)
    (hcode : code ≠ "missing-config" ∧ code ≠ "invalid-config") : ¬ d.IsOfField := by
  subst h
  exact fun hown => hown.elim hcode.1 hcode.2

end Codes

theorem checkField_of_isOfField {ds : List Diagnostic} (h : validate g = .ok ds)
    (hd : d ∈ ds) (hcode : d.IsOfField) :
    ∃ node ∈ g.nodes, ∃ field ∈ node.kind.fields, checkField node field = .ok (some d) := by
  obtain ⟨config, branches, hconfig, hbranches, rfl⟩ := findings_of_validate h
  simp only [List.mem_append] at hd
  rcases hd with ((((hd | hd) | hd) | hd) | hd) | hd
  · rcases checkIdentity_code hd with hown | hown
    · exact absurd hcode (not_isOfField hown (by decide))
    · exact absurd hcode (not_isOfField hown (by decide))
  · exact (mem_of_checkConfig hconfig).mp hd
  · rcases checkEdges_code hd with hown | hown
    · exact absurd hcode (not_isOfField hown (by decide))
    · exact absurd hcode (not_isOfField hown (by decide))
  · rcases checkReachability_code hd with hown | hown
    · exact absurd hcode (not_isOfField hown (by decide))
    · exact absurd hcode (not_isOfField hown (by decide))
  · exact absurd hcode (not_isOfField (checkCycles_code hd) (by decide))
  · obtain ⟨node, port, label, rfl⟩ := checkBranches_code hbranches hd
    have hown : (unterminatedBranch node port label).code = "unterminated-branch" := rfl
    exact absurd hcode (not_isOfField hown (by decide))

theorem exists_finding {ds : List Diagnostic} (h : validate g = .ok ds) {node : Node}
    (hn : node ∈ g.nodes) {field : Field} (hf : field ∈ node.kind.fields)
    (herrs : node.Errs field) : ∃ d ∈ ds, checkField node field = .ok (some d) := by
  obtain ⟨config, branches, hconfig, _, rfl⟩ := findings_of_validate h
  obtain ⟨found, hfound⟩ := exists_checkField hconfig hn hf
  obtain ⟨d, rfl⟩ := exists_of_errs hf herrs hfound
  have hmem : d ∈ config := (mem_of_checkConfig hconfig).mpr ⟨node, hn, field, hf, hfound⟩
  exact ⟨d, by simp [hmem], hfound⟩

theorem exists_checkConfig_iff : (∃ config, checkConfig g = .ok config) ↔
    ∀ node ∈ g.nodes, ∀ field ∈ node.kind.fields, ¬ node.Overflows field := by
  rw [checkConfig, exists_map_ok_iff, exists_mapM_ok_iff]
  refine forall₂_congr fun node _ => ?_
  rw [checkNode, exists_map_ok_iff, exists_mapM_ok_iff]
  exact forall₂_congr fun field hf => exists_checkField_iff hf

theorem exists_validate_iff : (∃ ds, validate g = .ok ds) ↔
    (∀ node ∈ g.nodes, ∀ field ∈ node.kind.fields, ¬ node.Overflows field) ∧
      ∀ node ∈ g.nodes, ¬ g.Stumbles node := by
  rw [← exists_checkConfig_iff, ← exists_checkBranches_iff, validate]
  simp only [exists_bind_ok_iff]
  constructor
  · rintro ⟨config, hconfig, branches, hbranches, _⟩
    exact ⟨⟨config, hconfig⟩, branches, hbranches⟩
  · rintro ⟨⟨config, hconfig⟩, branches, hbranches⟩
    exact ⟨config, hconfig, branches, hbranches, _, rfl⟩

end Validation

/-- The checks give an answer for every graph, except one with a field that is given as too small and
too long a number, or with a node whose terminated ports cannot be searched though a port of it is to
be looked up. The answer has an error for every field that errs, with the id of its node, whatever
else is wrong with the graph; and no error says so of any other field. -/
theorem validate_findings (g : Graph) :
    ((∃ ds, validate g = .ok ds) ↔
      (∀ node ∈ g.nodes, ∀ field ∈ node.kind.fields, ¬ node.Overflows field) ∧
        ∀ node ∈ g.nodes, ¬ g.Stumbles node) ∧
      ∀ ds, validate g = .ok ds →
        (∀ node ∈ g.nodes, ∀ field ∈ node.kind.fields, node.Errs field →
          ∃ d ∈ ds, d.isError = true ∧ d.IsOfField ∧ d.nodeId = some node.id ∧
            node.Reports field d) ∧
        ∀ d ∈ ds, d.IsOfField →
          ∃ node ∈ g.nodes, ∃ field ∈ node.kind.fields, node.Errs field ∧ node.Reports field d := by
  refine ⟨exists_validate_iff, fun ds hds => ⟨?_, ?_⟩⟩
  · intro node hn field hf herrs
    obtain ⟨d, hd, hcheck⟩ := exists_finding hds hn hf herrs
    refine ⟨d, hd, ?_⟩
    rcases checkField_eq_some hcheck with rfl | ⟨problem, rfl⟩
    · exact ⟨rfl, .inl rfl, rfl, .inl rfl⟩
    · exact ⟨rfl, .inr rfl, rfl, .inr ⟨problem, rfl⟩⟩
  · intro d hd hcode
    obtain ⟨node, hn, field, hf, hcheck⟩ := checkField_of_isOfField hds hd hcode
    exact ⟨node, hn, field, hf, errs_of_checkField hf hcheck, checkField_eq_some hcheck⟩

/-- A router with a number for its terminated ports. -/
def numberedRouter : Node :=
  ⟨"r", .router, [("routeCount", .int 1), ("terminatedPorts", .int 5)], none⟩

def numberedDocument : Value :=
  .object [("nodes", .list [.object [("id", .str "r"), ("type", .str "router"),
    ("routeCount", .int 1), ("terminatedPorts", .int 5)]]), ("edges", .list [])]

/-- The router with its route in use, beside a repeated node and an edge that leads nowhere. -/
def numberedTangle : Graph where
  nodes := [numberedRouter, ⟨"x", .debug, [], none⟩, ⟨"x", .debug, [], none⟩]
  edges := [⟨"e1", "r", "x", some "route0", none⟩, ⟨"e2", "x", "y", none, none⟩]

def countedLoop (n : Int) : Node := ⟨"h", .loop, [("loopCount", .int n)], none⟩

theorem load_numberedDocument :
    Document.load numberedDocument = .ok ⟨⟨[numberedRouter], []⟩, "workflow"⟩ := by
  cbv

theorem Node.not_overflows {node : Node} (h : ∀ name n, (name, .int n) ∈ node.config →
    Text.isShort n = true) (field : Field) : ¬ node.Overflows field := by
  rintro ⟨n, least, hv, -, -, hlong⟩
  have hmem := Members.mem_of_get? (Members.get?_of_get hv (by simp))
  rw [h _ n hmem] at hlong
  cases hlong

/-- The router alone has no answer, nor has a loop with a count far below its minimum; in use, the
router is reported beside all else that is wrong. -/
theorem validate_findings_numbered :
    (∃ w, Document.load numberedDocument = .ok w ∧ ¬ ∃ ds, validate w.graph = .ok ds) ∧
      (¬ ∃ ds, validate ⟨[countedLoop (-Decimal.pow10 Text.maxDigits)], []⟩ = .ok ds) ∧
      ∃ ds, validate numberedTangle = .ok ds ∧ ∃ d ∈ ds, d.isError = true ∧
        d.nodeId = some "r" ∧ numberedRouter.Reports (Field.emptyList "terminatedPorts") d := by
  have hunsearchable : (numberedRouter.config.get "terminatedPorts").Unsearchable := by
    show (5 : Int) ≠ 0
    decide
  refine ⟨?_, ?_, ?_⟩
  · refine ⟨_, load_numberedDocument, ?_⟩
    rw [(validate_findings _).1]
    rintro ⟨-, hnone⟩
    apply hnone numberedRouter List.mem_cons_self
    exact ⟨.inr rfl, hunsearchable, "route0", List.mem_cons_self,
      fun ⟨_, he, _⟩ => absurd he List.not_mem_nil⟩
  · let field : Field :=
      { name := "loopCount", type := .int, requiredWhen := some ("loopType", "fixed-count"),
        minimum := some 1 }
    have hfield : ∀ n, field ∈ (countedLoop n).kind.fields := by
      intro n
      simp [field, countedLoop, NodeKind.fields, Field.own]
    have hsmall : (-Decimal.pow10 Text.maxDigits : Int) < (1 : Nat) :=
      lt_of_le_of_lt (neg_nonpos.mpr (Int.natCast_nonneg _)) Int.one_pos
    have hlong : Text.isShort (-Decimal.pow10 Text.maxDigits) = false := by
      rw [Bool.eq_false_iff, ne_eq, Text.isShort_iff, Int.natAbs_neg, Int.natAbs_natCast]
      exact lt_irrefl _
    rw [(validate_findings _).1]
    rintro ⟨hnone, -⟩
    exact hnone _ List.mem_cons_self _ (hfield _) ⟨_, 1, rfl, rfl, hsmall, hlong⟩
  · have hoverflows : ∀ node ∈ numberedTangle.nodes, ∀ field ∈ node.kind.fields,
        ¬ node.Overflows field := by
      have hshort : ∀ node ∈ numberedTangle.nodes, ∀ m ∈ node.config, m.2.isWritable = true := by
        decide
      intro node hnode field _
      exact Node.not_overflows (fun name n hmem => hshort node hnode _ hmem) field
    have hstumbles : ∀ node ∈ numberedTangle.nodes, ¬ numberedTangle.Stumbles node := by
      rintro node hnode ⟨hsplits, -, port, hport, hunused⟩
      simp only [numberedTangle, List.mem_cons, List.not_mem_nil, or_false, or_self] at hnode
      rcases hnode with rfl | rfl
      · have hroute : port = "route0" := List.mem_singleton.mp hport
        subst hroute
        exact hunused ⟨_, List.mem_cons_self, rfl, rfl⟩
      · rcases hsplits with hkind | hkind <;> cases hkind
    obtain ⟨ds, hds⟩ := (validate_findings numberedTangle).1.mpr ⟨hoverflows, hstumbles⟩
    have hfield : Field.emptyList "terminatedPorts" ∈ numberedRouter.kind.fields := by
      simp [numberedRouter, NodeKind.fields, Field.own]
    have herrs : numberedRouter.Errs (Field.emptyList "terminatedPorts") := by
      refine .inr ⟨?_, fun hadmits => ?_⟩
      · rintro (hnull | ⟨htype, -⟩)
        · cases hnull
        · cases htype
      · cases hadmits.type
    obtain ⟨d, hd, herror, -, hid, hreports⟩ := ((validate_findings numberedTangle).2 ds hds).1
      numberedRouter List.mem_cons_self _ hfield herrs
    exact ⟨ds, hds, d, hd, herror, hid, hreports⟩

end WorkflowCompiler
