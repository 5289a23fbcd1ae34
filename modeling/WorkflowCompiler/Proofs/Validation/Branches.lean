import Mathlib
import WorkflowCompiler.Proofs.Validation.Sound

/-! # The check of branches

The check looks at the ports of conditionals and routers. It ends without findings, or with warnings,
unless a port that no edge leaves by is to be looked up in terminated ports that cannot be searched:
a number other than zero, or the truth value.
-/
namespace WorkflowCompiler

/-- A node whose ports are alternatives. -/
def Node.Splits (node : Node) : Prop := node.kind = .conditional ∨ node.kind = .router

def Graph.LeavesBy (g : Graph) (node : Node) (port : Text) : Prop :=
  ∃ e ∈ g.edges, e.source = node.id ∧ node.kind.effectivePort? e.sourcePort = some port

/-- A value in which no port can be looked up. -/
def Value.Unsearchable : Value → Prop
  | .bool b => b = true
  | .int n => n ≠ 0
  | .float x => (x == 0) = false
  | _ => False

/-- The check cannot look up whether a port that no edge leaves by is terminated. -/
structure Graph.Stumbles (g : Graph) (node : Node) : Prop where
  splits : node.Splits
  unsearchable : (node.config.get "terminatedPorts").Unsearchable
  unused : ∃ port ∈ node.kind.outputNames node.config, ¬ g.LeavesBy node port

namespace Validation

theorem isUsed_iff {g : Graph} {node : Node} {port : Text} :
    isUsed g node port = true ↔ g.LeavesBy node port := by
  simp [isUsed, Graph.outgoing, Graph.LeavesBy]

theorem exists_listsPort_iff {port : Text} {v : Value} :
    (∃ listed, listsPort port v = .ok listed) ↔ ¬ v.Unsearchable := by
  cases v with
  | null | str _ | list _ | object _ => simp [listsPort, Value.Unsearchable, Value.isGiven]
  | bool b => cases b <;> simp [listsPort, Value.Unsearchable, Value.isGiven]
  | int n => by_cases hn : n = 0 <;> simp [listsPort, Value.Unsearchable, Value.isGiven, hn]
  | float x => cases hx : x == 0 <;> simp [listsPort, Value.Unsearchable, Value.isGiven, hx]

theorem map_fst_branchPorts {node : Node} (h : node.Splits) :
    (branchPorts node).map (·.1) = node.kind.outputNames node.config := by
  unfold branchPorts NodeKind.outputNames NodeKind.outputs
  rcases h with h | h
  · rw [h]
    rfl
  · rw [h, List.map_map]
    rfl

theorem branchPorts_eq_nil {node : Node} (h : ¬ node.Splits) : branchPorts node = [] := by
  unfold branchPorts
  split
  next hk => exact absurd (.inl hk) h
  next hk => exact absurd (.inr hk) h
  · rfl

theorem splits_of_mem {node : Node} {port : Text × Text} (h : port ∈ branchPorts node) :
    node.Splits := by
  by_contra hsplits
  rw [branchPorts_eq_nil hsplits] at h
  exact absurd h List.not_mem_nil

/-- The terminated ports of a split without findings are a list, or are not given. -/
theorem terminatedPorts_of_checkNode {node : Node} (hnode : checkNode node = .ok [])
    (hsplits : node.Splits) : node.config.get "terminatedPorts" = .null ∨
      ∃ items, node.config.get "terminatedPorts" = .list items := by
  have hfield : Field.emptyList "terminatedPorts" ∈ node.kind.fields := by
    rcases hsplits with hk | hk <;> simp [hk, NodeKind.fields, Field.own]
  have hcheck := checkNode_eq_nil_iff.mp hnode _ hfield
  cases hv : node.config.get "terminatedPorts" with
  | null => exact .inl rfl
  | list items => exact .inr ⟨items, rfl⟩
  | _ => simp [checkField, Field.emptyList, hv, isAbsent, problem?, FieldType.admits, Except.map] at hcheck

theorem exists_checkPort_iff {g : Graph} {node : Node} {port label : Text} :
    (∃ ds, checkPort g node port label = .ok ds) ↔
      ((node.config.get "terminatedPorts").Unsearchable → g.LeavesBy node port) := by
  rw [checkPort, ← isUsed_iff]
  split
  next hused => exact ⟨fun _ _ => hused, fun _ => ⟨[], rfl⟩⟩
  next hused =>
    rw [exists_map_ok_iff, exists_listsPort_iff]
    exact ⟨fun h hun => absurd hun h, fun h hun => hused (h hun)⟩

theorem exists_checkBranch_iff {g : Graph} {node : Node} :
    (∃ ds, checkBranch g node = .ok ds) ↔ ¬ g.Stumbles node := by
  rw [checkBranch, exists_map_ok_iff, exists_mapM_ok_iff]
  simp only [exists_checkPort_iff]
  constructor
  · rintro h ⟨hsplits, hun, port, hport, hunused⟩
    rw [← map_fst_branchPorts hsplits] at hport
    obtain ⟨p, hp, rfl⟩ := List.mem_map.mp hport
    exact hunused (h p hp hun)
  · intro h p hp hun
    by_contra hunused
    have hsplits := splits_of_mem hp
    refine h ⟨hsplits, hun, p.1, ?_, hunused⟩
    rw [← map_fst_branchPorts hsplits]
    exact List.mem_map_of_mem hp

theorem exists_checkBranches_iff {g : Graph} :
    (∃ ds, checkBranches g = .ok ds) ↔ ∀ node ∈ g.nodes, ¬ g.Stumbles node := by
  rw [checkBranches, exists_map_ok_iff, exists_mapM_ok_iff]
  simp only [exists_checkBranch_iff]

end Validation

end WorkflowCompiler
