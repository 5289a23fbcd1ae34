import Mathlib
import WorkflowCompiler.Proofs.Resolution.Arms
import WorkflowCompiler.Proofs.Validation.Branches
import WorkflowCompiler.Proofs.Validation.Warnings

/-! # Warnings about branches

In an accepted graph the warnings about branches are those about open ports: no edge leaves by an
open port, and its node does not list it as terminated. Ids and ports are unique and a message shows
its port, so each open port gets one warning of its own.
-/
namespace WorkflowCompiler

/-- The node lists the port as terminated. -/
def Node.Terminates (node : Node) (port : Text) : Prop :=
  ∃ items, node.config.get "terminatedPorts" = .list items ∧ .str port ∈ items

namespace Validation

def isTerminated (node : Node) (port : Text) : Bool :=
  match node.config.get "terminatedPorts" with
  | .list items => items.any fun v => v.str? == some port
  | _ => false

theorem isTerminated_iff {node : Node} {port : Text} :
    isTerminated node port = true ↔ node.Terminates port := by
  unfold isTerminated Node.Terminates
  have htext : ∀ item : Value, item.str? = some port ↔ item = .str port := by
    intro item
    cases item <;> simp [Value.str?]
  cases node.config.get "terminatedPorts" <;> simp [htext]

def isOpen (g : Graph) (node : Node) (port : Text) : Bool :=
  !isUsed g node port && !isTerminated node port

def openWarnings (g : Graph) (node : Node) : List Diagnostic :=
  ((branchPorts node).filter fun port => isOpen g node port.1).map fun port =>
    unterminatedBranch node port.1 port.2

section Shown
variable {node : Node}

theorem blank_not_mem_port {port : Text × Text} (h : port ∈ branchPorts node) :
    CodePoint.char ' ' ∉ port.1 := by
  unfold branchPorts at h
  split at h
  · rcases List.mem_pair.mp h with rfl | rfl
    · decide
    · decide
  · obtain ⟨i, -, rfl⟩ := List.mem_map.mp h
    intro hmem
    rcases List.mem_append.mp hmem with hmem | hmem
    · revert hmem
      decide
    · obtain ⟨c, hc, heq⟩ := List.mem_map.mp hmem
      obtain rfl := CodePoint.char.inj heq
      have hnumeral : ' ' ∈ Nat.toDigits 10 i := by rwa [← Nat.toList_repr]
      have hdigit := Nat.isDigit_of_mem_toDigits (by norm_num) (by norm_num) hnumeral
      revert hdigit
      decide
  · exact absurd h List.not_mem_nil

/-- A port is the beginning of what is shown of it, up to the first blank. -/
theorem takeWhile_shown {port label : Text} (h : CodePoint.char ' ' ∉ port) :
    (if label = port then port else port ++ " (" ++ label ++ ")").takeWhile
      (· ≠ CodePoint.char ' ') = port := by
  have hport : ∀ c ∈ port, decide (c ≠ CodePoint.char ' ') = true := by
    intro c hc
    rw [decide_eq_true_iff]
    rintro rfl
    exact h hc
  split
  · exact List.takeWhile_eq_self_iff.mpr hport
  · rw [List.append_assoc, List.append_assoc, List.takeWhile_append_of_pos hport]
    have hblank : ((" (" : Text) ++ (label ++ ")")).takeWhile (· ≠ CodePoint.char ' ') = [] := by
      rfl
    rw [hblank, List.append_nil]

theorem eq_of_unterminatedBranch_eq (hnodup : ((branchPorts node).map (·.1)).Nodup)
    {a b : Text × Text} (ha : a ∈ branchPorts node) (hb : b ∈ branchPorts node)
    (h : unterminatedBranch node a.1 a.2 = unterminatedBranch node b.1 b.2) : a = b := by
  have hshown : (if a.2 = a.1 then a.1 else a.1 ++ " (" ++ a.2 ++ ")") =
      if b.2 = b.1 then b.1 else b.1 ++ " (" ++ b.2 ++ ")" := by
    have hmessage := congrArg Diagnostic.message h
    exact List.append_cancel_left (List.append_cancel_right hmessage)
  have hport := congrArg (List.takeWhile (· ≠ CodePoint.char ' ')) hshown
  rw [takeWhile_shown (blank_not_mem_port ha), takeWhile_shown (blank_not_mem_port hb)] at hport
  exact List.inj_on_of_nodup_map hnodup ha hb hport

theorem branchPorts_nodup (node : Node) : ((branchPorts node).map (·.1)).Nodup := by
  unfold branchPorts
  split
  · decide
  · exact routeLabels_nodup node.config
  · exact List.nodup_nil

theorem openWarnings_nodup (g : Graph) (node : Node) : (openWarnings g node).Nodup := by
  refine List.Nodup.map_on ?_ ((List.Nodup.of_map _ (branchPorts_nodup node)).filter _)
  intro a ha b hb h
  exact eq_of_unterminatedBranch_eq (branchPorts_nodup node) (List.mem_filter.mp ha).1
    (List.mem_filter.mp hb).1 h

theorem mem_openWarnings_iff {g : Graph} {port : Text × Text} (hport : port ∈ branchPorts node) :
    unterminatedBranch node port.1 port.2 ∈ openWarnings g node ↔ isOpen g node port.1 = true := by
  constructor
  · intro hmem
    obtain ⟨other, hother, heq⟩ := List.mem_map.mp hmem
    obtain ⟨hother, hopen⟩ := List.mem_filter.mp hother
    rw [← eq_of_unterminatedBranch_eq (branchPorts_nodup node) hother hport heq]
    exact hopen
  · intro hopen
    exact List.mem_map_of_mem (List.mem_filter.mpr ⟨hport, hopen⟩)

theorem count_openWarnings_of_ne {g : Graph} {others : List Node}
    (hne : ∀ other ∈ others, other.id ≠ node.id) (port label : Text) :
    (others.flatMap (openWarnings g)).count (unterminatedBranch node port label) = 0 := by
  rw [List.count_eq_zero]
  intro hmem
  obtain ⟨other, hother, hmem⟩ := List.mem_flatMap.mp hmem
  obtain ⟨p, -, heq⟩ := List.mem_map.mp hmem
  exact hne other hother (Option.some.inj (congrArg Diagnostic.nodeId heq))

end Shown

end Validation

namespace Validated
open Validation
variable (v : Validated) {node : Node} (hn : node ∈ v.graph.nodes)
include hn

theorem listsPort_eq {port : Text × Text} (hport : port ∈ branchPorts node) :
    listsPort port.1 (node.config.get "terminatedPorts") = .ok (isTerminated node port.1) := by
  have hclean : checkNode node = .ok [] := checkConfig_eq_nil_iff.mp v.checkConfig_eq_nil node hn
  unfold isTerminated
  rcases terminatedPorts_of_checkNode hclean (splits_of_mem hport) with hv | ⟨items, hv⟩
  · rw [hv]
    rfl
  · rw [hv]
    rfl

theorem checkBranch_eq : checkBranch v.graph node = .ok (openWarnings v.graph node) := by
  have hports : ∀ port ∈ branchPorts node, checkPort v.graph node port.1 port.2 =
      .ok (if isOpen v.graph node port.1 then [unterminatedBranch node port.1 port.2] else []) := by
    intro port hport
    rw [checkPort, v.listsPort_eq hn hport, isOpen]
    cases isUsed v.graph node port.1 <;> cases isTerminated node port.1 <;> rfl
  rw [checkBranch, mapM_eq_ok_map hports, openWarnings]
  apply congrArg Except.ok
  induction branchPorts node with
  | nil => rfl
  | cons port rest ih =>
    rw [List.map_cons, List.flatten_cons, ih, List.filter_cons]
    split <;> rfl

omit hn in
theorem warnings_eq : v.warnings =
    checkReachability v.graph ++ v.graph.nodes.flatMap (openWarnings v.graph) := by
  obtain ⟨branches, hbranches, hwarnings⟩ := v.exists_warnings
  have heq : checkBranches v.graph = .ok (v.graph.nodes.flatMap (openWarnings v.graph)) := by
    rw [checkBranches, mapM_eq_ok_map fun node hn => v.checkBranch_eq hn]
    rfl
  rw [hwarnings, Except.ok.inj (hbranches.symm.trans heq)]

theorem count_unterminatedBranch {port : Text × Text} (hport : port ∈ branchPorts node) :
    v.warnings.count (unterminatedBranch node port.1 port.2) =
      if isOpen v.graph node port.1 then 1 else 0 := by
  have hreach : (checkReachability v.graph).count (unterminatedBranch node port.1 port.2) = 0 := by
    rw [List.count_eq_zero]
    intro hmem
    obtain ⟨other, -, -, heq⟩ := v.mem_checkReachability.mp hmem
    have hcodes : ("unterminated-branch" : Text) ≠ "unreachable-node" := by decide
    exact hcodes (congrArg Diagnostic.code heq)
  obtain ⟨before, after, hnodes⟩ := List.append_of_mem hn
  have hnodup := v.sound.nodes_nodup
  rw [hnodes, List.map_append, List.map_cons, List.nodup_middle, List.nodup_cons,
    ← List.map_append] at hnodup
  have hne : ∀ other ∈ before ++ after, other.id ≠ node.id := by
    intro other hother heq
    exact hnodup.1 (heq ▸ List.mem_map_of_mem hother)
  have hbefore := count_openWarnings_of_ne (g := v.graph)
    (fun other hother => hne other (List.mem_append_left _ hother)) port.1 port.2
  have hafter := count_openWarnings_of_ne (g := v.graph)
    (fun other hother => hne other (List.mem_append_right _ hother)) port.1 port.2
  have hown := (openWarnings_nodup v.graph node).count
    (a := unterminatedBranch node port.1 port.2)
  simp only [mem_openWarnings_iff hport] at hown
  rw [v.warnings_eq, List.count_append, hreach, hnodes, List.flatMap_append, List.flatMap_cons,
    List.count_append, List.count_append, hbefore, hafter, hown]
  omega

end Validated

end WorkflowCompiler
