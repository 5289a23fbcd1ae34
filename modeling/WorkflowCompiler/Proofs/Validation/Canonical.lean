import Mathlib
import WorkflowCompiler.Proofs.Graph.Canonical
import WorkflowCompiler.Validation.Basic

/-! # Validation up to layout and the order of members

The checks find the same in a graph and in its canonical form. A message shows a value only where
the value is a text or a number, so it never shows the order of members.
-/
namespace WorkflowCompiler.Validation

section Fields
variable (node : Node) (field : Field)

theorem isAbsent_canonical (v : Value) : isAbsent field v.canonical = isAbsent field v := by
  cases v <;> simp [isAbsent]

theorem isText_controlling (name expected : Text) :
    isText expected (controlling node.canonical name) =
      isText expected (controlling node name) := by
  unfold controlling
  rw [Node.config_canonical, Members.get_canonical]
  cases node.config.get name with
  | null => simp
  | bool _ | int _ | float _ | str _ | list _ | object _ => simp [isText]

theorem isRequired_canonical : isRequired node.canonical field = isRequired node field := by
  unfold isRequired
  cases field.requiredWhen with
  | none => rfl
  | some control => simp only [isText_controlling]

theorem NodeKind.type_of_choices (kind : NodeKind) :
    ∀ f ∈ kind.fields, f.choices.isEmpty ∨ f.type = .string := by
  cases kind <;> decide

theorem admits_canonical (type : FieldType) (v : Value) :
    type.admits v.canonical = type.admits v := by
  cases v <;> cases type <;> simp [FieldType.admits]

variable {field}

theorem problem?_canonical (hfield : field.choices.isEmpty ∨ field.type = .string) (v : Value) :
    problem? field v.canonical = problem? field v := by
  have hadmits := admits_canonical field.type v
  cases v with
  | null | bool _ | int _ | float _ | str _ => simp
  | list items =>
    rw [Value.canonical_list] at hadmits
    rcases hfield with hfield | hfield
    · simp only [problem?, hadmits, hfield, Value.canonical_list, Value.typeName, isBelow,
        Bool.not_true, Bool.false_and, Bool.false_eq_true, if_false]
    · simp [problem?, FieldType.admits, Value.typeName, hfield]
  | object ms =>
    rw [Value.canonical_object] at hadmits
    rcases hfield with hfield | hfield
    · simp only [problem?, hadmits, hfield, Value.canonical_object, Value.typeName, isBelow,
        Bool.not_true, Bool.false_and, Bool.false_eq_true, if_false]
    · simp [problem?, FieldType.admits, Value.typeName, hfield]

theorem checkField_canonical (hfield : field ∈ node.kind.fields) :
    checkField node.canonical field = checkField node field := by
  have hchoices := NodeKind.type_of_choices node.kind field hfield
  have hinvalid : invalidConfig node.canonical field = invalidConfig node field := by
    funext problem
    simp only [invalidConfig, Node.kind_canonical, Node.name_canonical, Node.id_canonical]
  simp only [checkField, Node.config_canonical, Members.get_canonical, isAbsent_canonical,
    isRequired_canonical, problem?_canonical hchoices, hinvalid, missingConfig, Node.kind_canonical,
    Node.name_canonical, Node.id_canonical]

theorem checkNode_canonical : checkNode node.canonical = checkNode node := by
  rw [checkNode, Node.kind_canonical,
    mapM_congr fun field hfield => checkField_canonical node hfield, checkNode]

end Fields

section Edges
variable (g : Graph) (e : Edge)

theorem checkOutput_canonical (source : Node) :
    checkOutput e source.canonical = checkOutput e source := by
  simp only [checkOutput, unnamedOutput, unknownOutput, Node.kind_canonical, Node.config_canonical,
    Node.name_canonical, Node.id_canonical, NodeKind.outputNames_canonical]

theorem checkInput_canonical (target : Node) :
    checkInput e target.canonical = checkInput e target := by
  simp only [checkInput, unknownInput, Node.kind_canonical, Node.name_canonical, Node.id_canonical]

theorem checkEdge_canonical : checkEdge g.canonical e = checkEdge g e := by
  simp only [checkEdge, Graph.node?_canonical]
  cases g.node? e.source with
  | none => cases g.node? e.target <;> rfl
  | some source =>
    cases g.node? e.target with
    | none => rfl
    | some target =>
      exact congrArg₂ (· ++ ·) (checkOutput_canonical e source) (checkInput_canonical e target)

theorem soundEdges_canonical : soundEdges g.canonical = soundEdges g := by
  simp only [soundEdges, checkEdge_canonical, Graph.edges_canonical]

end Edges

section Graphs
variable (g : Graph)

theorem checkReachability_canonical : checkReachability g.canonical = checkReachability g := by
  have hentries : g.canonical.entries.map (·.id) = g.entries.map (·.id) := g.entryIds_canonical
  have hfound : reached g.canonical = reached g := by
    rw [reached, soundEdges_canonical, hentries, reached]
  have hwarning : ∀ id, (g.canonical.node? id).map unreachableNode =
      (g.node? id).map unreachableNode := by
    intro id
    rw [Graph.node?_canonical, Option.map_map]
    congr 1
    funext node
    simp [unreachableNode]
  have hempty : g.canonical.nodes.isEmpty = g.nodes.isEmpty := List.isEmpty_map
  simp only [checkReachability, hfound, hwarning, hempty, Graph.nodeIds_canonical,
    Graph.entries_canonical, List.isEmpty_map]

theorem isLoop_canonical : isLoop g.canonical = isLoop g := by
  funext id
  rw [isLoop, Graph.node?_canonical, isLoop]
  cases g.node? id <;> rfl

theorem successors_canonical (edges : List Edge) :
    successors g.canonical edges = successors g edges := by
  rw [successors, Graph.nodeIds_canonical, successors]

theorem isLegal_canonical (edges : List Edge) (fuel : Nat) (members : List Text) :
    isLegal g.canonical edges fuel members = isLegal g edges fuel members := by
  induction fuel generalizing members with
  | zero => rfl
  | succ fuel ih => simp only [isLegal, isLoop_canonical, successors_canonical, ih]

theorem checkCycles_canonical : checkCycles g.canonical = checkCycles g := by
  have hillegal : illegalCycle g.canonical = illegalCycle g := by
    funext members
    have hname : ∀ id, (g.canonical.node? id).map (·.name) = (g.node? id).map (·.name) := by
      intro id
      rw [Graph.node?_canonical, Option.map_map]
      simp [Function.comp_def]
    simp only [illegalCycle, hname]
  have hlength : g.canonical.nodes.length = g.nodes.length := List.length_map _
  simp only [checkCycles, soundEdges_canonical, successors_canonical, isLegal_canonical, hillegal,
    hlength]

theorem listsPort_canonical (port : Text) (v : Value) :
    listsPort port v.canonical = listsPort port v := by
  cases v with
  | list items =>
    simp only [Value.canonical_list, listsPort, List.any_map, Function.comp_def,
      Value.str?_canonical]
  | object ms => simp [listsPort, Members.has_canonical]
  | null | bool _ | int _ | float _ | str _ => simp

theorem checkBranch_canonical (node : Node) :
    checkBranch g.canonical node.canonical = checkBranch g node := by
  have hports : branchPorts node.canonical = branchPorts node := by
    simp only [branchPorts, Node.kind_canonical, Node.config_canonical, routeLabels_canonical]
  have hwarning : ∀ port label, unterminatedBranch node.canonical port label =
      unterminatedBranch node port label := by
    intro port label
    rw [unterminatedBranch, Node.name_canonical, Node.kind_canonical, Node.id_canonical]
    rfl
  have hport : ∀ port label, checkPort g.canonical node.canonical port label =
      checkPort g node port label := by
    intro port label
    have hused : isUsed g.canonical node.canonical port = isUsed g node port := rfl
    rw [checkPort, hused, Node.config_canonical, Members.get_canonical, listsPort_canonical,
      hwarning, checkPort]
  simp only [checkBranch, hports, hport]

theorem validate_canonical : validate g.canonical = validate g := by
  have hidentity : checkIdentity g.canonical = checkIdentity g := by
    rw [checkIdentity, Graph.ids_canonical, checkIdentity, Graph.edges_canonical]
  have hnodes : g.canonical.nodes = g.nodes.map Node.canonical := rfl
  have hconfig : checkConfig g.canonical = checkConfig g := by
    have hnode : checkNode ∘ Node.canonical = checkNode := funext checkNode_canonical
    rw [checkConfig, hnodes, List.mapM_map, hnode, checkConfig]
  have hedges : checkEdges g.canonical = checkEdges g := by
    rw [checkEdges, funext (checkEdge_canonical g), Graph.edges_canonical, checkEdges]
  have hbranches : checkBranches g.canonical = checkBranches g := by
    have hnode : checkBranch g.canonical ∘ Node.canonical = checkBranch g :=
      funext (checkBranch_canonical g)
    rw [checkBranches, hnodes, List.mapM_map, hnode, checkBranches]
  simp only [validate, hidentity, hconfig, hedges, hbranches, checkReachability_canonical,
    checkCycles_canonical]

end Graphs

end WorkflowCompiler.Validation
