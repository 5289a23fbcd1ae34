import Mathlib
import WorkflowCompiler.Proofs.Validation.Settings
import WorkflowCompiler.Proofs.Value.Canonical
import WorkflowCompiler.Proofs.Value.Members
import WorkflowCompiler.Resolution.Facts

/-! # Graphs up to layout and the order of members

The canonical form of a node has no position and a configuration in canonical form. What a kind
makes of its configuration is the same for both, and so is what resolution asks of a graph.
-/
namespace WorkflowCompiler

theorem Value.isNull_canonical (v : Value) : v.canonical.isNull = v.isNull := by
  cases v <;> simp [Value.isNull]

theorem Value.str?_canonical (v : Value) : v.canonical.str? = v.str? := by
  cases v <;> simp [Value.str?]

theorem Value.isGiven_canonical (v : Value) : v.canonical.isGiven = v.isGiven := by
  cases v with
  | object ms =>
    have hlength : (Members.canonical ms).length = ms.length := by
      rw [Members.canonical_eq, List.length_mergeSort, List.length_map]
    cases ms with
    | nil => simp [Value.isGiven, List.length_eq_zero_iff.mp hlength]
    | cons m rest =>
      have hne : Members.canonical (m :: rest) ≠ [] := by
        intro hnil
        simp [hnil] at hlength
      simp [Value.isGiven, hne]
  | list items => simp [Value.isGiven, List.isEmpty_map]
  | null | bool _ | int _ | float _ | str _ => simp

/-- A value without members. -/
def Value.isPlain : Value → Bool
  | .object _ | .list (_ :: _) => false
  | _ => true

theorem Value.canonical_of_isPlain {v : Value} (h : v.isPlain) : v.canonical = v := by
  unfold Value.isPlain at h
  split at h
  · cases h
  · cases h
  next hobject hlist =>
    cases v with
    | object ms => exact absurd rfl (hobject ms)
    | list items =>
      cases items with
      | nil => simp
      | cons v rest => exact absurd rfl (hlist v rest)
    | null | bool _ | int _ | float _ | str _ => simp

theorem NodeKind.isPlain_default (kind : NodeKind) : ∀ f ∈ kind.fields, f.default.isPlain := by
  cases kind <;> decide

/-- One configuration has what the other has, in canonical form. -/
def Members.Mirrors (ms ns : Members) : Prop :=
  ∀ name, ms.get? name = (ns.get? name).map Value.canonical

theorem Members.mirrors_canonical (ms : Members) : ms.canonical.Mirrors ms := ms.get?_canonical

theorem Members.Mirrors.get {ms ns : Members} (h : ms.Mirrors ns) (name : Text) :
    ms.get name = (ns.get name).canonical := by
  rw [Members.get, h name, Members.get]
  cases ns.get? name with
  | none => simp
  | some v => rfl

theorem Members.Mirrors.fill {ms ns : Members} (h : ms.Mirrors ns) {field : Field}
    (hdefault : field.default.isPlain) : (field.fill ms).Mirrors (field.fill ns) := by
  intro name
  unfold Field.fill
  rw [h.get, Value.isNull_canonical]
  split
  · rw [Members.get?_put, Members.get?_put]
    split
    · rw [Option.map_some, Value.canonical_of_isPlain hdefault]
    · exact h name
  · exact h name

theorem Members.Mirrors.foldl_fill {ms ns : Members} (h : ms.Mirrors ns) {fields : List Field}
    (hdefault : ∀ f ∈ fields, f.default.isPlain) :
    (fields.foldl Field.fill ms).Mirrors (fields.foldl Field.fill ns) := by
  induction fields generalizing ms ns with
  | nil => exact h
  | cons f rest ih =>
    exact ih (h.fill (hdefault f List.mem_cons_self))
      fun x hx => hdefault x (List.mem_cons_of_mem _ hx)

/-- A node without its position, and with its configuration in canonical form. -/
def Node.canonical (node : Node) : Node :=
  { id := node.id, kind := node.kind, config := node.config.canonical }

namespace Node

@[simp] theorem id_canonical (node : Node) : node.canonical.id = node.id := rfl

@[simp] theorem kind_canonical (node : Node) : node.canonical.kind = node.kind := rfl

@[simp] theorem config_canonical (node : Node) :
    node.canonical.config = node.config.canonical := rfl

@[simp] theorem name_canonical (node : Node) : node.canonical.name = node.name := by
  unfold Node.name
  rw [config_canonical, Members.get_canonical]
  cases node.config.get "name" <;> simp

theorem mirrors_settings (node : Node) : node.canonical.settings.Mirrors node.settings :=
  node.config.mirrors_canonical.foldl_fill node.kind.isPlain_default

end Node

theorem countOr_canonical (fallback : Nat) (v : Value) :
    countOr fallback v.canonical = countOr fallback v := by
  cases v <;> simp [countOr]

theorem routeLabel_canonical (port : Text) (rule : Option Value) :
    routeLabel port (rule.map Value.canonical) = routeLabel port rule := by
  cases rule with
  | none => rfl
  | some v =>
    cases v with
    | object ms =>
      simp only [Option.map_some, Value.canonical_object, routeLabel, Members.get_canonical]
      cases Members.get ms "condition" <;> simp
    | null | bool _ | int _ | float _ | str _ | list _ => simp [routeLabel]

theorem routeLabels_canonical (config : Members) :
    routeLabels config.canonical = routeLabels config := by
  unfold routeLabels
  simp only [Members.get_canonical, countOr_canonical]
  cases config.get "routingRules" with
  | list rules =>
    simp only [Value.canonical_list, List.isEmpty_map, List.length_map, List.getElem?_map,
      routeLabel_canonical]
  | null | bool _ | int _ | float _ | str _ | object _ => simp

theorem NodeKind.outputs_canonical (kind : NodeKind) (config : Members) :
    kind.outputs config.canonical = kind.outputs config := by
  cases kind <;> simp only [NodeKind.outputs, Members.get_canonical, countOr_canonical,
    routeLabels_canonical]

theorem NodeKind.outputNames_canonical (kind : NodeKind) (config : Members) :
    kind.outputNames config.canonical = kind.outputNames config := by
  rw [NodeKind.outputNames, NodeKind.outputs_canonical, NodeKind.outputNames]

namespace Graph

def canonical (g : Graph) : Graph := { nodes := g.nodes.map Node.canonical, edges := g.edges }

@[simp] theorem edges_canonical (g : Graph) : g.canonical.edges = g.edges := rfl

@[simp] theorem size_canonical (g : Graph) : g.canonical.size = g.size := List.length_map _

theorem ids_canonical (g : Graph) : g.canonical.nodes.map (·.id) = g.nodes.map (·.id) := by
  simp [canonical, Function.comp_def]

@[simp] theorem nodeIds_canonical (g : Graph) : g.canonical.nodeIds = g.nodeIds := by
  rw [nodeIds, ids_canonical, nodeIds]

theorem find?_canonical (nodes : List Node) (id : Text) :
    (nodes.map Node.canonical).find? (·.id == id) =
      (nodes.find? (·.id == id)).map Node.canonical := by
  rw [List.find?_map]
  rfl

@[simp] theorem node?_canonical (g : Graph) (id : Text) :
    g.canonical.node? id = (g.node? id).map Node.canonical := find?_canonical g.nodes id

theorem filter_kind_canonical (g : Graph) (kind : NodeKind) :
    g.canonical.nodes.filter (·.kind = kind) =
      (g.nodes.filter (·.kind = kind)).map Node.canonical := by
  rw [canonical, List.filter_map]
  rfl

theorem starts_canonical (g : Graph) : g.canonical.starts = g.starts.map Node.canonical := by
  simp only [starts, filter_kind_canonical, List.isEmpty_map]
  split
  · rw [canonical, List.filter_map]
    rfl
  · rfl

theorem entries_canonical (g : Graph) : g.canonical.entries = g.entries.map Node.canonical := by
  have hentries : ∀ h : Graph, h.entries = (Text.sort (h.starts.map (·.id)).eraseDups).filterMap
      fun id => h.starts.find? (·.id == id) := fun _ => rfl
  rw [hentries, hentries, starts_canonical, List.map_map]
  simp only [find?_canonical, List.map_filterMap]
  rfl

@[simp] theorem entryIds_canonical (g : Graph) : g.canonical.entryIds = g.entryIds := by
  rw [entryIds, entries_canonical, List.map_map]
  rfl

@[simp] theorem merges_canonical (g : Graph) : g.canonical.merges = g.merges := by
  have hback : g.canonical.backEdges = g.backEdges := by
    simp only [backEdges, filter_kind_canonical, List.flatMap_map, Node.id_canonical, incoming,
      edges_canonical]
  have hentries : g.canonical.entries.map (·.id) = g.entries.map (·.id) := entryIds_canonical g
  have hforward : g.canonical.forwardEdges = g.forwardEdges := by
    simp only [forwardEdges, hback, hentries, edges_canonical]
  rw [merges, hforward, merges]

end Graph

end WorkflowCompiler
