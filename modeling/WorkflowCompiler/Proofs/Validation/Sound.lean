import Mathlib
import WorkflowCompiler.Proofs.Fault
import WorkflowCompiler.Validation.Basic

/-! # What acceptance says about a graph

An accepted graph is sound: ids are unique, and every edge leaves a node by one of its output ports
and enters a node that has an input. Resolution relies on nothing else about ids and edges.
-/
namespace WorkflowCompiler

theorem nodup_eraseDups {α : Type*} [BEq α] [LawfulBEq α] (xs : List α) : xs.eraseDups.Nodup := by
  induction hn : xs.length using Nat.strong_induction_on generalizing xs with
  | h n ih =>
    cases xs with
    | nil => simp
    | cons x rest =>
      rw [List.eraseDups_cons, List.nodup_cons]
      have hlen := List.length_filter_le (fun b => !b == x) rest
      refine ⟨?_, ih _ (by simp only [List.length_cons] at hn; omega) _ rfl⟩
      simp [List.mem_eraseDups]

theorem eraseDups_of_nodup {α : Type*} [BEq α] [LawfulBEq α] {xs : List α} (h : xs.Nodup) :
    xs.eraseDups = xs := by
  induction xs with
  | nil => rfl
  | cons x rest ih =>
    obtain ⟨hx, hrest⟩ := List.nodup_cons.mp h
    have hkept : rest.filter (fun b => !b == x) = rest := by
      refine List.filter_eq_self.mpr fun b hb => ?_
      have hne : b ≠ x := fun heq => hx (heq ▸ hb)
      simpa using hne
    rw [List.eraseDups_cons, hkept, ih hrest]

namespace Graph

/-- Unique ids, and edges that attach at both ends. -/
structure Sound (g : Graph) : Prop where
  nodes_nodup : (g.nodes.map (·.id)).Nodup
  edges_nodup : (g.edges.map (·.id)).Nodup
  leaves : ∀ e ∈ g.edges, ∃ source port, g.node? e.source = some source ∧
    source.kind.effectivePort? e.sourcePort = some port ∧
    port ∈ source.kind.outputNames source.config
  enters : ∀ e ∈ g.edges, ∃ target, g.node? e.target = some target ∧ target.kind ≠ .input

theorem node?_eq_some {g : Graph} {id : Text} {node : Node} (h : g.node? id = some node) :
    node ∈ g.nodes ∧ node.id = id :=
  ⟨List.mem_of_find?_eq_some h, by simpa using List.find?_some h⟩

theorem node?_of_nodup {g : Graph} (hnodup : (g.nodes.map (·.id)).Nodup) {node : Node}
    (h : node ∈ g.nodes) : g.node? node.id = some node := by
  have hsome : (g.node? node.id).isSome := List.find?_isSome.mpr ⟨node, h, by simp⟩
  obtain ⟨found, hf⟩ := Option.isSome_iff_exists.mp hsome
  obtain ⟨hm, hid⟩ := node?_eq_some hf
  rw [hf, List.inj_on_of_nodup_map hnodup hm h hid]

theorem Sound.node?_id {g : Graph} (hg : g.Sound) {node : Node} (h : node ∈ g.nodes) :
    g.node? node.id = some node := node?_of_nodup hg.nodes_nodup h

/-- The nodes that can be entries: the inputs, or without any the nodes that no edge enters. -/
def starts (g : Graph) : List Node :=
  let inputs := g.nodes.filter (·.kind = .input)
  if inputs.isEmpty then g.nodes.filter fun n => (g.incoming n.id).isEmpty else inputs

def entryIds (g : Graph) : List Text := g.entries.map (·.id)

theorem entryIds_eq (g : Graph) :
    g.entryIds = Text.sort (g.starts.map (·.id)).eraseDups := by
  have hmap : ∀ ids : List Text, (∀ id ∈ ids, ∃ n ∈ g.starts, n.id = id) →
      (ids.filterMap fun id => g.starts.find? (·.id == id)).map (·.id) = ids := by
    intro ids hids
    induction ids with
    | nil => rfl
    | cons id rest ih =>
      obtain ⟨n, hn, hid⟩ := hids id List.mem_cons_self
      have hsome : (g.starts.find? (·.id == id)).isSome :=
        List.find?_isSome.mpr ⟨n, hn, by simpa using hid⟩
      obtain ⟨found, hf⟩ := Option.isSome_iff_exists.mp hsome
      have hfid : found.id = id := by simpa using List.find?_some hf
      have hrest := ih fun id h => hids id (List.mem_cons_of_mem _ h)
      simp only [List.filterMap_cons, hf, List.map_cons, hfid, hrest]
  apply hmap
  intro id hid
  have hm : id ∈ (g.starts.map (·.id)).eraseDups := (List.mergeSort_perm _ _).mem_iff.mp hid
  simpa using List.mem_eraseDups.mp hm

theorem entryIds_nodup (g : Graph) : g.entryIds.Nodup := by
  rw [entryIds_eq]
  exact (List.mergeSort_perm _ _).nodup_iff.mpr (nodup_eraseDups _)

theorem mem_entryIds {g : Graph} {id : Text} :
    id ∈ g.entryIds ↔ ∃ n ∈ g.starts, n.id = id := by
  rw [entryIds_eq, Text.sort, (List.mergeSort_perm _ _).mem_iff, List.mem_eraseDups, List.mem_map]

theorem starts_subset {g : Graph} {n : Node} (h : n ∈ g.starts) : n ∈ g.nodes := by
  simp only [starts] at h
  split at h
  · exact (List.mem_filter.mp h).1
  · exact (List.mem_filter.mp h).1

theorem Sound.not_enters_entry {g : Graph} (hg : g.Sound) {e : Edge} (he : e ∈ g.edges) :
    e.target ∉ g.entryIds := by
  intro hentry
  obtain ⟨n, hn, hid⟩ := mem_entryIds.mp hentry
  obtain ⟨target, htarget, hkind⟩ := hg.enters e he
  have hnode := hg.node?_id (starts_subset hn)
  rw [hid, htarget, Option.some.injEq] at hnode
  subst target
  simp only [starts] at hn
  split at hn
  · have hin : e ∈ g.incoming n.id := List.mem_filter.mpr ⟨he, by simp [hid]⟩
    have hempty := (List.mem_filter.mp hn).2
    simp only [List.isEmpty_iff] at hempty
    rw [hempty] at hin
    exact absurd hin List.not_mem_nil
  · exact hkind (by simpa using (List.mem_filter.mp hn).2)

theorem entry_node {g : Graph} (hg : g.Sound) {id : Text} (h : id ∈ g.entryIds) :
    ∃ node, g.node? id = some node := by
  obtain ⟨n, hn, hid⟩ := mem_entryIds.mp h
  exact ⟨n, hid ▸ hg.node?_id (starts_subset hn)⟩

end Graph

namespace Validation

theorem repeated_eq_nil {seen ids : List Text} (h : repeated seen ids = []) :
    ids.Nodup ∧ ∀ id ∈ ids, id ∉ seen := by
  induction ids generalizing seen with
  | nil => simp
  | cons id rest ih =>
    rw [repeated] at h
    split at h
    · exact absurd h (List.cons_ne_nil _ _)
    next hc =>
      obtain ⟨hnodup, hseen⟩ := ih h
      have hid : id ∉ rest := fun hm => hseen id hm List.mem_cons_self
      refine ⟨List.nodup_cons.mpr ⟨hid, hnodup⟩, ?_⟩
      intro x hx
      rcases List.mem_cons.mp hx with rfl | hx
      · simpa using hc
      · exact fun hs => hseen x hx (List.mem_cons_of_mem _ hs)

theorem repeated_of_nodup {seen ids : List Text} (hnodup : ids.Nodup)
    (hseen : ∀ id ∈ ids, id ∉ seen) : repeated seen ids = [] := by
  induction ids generalizing seen with
  | nil => rfl
  | cons id rest ih =>
    obtain ⟨hid, hrest⟩ := List.nodup_cons.mp hnodup
    have hnew : seen.contains id = false := by
      simpa using hseen id List.mem_cons_self
    rw [repeated, hnew]
    refine ih hrest fun x hx => ?_
    rw [List.mem_cons, not_or]
    exact ⟨fun heq => hid (heq ▸ hx), hseen x (List.mem_cons_of_mem _ hx)⟩

theorem findings_of_validate {g : Graph} {ds : List Diagnostic} (h : validate g = .ok ds) :
    ∃ config branches, checkConfig g = .ok config ∧ checkBranches g = .ok branches ∧
      ds = checkIdentity g ++ config ++ checkEdges g ++ checkReachability g ++ checkCycles g
        ++ branches := by
  obtain ⟨config, hconfig, h⟩ := exists_of_bind_eq_ok h
  obtain ⟨branches, hbranches, h⟩ := exists_of_bind_eq_ok h
  cases h
  exact ⟨config, branches, hconfig, hbranches, rfl⟩

/-- A graph in which the checks for errors find nothing gets the warnings only. -/
theorem validate_eq_warnings {g : Graph} (hidentity : checkIdentity g = [])
    (hconfig : checkConfig g = .ok []) (hedges : checkEdges g = []) (hcycles : checkCycles g = [])
    {branches : List Diagnostic} (hbranches : checkBranches g = .ok branches) :
    validate g = .ok (checkReachability g ++ branches) := by
  rw [validate, hidentity, hconfig, hedges, hcycles, hbranches, ok_bind, ok_bind,
    List.nil_append, List.append_nil, List.append_nil, List.nil_append]
  rfl

theorem validate_eq_nil {g : Graph} (hidentity : checkIdentity g = [])
    (hconfig : checkConfig g = .ok []) (hedges : checkEdges g = []) (hreach : checkReachability g = []) (hcycles : checkCycles g = [])
    (hbranches : checkBranches g = .ok []) : validate g = .ok [] := by
  rw [validate_eq_warnings hidentity hconfig hedges hcycles hbranches, hreach]
  rfl

theorem checkEdge_isError {g : Graph} {e : Edge} {d : Diagnostic} (h : d ∈ checkEdge g e) :
    d.isError = true := by
  simp only [checkEdge, checkOutput, checkInput] at h
  split at h
  · rcases List.mem_append.mp h with h | h
    · split at h
      · rw [List.mem_singleton.mp h]
        rfl
      · split at h
        · exact absurd h List.not_mem_nil
        · rw [List.mem_singleton.mp h]
          rfl
    · split at h
      · exact absurd h List.not_mem_nil
      · rw [List.mem_singleton.mp h]
        rfl
  · rcases List.mem_append.mp h with h | h <;> split at h
    all_goals first
      | exact absurd h List.not_mem_nil
      | rw [List.mem_singleton.mp h]; rfl

/-- The check of a field says that it is missing, or what is wrong with its value. -/
theorem checkField_eq_some {node : Node} {field : Field} {d : Diagnostic}
    (h : checkField node field = .ok (some d)) :
    d = missingConfig node field ∨ ∃ problem, d = invalidConfig node field problem := by
  simp only [checkField] at h
  split at h
  · split at h
    · cases h
      exact .inl rfl
    · cases h
  · obtain ⟨problem, _, h⟩ := map_eq_ok h
    obtain ⟨text, _, rfl⟩ := Option.map_eq_some_iff.mp h
    exact .inr ⟨text, rfl⟩

theorem checkField_isError {node : Node} {field : Field} {d : Diagnostic}
    (h : checkField node field = .ok (some d)) : d.isError = true := by
  rcases checkField_eq_some h with rfl | ⟨_, rfl⟩ <;> rfl

/-- The check of the configurations finds what the checks of the fields find. -/
theorem mem_of_checkConfig {g : Graph} {config : List Diagnostic} (h : checkConfig g = .ok config)
    {d : Diagnostic} : d ∈ config ↔
      ∃ node ∈ g.nodes, ∃ field ∈ node.kind.fields, checkField node field = .ok (some d) := by
  obtain ⟨found, hfound, rfl⟩ := map_eq_ok h
  rw [List.mem_flatten]
  constructor
  · rintro ⟨ofNode, hmem, hd⟩
    obtain ⟨node, hnode, hcheck⟩ := mem_of_mapM_ok hfound hmem
    obtain ⟨ofFields, hfields, rfl⟩ := map_eq_ok hcheck
    obtain ⟨ofField, hmem, rfl⟩ := List.mem_filterMap.mp hd
    obtain ⟨field, hfield, hcheck⟩ := mem_of_mapM_ok hfields hmem
    exact ⟨node, hnode, field, hfield, hcheck⟩
  · rintro ⟨node, hnode, field, hfield, hcheck⟩
    obtain ⟨ofNode, hmem, hof⟩ := exists_of_forall₂ (mapM_eq_ok_iff.mp hfound).flip hnode
    obtain ⟨ofFields, hfields, rfl⟩ := map_eq_ok hof
    obtain ⟨ofField, hmem', hof⟩ := exists_of_forall₂ (mapM_eq_ok_iff.mp hfields).flip hfield
    cases hcheck.symm.trans hof
    exact ⟨_, hmem, List.mem_filterMap.mpr ⟨_, hmem', rfl⟩⟩

theorem exists_checkField {g : Graph} {config : List Diagnostic} (h : checkConfig g = .ok config)
    {node : Node} (hn : node ∈ g.nodes) {field : Field} (hf : field ∈ node.kind.fields) :
    ∃ found, checkField node field = .ok found := by
  obtain ⟨ofNode, hof⟩ := exists_mapM_ok_iff.mp (exists_map_ok_iff.mp ⟨_, h⟩) node hn
  exact exists_mapM_ok_iff.mp (exists_map_ok_iff.mp ⟨_, hof⟩) field hf

theorem checkNode_eq_nil_iff {node : Node} :
    checkNode node = .ok [] ↔ ∀ field ∈ node.kind.fields, checkField node field = .ok none := by
  constructor
  · intro h field hfield
    obtain ⟨found, hfound, hnil⟩ := map_eq_ok h
    obtain ⟨ofField, hmem, hof⟩ := exists_of_forall₂ (mapM_eq_ok_iff.mp hfound).flip hfield
    rw [hof, show ofField = none from List.filterMap_eq_nil_iff.mp hnil ofField hmem]
  · intro h
    rw [checkNode, mapM_eq_ok_map h]
    simp [Except.map]

theorem checkConfig_eq_nil_iff {g : Graph} :
    checkConfig g = .ok [] ↔ ∀ node ∈ g.nodes, checkNode node = .ok [] := by
  constructor
  · intro h node hnode
    obtain ⟨found, hfound, hnil⟩ := map_eq_ok h
    obtain ⟨ofNode, hmem, hof⟩ := exists_of_forall₂ (mapM_eq_ok_iff.mp hfound).flip hnode
    rw [hof, List.flatten_eq_nil_iff.mp hnil ofNode hmem]
  · intro h
    rw [checkConfig, mapM_eq_ok_map h]
    simp [Except.map]

theorem eq_nil_of_isError {ds : List Diagnostic} (hall : ∀ d ∈ ds, d.isError = true)
    (hnone : ∀ d ∈ ds, d.isError = false) : ds = [] := by
  cases ds with
  | nil => rfl
  | cons d rest => simpa [hnone d List.mem_cons_self] using hall d List.mem_cons_self

end Validation

theorem judge_graph (v : Validated) : judge v.graph = .ok (.accepted v) := by
  obtain ⟨g, warnings, accepted, clean⟩ := v
  simp only [judge]
  split
  next fault h =>
    rw [accepted] at h
    cases h
  next ds h =>
    obtain rfl : ds = warnings := by
      rw [accepted] at h
      exact (Except.ok.inj h).symm
    rw [dif_pos clean]

namespace Validated
open Validation

theorem isError_of_mem (v : Validated) {d : Diagnostic} (h : d ∈ v.warnings) :
    d.isError = false := by
  simpa using List.any_eq_false.mp v.clean d h

theorem not_isError (v : Validated) {d : Diagnostic}
    (h : d ∈ checkIdentity v.graph ++ checkEdges v.graph ++ checkReachability v.graph
      ++ checkCycles v.graph) : d.isError = false := by
  obtain ⟨config, branches, _, _, hfindings⟩ := findings_of_validate v.accepted
  refine v.isError_of_mem ?_
  simp only [List.mem_append] at h
  rw [hfindings]
  simp only [List.mem_append]
  tauto

theorem checkIdentity_eq_nil (v : Validated) : checkIdentity v.graph = [] := by
  apply eq_nil_of_isError
  · intro d hd
    simp only [checkIdentity, List.mem_append, List.mem_map] at hd
    rcases hd with ⟨_, _, rfl⟩ | ⟨_, _, rfl⟩ <;> rfl
  · intro d hd
    exact v.not_isError (by simp [hd])

theorem checkConfig_eq_nil (v : Validated) : checkConfig v.graph = .ok [] := by
  obtain ⟨config, branches, hconfig, _, hfindings⟩ := findings_of_validate v.accepted
  have hnone : config = [] := by
    apply eq_nil_of_isError
    · intro d hd
      obtain ⟨_, _, _, _, hcheck⟩ := (mem_of_checkConfig hconfig).mp hd
      exact checkField_isError hcheck
    · intro d hd
      exact v.isError_of_mem (by simp [hfindings, hd])
  rw [hconfig, hnone]

theorem checkEdge_eq_nil (v : Validated) {e : Edge} (he : e ∈ v.graph.edges) :
    checkEdge v.graph e = [] := by
  apply eq_nil_of_isError (fun d => checkEdge_isError)
  intro d hd
  have hm : d ∈ checkEdges v.graph := List.mem_flatMap.mpr ⟨e, he, hd⟩
  exact v.not_isError (by simp [hm])

theorem sound (v : Validated) : v.graph.Sound := by
  have hid := v.checkIdentity_eq_nil
  simp only [checkIdentity, List.append_eq_nil_iff, List.map_eq_nil_iff] at hid
  have hedge : ∀ e ∈ v.graph.edges, ∃ source target, v.graph.node? e.source = some source ∧
      v.graph.node? e.target = some target ∧ checkOutput e source = [] ∧
      checkInput e target = [] := by
    intro e he
    have h := v.checkEdge_eq_nil he
    simp only [checkEdge] at h
    split at h
    next source target hs ht =>
      simp only [List.append_eq_nil_iff] at h
      exact ⟨source, target, hs, ht, h.1, h.2⟩
    next hno =>
      simp only [List.append_eq_nil_iff, ite_eq_right_iff, List.cons_ne_nil, imp_false,
        Option.isNone_iff_eq_none] at h
      obtain ⟨source, hs⟩ := Option.ne_none_iff_exists'.mp h.1
      obtain ⟨target, ht⟩ := Option.ne_none_iff_exists'.mp h.2
      exact absurd ht (hno source target hs)
  refine ⟨(repeated_eq_nil hid.1).1, (repeated_eq_nil hid.2).1, ?_, ?_⟩
  · intro e he
    obtain ⟨source, _, hs, _, hout, _⟩ := hedge e he
    simp only [checkOutput] at hout
    split at hout
    · exact absurd hout (List.cons_ne_nil _ _)
    next port hport =>
      refine ⟨source, port, hs, hport, ?_⟩
      split at hout
      next hc => simpa using hc
      · exact absurd hout (List.cons_ne_nil _ _)
  · intro e he
    obtain ⟨_, target, _, ht, _, hin⟩ := hedge e he
    refine ⟨target, ht, ?_⟩
    intro hkind
    simp [checkInput, NodeKind.inputNames, NodeKind.inputs, hkind] at hin

end Validated

end WorkflowCompiler
