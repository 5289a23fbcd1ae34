import Mathlib
import WorkflowCompiler.Proofs.Document.Grammar
import WorkflowCompiler.Proofs.Value.Equal

/-! # Saving a workflow and loading it again

A saved node carries its configuration beside its id and kind, and on loading the members that are
bookkeeping are left out of the configuration. So a workflow comes back as it was exactly when no
configuration holds a member with such a name. Only the `data` member of a node can bring one in.
-/
namespace WorkflowCompiler

/-- Nodes with one id and kind whose configurations and positions are equal. -/
structure Node.Equal (n n' : Node) : Prop where
  id : n.id = n'.id
  kind : n.kind = n'.kind
  config : Value.equal (.object n.config) (.object n'.config) = true
  position : Option.Rel (fun p q => Decimal.equal p.1 q.1 = true ∧ Decimal.equal p.2 q.2 = true)
    n.position n'.position

/-- Workflows of one name with equal nodes and the same edges, in order. -/
structure Workflow.Equal (w w' : Workflow) : Prop where
  name : w.name = w'.name
  nodes : List.Forall₂ Node.Equal w.graph.nodes w'.graph.nodes
  edges : w.graph.edges = w'.graph.edges

theorem Node.equal_self {n : Node} (h : Value.distinct (.object n.config) = true) : n.Equal n where
  id := rfl
  kind := rfl
  config := Value.equal_self _ h
  position := by
    cases n.position with
    | none => exact .none
    | some p => exact .some ⟨Decimal.equal_refl _, Decimal.equal_refl _⟩

namespace Document

/-! ## Configurations -/

/-- A label serves as the name where none is given. -/
def nameByLabel (config : Members) : Members :=
  match (config.get "name").isGiven, config.get "label" with
  | false, .str label => config.put "name" (.str label)
  | _, _ => config

theorem configOf_eq (spec data : Members) : configOf spec data =
    nameByLabel (Members.merge (spec.filter fun m => !metaKeys.contains m.1) data) := rfl

theorem nameByLabel_eq (config : Members) : nameByLabel config = config ∨
    ∃ label, config.get "label" = .str label ∧
      nameByLabel config = config.put "name" (.str label) := by
  unfold nameByLabel
  split
  next label _ hlabel => exact Or.inr ⟨label, hlabel, rfl⟩
  next => exact Or.inl rfl

theorem nameByLabel_nameByLabel (config : Members) :
    nameByLabel (nameByLabel config) = nameByLabel config := by
  rcases nameByLabel_eq config with h | ⟨label, hlabel, h⟩
  · rw [h, h]
  · have hname : (nameByLabel config).get? "name" = some (.str label) := by
      rw [h, Members.get?_put, if_pos rfl]
    have hlabel' : (nameByLabel config).get "label" = .str label := by
      rw [h, Members.get, Members.get?_put, if_neg (by decide), ← Members.get, hlabel]
    rcases nameByLabel_eq (nameByLabel config) with h' | ⟨label', hput, h'⟩
    · exact h'
    · cases hlabel'.symm.trans hput
      rw [h', Members.put_of_get? hname]

theorem mem_nameByLabel {config : Members} {m : Text × Value} (h : m ∈ nameByLabel config) :
    m ∈ config ∨ ∃ label, m.2 = .str label := by
  rcases nameByLabel_eq config with heq | ⟨label, -, heq⟩
  · exact Or.inl (heq ▸ h)
  · rw [heq] at h
    refine (Members.mem_put h).imp_right ?_
    rintro rfl
    exact ⟨label, rfl⟩

theorem nodup_nameByLabel {config : Members} (h : config.names.Nodup) :
    (nameByLabel config).names.Nodup := by
  rcases nameByLabel_eq config with heq | ⟨label, -, heq⟩
  · rwa [heq]
  · rw [heq]
    exact Members.nodup_put h _ _

/-- A configuration has no repeated names if the members it comes from have none. -/
theorem distinct_configOf {spec data : Members} (hspec : Value.distinct (.object spec) = true)
    (hdata : Value.distinct (.object data) = true) :
    Value.distinct (.object (configOf spec data)) = true := by
  obtain ⟨hnames, hspec⟩ := Value.distinct_object_iff.mp hspec
  have hdata := (Value.distinct_object_iff.mp hdata).2
  have hown : (Members.names (spec.filter fun m => !metaKeys.contains m.1)).Nodup :=
    hnames.sublist (List.filter_sublist.map _)
  rw [configOf_eq]
  refine Value.distinct_object_iff.mpr
    ⟨nodup_nameByLabel (Members.nodup_merge hown data), fun m hm => ?_⟩
  rcases mem_nameByLabel hm with hm | ⟨label, hlabel⟩
  · rcases Members.mem_merge hm with hm | hm
    · exact hspec m (List.mem_of_mem_filter hm)
    · exact hdata m hm
  · rw [hlabel]
    rfl

theorem get?_configOf {spec data : Members} (hdata : data.names.Nodup) {key : Text}
    (hkey : key ∈ metaKeys) : (configOf spec data).get? key = data.get? key := by
  have hown : Members.get? (spec.filter fun m => !metaKeys.contains m.1) key = none := by
    cases hget : Members.get? (spec.filter fun m => !metaKeys.contains m.1) key with
    | none => rfl
    | some v =>
      have hmem := (List.mem_filter.mp (Members.mem_of_get? hget)).2
      simp [hkey] at hmem
  have hmerged : (Members.merge (spec.filter fun m => !metaKeys.contains m.1) data).get? key =
      data.get? key := by rw [Members.get?_merge hdata, hown, Option.or_none]
  have hname : key ≠ "name" := by
    rintro rfl
    exact absurd hkey (by decide)
  rw [configOf_eq]
  rcases nameByLabel_eq (Members.merge (spec.filter fun m => !metaKeys.contains m.1) data) with
    heq | ⟨label, -, heq⟩
  · rw [heq, hmerged]
  · rw [heq, Members.get?_put, if_neg hname, hmerged]

/-! ## Nodes -/

/-- The configuration of a node is read from its members and from those under `data`. -/
theorem NodeOf.exists_config {spec : Members} {node : Node} (h : NodeOf spec node) :
    ∃ data, node.config = configOf spec data ∧
      (data = [] ∨ spec.get? "data" = some (.object data)) := by
  obtain ⟨data, hdata, hconfig⟩ := h.config
  refine ⟨data, hconfig, hdata.imp And.right fun hget => ?_⟩
  exact Members.get?_of_get hget (by simp)

theorem NodeOf.unique {spec : Members} {node node' : Node} (h : NodeOf spec node)
    (h' : NodeOf spec node') : node = node' := by
  have hkind : node.kind = node'.kind := by
    have hwire := Value.str.inj (h.kind.symm.trans h'.kind)
    have hsome := node.kind.ofWire?_wireName
    rw [hwire, node'.kind.ofWire?_wireName] at hsome
    exact (Option.some.inj hsome).symm
  have hconfig : node.config = node'.config := by
    obtain ⟨data, hdata, hconfig⟩ := h.config
    obtain ⟨data', hdata', hconfig'⟩ := h'.config
    have heq : data = data' := by
      rcases hdata with ⟨hget, hnil⟩ | hget
      · rcases hdata' with ⟨-, hnil'⟩ | hget'
        · exact hnil.trans hnil'.symm
        · cases hget.symm.trans hget'
      · rcases hdata' with ⟨hget', -⟩ | hget'
        · cases hget.symm.trans hget'
        · exact Value.object.inj (hget.symm.trans hget')
    rw [hconfig, hconfig', heq]
  have hposition : node.position = node'.position := by
    rcases h.position with ⟨hget, hnone⟩ | ⟨p, x, y, hget, hx, hy, hsome⟩
    · rcases h'.position with ⟨-, hnone'⟩ | ⟨p', _, _, hget', -⟩
      · rw [hnone, hnone']
      · cases hget.symm.trans hget'
    · rcases h'.position with ⟨hget', -⟩ | ⟨p', x', y', hget', hx', hy', hsome'⟩
      · cases hget.symm.trans hget'
      · cases hget.symm.trans hget'
        cases hx.symm.trans hx'
        cases hy.symm.trans hy'
        rw [hsome, hsome']
  obtain ⟨id, kind, config, position⟩ := node
  cases node'
  cases Value.str.inj (h.id.symm.trans h'.id)
  cases hkind
  cases hconfig
  cases hposition
  rfl

theorem mem_metaKeys_of_frame {node : Node} {name : Text} (h : name ∈ (frame node).names) :
    name ∈ metaKeys := by
  have hnames : (frame node).names ⊆ ["id", "type", "position"] := by
    unfold frame
    cases node.position with
    | none => simp [Members.names]
    | some p => simp [Members.names]
  have hmeta : ∀ key ∈ (["id", "type", "position"] : List Text), key ∈ metaKeys := by decide
  exact hmeta name (hnames h)

theorem get?_frame_data (node : Node) : (frame node).get? "data" = none := by
  unfold frame
  cases node.position with
  | none => rfl
  | some p => rfl

section Saved
variable {node : Node}

theorem saveNode_eq_append (hnames : node.config.names.Nodup)
    (hplain : ∀ key ∈ metaKeys, node.config.get? key = none) :
    saveNode node = .object (frame node ++ node.config) := by
  rw [saveNode, Members.merge_eq_append hnames]
  intro name hname hframe
  obtain ⟨m, hm, rfl⟩ := List.mem_map.mp hname
  cases (Members.get?_of_mem hnames hm).symm.trans (hplain _ (mem_metaKeys_of_frame hframe))

theorem filter_saved (hnames : node.config.names.Nodup)
    (hplain : ∀ key ∈ metaKeys, node.config.get? key = none) :
    (frame node ++ node.config).filter (fun m => !metaKeys.contains m.1) = node.config := by
  have hframe : (frame node).filter (fun m => !metaKeys.contains m.1) = [] := by
    refine List.filter_eq_nil_iff.mpr fun m hm => ?_
    simpa using mem_metaKeys_of_frame (List.mem_map_of_mem hm)
  have hconfig : node.config.filter (fun m => !metaKeys.contains m.1) = node.config := by
    refine List.filter_eq_self.mpr fun m hm => ?_
    have hkey : m.1 ∉ metaKeys := by
      intro hkey
      cases (Members.get?_of_mem hnames hm).symm.trans (hplain _ hkey)
    simpa using hkey
  rw [List.filter_append, hframe, hconfig, List.nil_append]

theorem get_saved (hplain : ∀ key ∈ metaKeys, node.config.get? key = none) {key : Text}
    (hkey : key ∈ metaKeys) : Members.get (frame node ++ node.config) key = (frame node).get key := by
  rw [Members.get, Members.get?_append, hplain key hkey, Option.or_none]
  rfl

theorem get_saved_position (hplain : ∀ key ∈ metaKeys, node.config.get? key = none) :
    Members.get (frame node ++ node.config) "position" =
      node.position.elim .null fun p => .object [("x", .float p.1), ("y", .float p.2)] := by
  rw [get_saved hplain (by decide)]
  unfold frame
  cases node.position with
  | none => rfl
  | some p => rfl

/-- A node without bookkeeping in its configuration is saved in the right shape. -/
theorem nodeShape_saved (hid : node.id ≠ [])
    (hplain : ∀ key ∈ metaKeys, node.config.get? key = none) :
    NodeShape (frame node ++ node.config) where
  id := ⟨node.id, get_saved hplain (by decide), hid⟩
  kind := ⟨node.kind, get_saved hplain (by decide)⟩
  data := by
    rw [get_saved hplain (by decide), Members.get, get?_frame_data]
    exact Or.inl rfl
  position := by
    rw [get_saved_position hplain]
    cases node.position with
    | none => exact Or.inl rfl
    | some p => exact Or.inr ⟨_, rfl, Or.inr ⟨p.1, rfl⟩, Or.inr ⟨p.2, rfl⟩⟩

theorem nodeOf_saved (hnames : node.config.names.Nodup)
    (hplain : ∀ key ∈ metaKeys, node.config.get? key = none)
    (hlabel : nameByLabel node.config = node.config) :
    NodeOf (frame node ++ node.config) node where
  id := get_saved hplain (by decide)
  kind := get_saved hplain (by decide)
  config := by
    refine ⟨[], Or.inl ⟨?_, rfl⟩, ?_⟩
    · rw [get_saved hplain (by decide), Members.get, get?_frame_data]
      rfl
    · rw [configOf_eq, filter_saved hnames hplain]
      exact hlabel.symm
  position := by
    rw [get_saved_position hplain]
    cases node.position with
    | none => exact Or.inl ⟨rfl, rfl⟩
    | some p => exact Or.inr ⟨_, p.1, p.2, rfl, rfl, rfl, rfl⟩

theorem not_far_saved (hplain : ∀ key ∈ metaKeys, node.config.get? key = none) :
    ¬Far (frame node ++ node.config) := by
  rintro ⟨p, hp, hfar⟩
  rw [get_saved_position hplain] at hp
  cases hposition : node.position with
  | none => simp [hposition] at hp
  | some q =>
    simp only [hposition, Option.elim, Value.object.injEq] at hp
    subst hp
    rcases hfar with ⟨n, hn, -⟩ | ⟨n, hn, -⟩ <;> cases hn

/-- A node without bookkeeping in its configuration is read as it was saved. -/
theorem readNode_saveNode (hid : node.id ≠ []) (hnames : node.config.names.Nodup)
    (hplain : ∀ key ∈ metaKeys, node.config.get? key = none)
    (hlabel : nameByLabel node.config = node.config) : readNode (saveNode node) = .ok node := by
  obtain ⟨node', hread, hof⟩ :=
    readNode_of_near (nodeShape_saved hid hplain) (not_far_saved hplain)
  rw [saveNode_eq_append hnames hplain, hread, hof.unique (nodeOf_saved hnames hplain hlabel)]

/-- Bookkeeping in a configuration is lost or changed: a node that is read from the saved one has
another configuration. -/
theorem get?_eq_none_of_equal {node' : Node} (hnode : Value.distinct (.object node.config) = true)
    (hread : ObjectWith (NodeOf · node') (saveNode node)) (hequal : node.Equal node') {key : Text}
    (hkey : key ∈ metaKeys) : node.config.get? key = none := by
  obtain ⟨spec, hspec, hof⟩ := hread
  rw [saveNode] at hspec
  cases hspec
  obtain ⟨data, hconfig, hdata⟩ := hof.exists_config
  have hnames := (Value.distinct_object_iff.mp hnode).1
  have hsaved : (Members.merge (frame node) node.config).get? "data" = node.config.get? "data" := by
    rw [Members.get?_merge hnames, get?_frame_data, Option.or_none]
  rcases hdata with rfl | hdata
  · cases hget : node.config.get? key with
    | none => rfl
    | some v =>
      obtain ⟨v', hv', -⟩ := Value.exists_get?_of_equal hequal.config hget
      have hempty : (Members.names []).Nodup := List.nodup_nil
      rw [hconfig, get?_configOf hempty hkey] at hv'
      cases hv'
  · -- the saved `data` would have to equal a member of itself
    rw [hsaved] at hdata
    obtain ⟨v', hv', hsame⟩ := Value.exists_get?_of_equal hequal.config hdata
    have hinner := Value.distinct_object_iff.mp (Value.distinct_of_get? hnode hdata)
    rw [hconfig, get?_configOf hinner.1 (by decide)] at hv'
    exact absurd hsame (Value.not_equal_of_get? hv')

end Saved

section Read
variable {u : Value} {node : Node} (h : ObjectWith (NodeOf · node) u) (hu : u.distinct = true)
include h

theorem nameByLabel_config : nameByLabel node.config = node.config := by
  obtain ⟨spec, -, hof⟩ := h
  obtain ⟨data, hconfig, -⟩ := hof.exists_config
  rw [hconfig, configOf_eq, nameByLabel_nameByLabel]

include hu

/-- The configuration and the members under `data` have no repeated names. -/
theorem exists_distinct_data : ∃ spec data : Members, u = .object spec ∧
    node.config = configOf spec data ∧ Value.distinct (.object data) = true ∧
    (data = [] ∨ spec.get? "data" = some (.object data)) := by
  obtain ⟨spec, rfl, hof⟩ := h
  obtain ⟨data, hconfig, hdata⟩ := hof.exists_config
  refine ⟨spec, data, rfl, hconfig, ?_, hdata⟩
  rcases hdata with rfl | hdata
  · rfl
  · exact Value.distinct_of_get? hu hdata

theorem distinct_config : Value.distinct (.object node.config) = true := by
  obtain ⟨spec, data, rfl, hconfig, hdata, -⟩ := exists_distinct_data h hu
  rw [hconfig]
  exact distinct_configOf hu hdata

theorem exists_data {key : Text} (hkey : key ∈ metaKeys) {value : Value}
    (hvalue : node.config.get? key = some value) :
    ∃ spec data : Members, u = .object spec ∧ spec.get? "data" = some (.object data) ∧
      data.get? key = some value := by
  obtain ⟨spec, data, rfl, hconfig, hdistinct, hdata⟩ := exists_distinct_data h hu
  rw [hconfig, get?_configOf (Value.distinct_object_iff.mp hdistinct).1 hkey] at hvalue
  rcases hdata with rfl | hdata
  · cases hvalue
  · exact ⟨spec, data, rfl, hdata, hvalue⟩

end Read

/-! ## Edges and documents -/

theorem portOf_ofOption {port : Option Text} (h : ∀ s ∈ port, s ≠ []) :
    portOf (Value.ofOption port) = port := by
  cases port with
  | none => rfl
  | some s => simp [Value.ofOption, portOf, h s rfl]

theorem edgeShape_saved (e : Edge) : ObjectWith EdgeShape (saveEdge e) := by
  have hport : ∀ port : Option Text, Value.ofOption port = .null ∨
      ∃ s, Value.ofOption port = .str s := by
    intro port
    cases port with
    | none => exact Or.inl rfl
    | some s => exact Or.inr ⟨s, rfl⟩
  exact ⟨_, rfl, ⟨e.id, rfl⟩, ⟨e.source, rfl⟩, ⟨e.target, rfl⟩, hport e.sourcePort,
    hport e.targetPort⟩

theorem readEdge_saveEdge {e : Edge} (hsource : ∀ s ∈ e.sourcePort, s ≠ [])
    (htarget : ∀ s ∈ e.targetPort, s ≠ []) : readEdge (saveEdge e) = .ok e := by
  obtain ⟨spec, hspec, hshape⟩ := edgeShape_saved e
  cases hspec
  obtain ⟨e', hread, hof⟩ := readEdge_of_shape hshape
  have hs : e'.sourcePort = e.sourcePort := hof.sourcePort.trans (portOf_ofOption hsource)
  have ht : e'.targetPort = e.targetPort := hof.targetPort.trans (portOf_ofOption htarget)
  rw [saveEdge, hread]
  obtain ⟨id, source, target, sourcePort, targetPort⟩ := e'
  cases hof.id
  cases hof.source
  cases hof.target
  cases hs
  cases ht
  rfl

theorem load_cases {v : Value} {w : Workflow} (h : load v = .ok w) :
    WellFormed v ∧ w.name ≠ [] ∧
      List.Forall₂ (fun u node => ObjectWith (NodeOf · node) u) (nodeValues v) w.graph.nodes ∧
      List.Forall₂ (fun u e => ObjectWith (EdgeOf · e) u) (edgeValues v) w.graph.edges := by
  unfold load at h
  split at h
  · cases h
  next hcheck =>
    have hv := check_eq_ok_iff.mp hcheck
    by_cases hfar : ∃ u ∈ nodeValues v, ObjectWith Far u
    · cases (read_of_far hv hfar).symm.trans h
    · obtain ⟨w', hw', hspec⟩ := read_of_near hv hfar
      cases hw'.symm.trans h
      exact ⟨hv, hspec⟩

theorem distinct_of_mem_nodeValues {v u : Value} (hv : v.distinct = true) (hu : u ∈ nodeValues v) :
    u.distinct = true := by
  cases v with
  | object root =>
    simp only [nodeValues] at hu
    split at hu
    next nodes hnodes =>
      have hget := Members.get?_of_get hnodes (by simp)
      exact Value.distinct_list_iff.mp (Value.distinct_of_get? hv hget) u hu
    next => exact absurd hu List.not_mem_nil
  | _ => exact absurd hu List.not_mem_nil

theorem exists_read_of_mem {v : Value} {w : Workflow} (hv : v.distinct = true)
    (h : load v = .ok w) {node : Node} (hnode : node ∈ w.graph.nodes) :
    ∃ u, ObjectWith (NodeOf · node) u ∧ u.distinct = true ∧ node.id ≠ [] := by
  obtain ⟨hformed, -, hnodes, -⟩ := load_cases h
  obtain ⟨u, hu, hread⟩ := exists_of_forall₂ hnodes hnode
  refine ⟨u, hread, distinct_of_mem_nodeValues hv hu, ?_⟩
  obtain ⟨spec, rfl, hof⟩ := hread
  obtain ⟨spec', heq, hshape⟩ := hformed.nodes _ hu
  cases heq
  obtain ⟨id, hid, hne⟩ := hshape.id
  cases hid.symm.trans hof.id
  exact hne

/-- The document of a workflow gives the workflow again if no configuration holds bookkeeping. -/
theorem load_save {v : Value} {w : Workflow} (hv : v.distinct = true) (h : load v = .ok w)
    (hplain : ∀ node ∈ w.graph.nodes, ∀ key ∈ metaKeys, node.config.get? key = none) :
    load (save w) = .ok w := by
  obtain ⟨-, hname, -, hedges⟩ := load_cases h
  have hnames : ∀ node ∈ w.graph.nodes, node.config.names.Nodup := by
    intro node hnode
    obtain ⟨u, hread, hu, -⟩ := exists_read_of_mem hv h hnode
    exact (Value.distinct_object_iff.mp (distinct_config hread hu)).1
  have hformed : WellFormed (save w) := by
    refine ⟨⟨_, rfl, ⟨_, rfl⟩, ⟨_, rfl⟩, Or.inl rfl, Or.inr ⟨w.name, rfl⟩⟩, ?_, ?_⟩
    · intro u hu
      obtain ⟨node, hnode, rfl⟩ := List.mem_map.mp (show u ∈ w.graph.nodes.map saveNode from hu)
      obtain ⟨-, -, -, hid⟩ := exists_read_of_mem hv h hnode
      rw [saveNode_eq_append (hnames node hnode) (hplain node hnode)]
      exact ⟨_, rfl, nodeShape_saved hid (hplain node hnode)⟩
    · intro u hu
      obtain ⟨e, -, rfl⟩ := List.mem_map.mp (show u ∈ w.graph.edges.map saveEdge from hu)
      exact edgeShape_saved e
  have hnodes : (w.graph.nodes.map saveNode).mapM readNode = .ok w.graph.nodes := by
    refine mapM_eq_ok_iff.mpr (List.forall₂_map_left_iff.mpr (List.forall₂_same.mpr ?_))
    intro node hnode
    obtain ⟨u, hread, -, hid⟩ := exists_read_of_mem hv h hnode
    exact readNode_saveNode hid (hnames node hnode) (hplain node hnode) (nameByLabel_config hread)
  have hlinks : (w.graph.edges.map saveEdge).mapM readEdge = .ok w.graph.edges := by
    refine mapM_eq_ok_iff.mpr (List.forall₂_map_left_iff.mpr (List.forall₂_same.mpr ?_))
    intro e he
    obtain ⟨u, -, spec, -, hof⟩ := exists_of_forall₂ hedges he
    exact readEdge_saveEdge (fun s hs => ne_nil_of_portOf (hof.sourcePort.symm.trans hs))
      fun s hs => ne_nil_of_portOf (hof.targetPort.symm.trans hs)
  have hread : nameOf [("name", .str w.name), ("nodes", .list (w.graph.nodes.map saveNode)),
      ("edges", .list (w.graph.edges.map saveEdge))] = .ok w.name := by
    simp [nameOf, Members.get, Members.get?, givenOf, Value.isGiven, hname, textOf, Except.map]
    rfl
  rw [load, check_eq_ok_iff.mpr hformed]
  change ((w.graph.nodes.map saveNode).mapM readNode >>= fun nodes =>
    (w.graph.edges.map saveEdge).mapM readEdge >>= fun edges => _) = _
  rw [hnodes, ok_bind, hlinks, ok_bind, hread]
  rfl

/-- Where the document of a workflow gives an equal workflow, no configuration holds bookkeeping. -/
theorem get?_eq_none_of_reload {v : Value} {w w' : Workflow} (hv : v.distinct = true)
    (h : load v = .ok w) (hreload : load (save w) = .ok w') (hequal : w.Equal w') {node : Node}
    (hnode : node ∈ w.graph.nodes) {key : Text} (hkey : key ∈ metaKeys) :
    node.config.get? key = none := by
  obtain ⟨u, hread, hu, -⟩ := exists_read_of_mem hv h hnode
  have hsaved : List.Forall₂ (fun u node => ObjectWith (NodeOf · node) u)
      (w.graph.nodes.map saveNode) w'.graph.nodes := (load_cases hreload).2.2.1
  obtain ⟨i, hi, rfl⟩ := List.getElem_of_mem hnode
  have hi' : i < w'.graph.nodes.length := hequal.nodes.length_eq ▸ hi
  have hsame := hequal.nodes.get hi hi'
  have hsavedAt := (List.forall₂_map_left_iff.mp hsaved).get hi hi'
  exact get?_eq_none_of_equal (distinct_config hread hu) hsavedAt hsame hkey

/-- A loaded workflow that is saved and loaded again comes back equal exactly when no configuration
holds a member with the name of a bookkeeping field, and then it comes back the same. Such a member
was read from the `data` of its node. -/
theorem reload_iff {v : Value} {w : Workflow} (hv : v.distinct = true) (h : load v = .ok w) :
    ((∃ w', load (save w) = .ok w' ∧ w.Equal w') ↔
      ∀ node ∈ w.graph.nodes, ∀ key ∈ metaKeys, node.config.has key = false) ∧
    ((∀ node ∈ w.graph.nodes, ∀ key ∈ metaKeys, node.config.has key = false) →
      load (save w) = .ok w) ∧
    ∀ (i : Nat) (node : Node) (key : Text) (value : Value), w.graph.nodes[i]? = some node →
      key ∈ metaKeys → node.config.get? key = some value →
      ∃ spec data : Members, (nodeValues v)[i]? = some (.object spec) ∧
        spec.get? "data" = some (.object data) ∧ data.get? key = some value := by
  have hback : (∀ node ∈ w.graph.nodes, ∀ key ∈ metaKeys, node.config.has key = false) →
      load (save w) = .ok w := by
    intro hplain
    refine load_save hv h fun node hnode key hkey => ?_
    exact Members.has_eq_false_iff.mp (hplain node hnode key hkey)
  refine ⟨⟨?_, fun hplain => ⟨w, hback hplain, rfl, ?_, rfl⟩⟩, hback, ?_⟩
  · rintro ⟨w', hreload, hequal⟩ node hnode key hkey
    exact Members.has_eq_false_iff.mpr (get?_eq_none_of_reload hv h hreload hequal hnode hkey)
  · refine List.forall₂_same.mpr fun node hnode => Node.equal_self ?_
    obtain ⟨u, hread, hu, -⟩ := exists_read_of_mem hv h hnode
    exact distinct_config hread hu
  · intro i node key value hi hkey hvalue
    have hnodes := (load_cases h).2.2.1
    obtain ⟨hlt, rfl⟩ := List.getElem?_eq_some_iff.mp hi
    have hlt' : i < (nodeValues v).length := hnodes.length_eq ▸ hlt
    have hdistinct := distinct_of_mem_nodeValues hv (List.getElem_mem hlt')
    obtain ⟨spec, data, hspec, hdata⟩ := exists_data (hnodes.get hlt' hlt) hdistinct hkey hvalue
    exact ⟨spec, data, hspec ▸ List.getElem?_eq_getElem hlt', hdata⟩

/-- One node, with an object under `data` that itself has a `data` member. -/
def nested : Value :=
  .object [("nodes", .list [.object [("id", .str "a"), ("type", .str "input"),
      ("data", .object [("label", .str "A"), ("data", .object [("data", .null)])])]]),
    ("edges", .list [])]

def nestedWorkflow : Workflow where
  graph :=
    { nodes := [{ id := "a", kind := .input, config := [("label", .str "A"),
        ("data", .object [("data", .null)]), ("name", .str "A")] }], edges := [] }
  name := "workflow"

theorem nested_not_reloaded : load nested = .ok nestedWorkflow ∧
    ¬∃ w', load (save nestedWorkflow) = .ok w' ∧ nestedWorkflow.Equal w' := by
  have hdistinct : nested.distinct = true := by decide
  have hload : load nested = .ok nestedWorkflow := rfl
  refine ⟨hload, fun h => ?_⟩
  have hplain := (reload_iff hdistinct hload).1.mp h _ List.mem_cons_self "data" (by decide)
  exact absurd hplain (by decide)

end Document

end WorkflowCompiler
