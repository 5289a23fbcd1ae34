import Mathlib
import WorkflowCompiler.Proofs.Block.Outline
import WorkflowCompiler.Proofs.Graph.Acyclic
import WorkflowCompiler.Proofs.Resolution.Splice
import WorkflowCompiler.Proofs.Resolution.Total

/-! # Outlines of chains

What a chain comes to is fixed by its node and by what the chains behind it come to, up to the
numbers of blocks. Nothing is said here of tables or of an order in which chains are resolved: the
outline of a shared sequence does not depend on who comes upon it first.
-/
namespace WorkflowCompiler.Resolution
open Block Relation

/-- The nodes behind a node: those to which a path of at least one edge leads. -/
def behind (g : Graph) (id : Text) : List Text :=
  Graph.reachable g.edges (Graph.targets g.edges id)

theorem mem_behind {g : Graph} {id x : Text} :
    x ∈ behind g id ↔ TransGen (Graph.Leads g.edges) id x := by
  rw [behind, Graph.mem_reachable, TransGen.head'_iff]
  simp only [Graph.mem_targets, Graph.Reaches]

/-- The held ones among some shared sequences that none of them leads to. -/
def foremost (g : Graph) (held : List (Text × Block)) : List (Text × Block) :=
  held.filter fun h => held.all fun other => !(behind g other.1).contains h.1

theorem mem_foremost {g : Graph} {held : List (Text × Block)} {h : Text × Block} :
    h ∈ foremost g held ↔ h ∈ held ∧ ∀ other ∈ held, h.1 ∉ behind g other.1 := by
  simp [foremost, List.mem_filter, List.all_eq_true]

/-- Sibling chains joined by what leads to what in the graph. -/
def joinOutlines (g : Graph) (chains : List (List Block)) : List Block :=
  chains.flatten.filter (·.sharedKey?.isNone) ++
    (foremost g (heldBack chains.flatten)).map (·.2)

/-- Joining goes by what leads to what, if this is how shared sequences are nested. -/
theorem splice_eq_joinOutlines {g : Graph} {chains : List (List Block)}
    (h : ∀ a ∈ heldBack chains.flatten, ∀ b ∈ heldBack chains.flatten,
      b.1 ∈ nestedKeys a.2 ↔ b.1 ∈ behind g a.1) : splice chains = joinOutlines g chains := by
  have hkept : ∀ b ∈ heldBack chains.flatten,
      (!((heldBack chains.flatten).flatMap fun a => nestedKeys a.2).contains b.1) =
        (heldBack chains.flatten).all fun a => !(behind g a.1).contains b.1 := by
    intro b hb
    rw [Bool.eq_iff_iff]
    simp only [Bool.not_eq_true', List.contains_eq_mem, decide_eq_false_iff_not, List.mem_flatMap,
      List.all_eq_true, not_exists, not_and]
    exact forall₂_congr fun a ha => not_congr (h a ha b hb)
  rw [splice, joinOutlines, foremost, List.filter_congr hkept]

theorem joinOutlines_map {f : Block → Block} (hf : ∀ b, (f b).sharedKey? = b.sharedKey?) (g : Graph)
    (chains : List (List Block)) :
    joinOutlines g (chains.map (List.map f)) = (joinOutlines g chains).map f := by
  have hflat : (chains.map (List.map f)).flatten = chains.flatten.map f := List.map_flatten.symm
  have hheld : ∀ held : List (Text × Block), foremost g (held.map (Prod.map id f)) =
      (foremost g held).map (Prod.map id f) := by
    intro held
    rw [foremost, foremost, List.filter_map]
    simp only [List.all_map, Function.comp_def, Prod.map_fst, id]
  rw [joinOutlines, joinOutlines, hflat, heldBack_map hf, hheld, List.map_append, List.filter_map,
    List.map_map, List.map_map]
  simp only [Function.comp_def, hf, Prod.map_snd]

/-- Chains that end with shared sequences none of which leads to another one are joined already. -/
theorem joinOutlines_singleton {g : Graph} {blocks : List Block} {held : List (Text × Block)}
    (hblocks : ∀ b ∈ blocks, b.sharedKey? = none) (hnodup : (held.map (·.1)).Nodup)
    (hshared : ∀ h ∈ held, h.2.sharedKey? = some h.1)
    (hforemost : ∀ a ∈ held, ∀ b ∈ held, b.1 ∉ behind g a.1) :
    joinOutlines g [blocks ++ held.map (·.2)] = blocks ++ held.map (·.2) := by
  have hall : foremost g held = held :=
    List.filter_eq_self.mpr fun b hb => (List.mem_filter.mp (mem_foremost.mpr
      ⟨hb, fun a ha => hforemost a ha b hb⟩)).2
  have hfirst : (blocks ++ held.map (·.2)).filter (·.sharedKey?.isNone) = blocks := by
    rw [List.filter_append, List.filter_eq_self.mpr fun b hb => by rw [hblocks b hb]; rfl,
      List.filter_eq_nil_iff.mpr, List.append_nil]
    intro b hb
    obtain ⟨h, hh, rfl⟩ := List.mem_map.mp hb
    rw [hshared h hh]
    nofun
  rw [joinOutlines, List.flatten_singleton, hfirst, heldBack_append_held hblocks hnodup hshared,
    hall]

/-- Joining a chain that has been joined, behind blocks that are not shared, changes nothing. -/
theorem joinOutlines_append {g : Graph} {blocks : List Block} (chains : List (List Block))
    (hblocks : ∀ b ∈ blocks, b.sharedKey? = none) :
    joinOutlines g [blocks ++ joinOutlines g chains] = blocks ++ joinOutlines g chains := by
  have hheld := held_heldBack chains.flatten
  have hform : blocks ++ joinOutlines g chains =
      (blocks ++ chains.flatten.filter (·.sharedKey?.isNone)) ++
        (foremost g (heldBack chains.flatten)).map (·.2) := by
    rw [joinOutlines, List.append_assoc]
  rw [hform]
  refine joinOutlines_singleton ?_ ?_ ?_ ?_
  · intro b hb
    rcases List.mem_append.mp hb with hb | hb
    · exact hblocks b hb
    · simpa using (List.mem_filter.mp hb).2
  · exact hheld.nodup.sublist (List.filter_sublist.map _)
  · exact fun h hh => (hheld.shared h (mem_foremost.mp hh).1).2
  · exact fun a ha b hb => (mem_foremost.mp hb).2 a (mem_foremost.mp ha).1

def armOutline : List Block → Block
  | [item] => if item.sharedKey?.isSome then item else .sequence 0 [item] none none
  | items => .sequence 0 items none none

def memberOutline : List Block → List Block
  | [] => []
  | [block] => [block]
  | items => [.sequence 0 items none none]

/-- What is made for a node itself, from the outlines of the chains behind it. -/
def headOutlines (g : Graph) (chains : Text → List Block) (node : Node) : List Block :=
  let targets := (Facts.ofGraph g).targets node.id
  let inner := fun port => joinOutlines g ((targets port).map chains)
  let arm := fun port => armOutline (inner port)
  match node.kind with
  | .sequential => [.sequence 0 (inner defaultPort) (some node) none]
  | .parallel =>
    match JoinStrategy.ofValue (node.settings.get "joinStrategy") with
    | .ok join =>
      let members := (Text.sort ((Facts.ofGraph g).allTargets node.id)).flatMap fun start =>
        memberOutline (chains start)
      [.parallel 0 node members join]
    | .error _ => []
  | .conditional =>
    let condition := (node.settings.get? "condition").getD (.str "")
    [.branch 0 node condition (arm "true") (arm "false") none]
  | .router =>
    [.switch 0 node ((routeLabels node.config).map fun label => (⟨label.2, label.1⟩, arm label.1))]
  | .loop =>
    match LoopKind.ofValue (node.settings.get "loopType") with
    | .ok kind => [.loop 0 node (arm "loop") kind (loopParams kind node.settings)]
    | .error _ => []
  | kind =>
    match kind.outcomePorts? with
    | none => [.leaf 0 node]
    | some (success, failure) =>
      if (targets failure).isEmpty then [.leaf 0 node]
      else [.leaf 0 node,
        .branch 0 node (.str success) (arm success) (arm failure) (some success)]

def entryOutline (g : Graph) (chains : Text → List Block) (node : Node) : List Block :=
  headOutlines g chains node ++ joinOutlines g ((nexts (.ofGraph g) node).map chains)

def chainOutline (g : Graph) (id : Text) (items : List Block) : List Block :=
  if g.merges.contains id then [.sequence 0 items none (some id)] else items

/-- The chain from a node has an outline: it is made from the outlines of the chains behind the
node. These are given by a function, which is empty elsewhere to leave no choice. -/
inductive Outlines (g : Graph) : Text → List Block → Prop
  | intro {id : Text} {node : Node} {chains : Text → List Block} : g.node? id = some node →
    Settled node → (∀ t, ¬ Graph.Leads g.edges id t → chains t = []) →
    (∀ t, Graph.Leads g.edges id t → Outlines g t (chains t)) →
    Outlines g id (chainOutline g id (entryOutline g chains node))

section Graph
variable {g : Graph}

theorem Outlines.unique {id : Text} {items items' : List Block} (h : Outlines g id items)
    (h' : Outlines g id items') : items = items' := by
  induction h generalizing items' with
  | @intro id node chains hnode _ hnone _ ih =>
    cases h' with
    | @intro _ node' chains' hnode' _ hnone' hchains' =>
      obtain rfl : node = node' := Option.some.inj (hnode.symm.trans hnode')
      have hsame : chains = chains' := by
        funext t
        by_cases hleads : Graph.Leads g.edges id t
        · exact ih t hleads (hchains' t hleads)
        · rw [hnone t hleads, hnone' t hleads]
      rw [hsame]

theorem Outlines.node {id : Text} {items : List Block} (h : Outlines g id items) :
    ∃ node, g.node? id = some node ∧ Settled node := by
  cases h with
  | intro hnode hsettled _ _ => exact ⟨_, hnode, hsettled⟩

theorem Outlines.step {id : Text} {items : List Block} (h : Outlines g id items) {t : Text}
    (ht : Graph.Leads g.edges id t) : ∃ items', Outlines g t items' := by
  cases h with
  | intro _ _ _ hchains => exact ⟨_, hchains t ht⟩

theorem Outlines.reaches {id : Text} {items : List Block} (h : Outlines g id items) {t : Text}
    (ht : Graph.Reaches g.edges id t) : ∃ items', Outlines g t items' := by
  induction ht with
  | refl => exact ⟨items, h⟩
  | tail _ hleads ih =>
    obtain ⟨items', hitems'⟩ := ih
    exact hitems'.step hleads

theorem headOutlines_step (chains : Text → List Block) {node : Node}
    (h : node.kind.isContainer = false) : headOutlines g chains node =
      match node.kind.outcomePorts? with
      | none => [.leaf 0 node]
      | some (success, failure) =>
        if ((Facts.ofGraph g).targets node.id failure).isEmpty then [.leaf 0 node]
        else
          let arm := fun port =>
            armOutline (joinOutlines g (((Facts.ofGraph g).targets node.id port).map chains))
          [.leaf 0 node,
            .branch 0 node (.str success) (arm success) (arm failure) (some success)] := by
  unfold headOutlines
  cases hk : node.kind <;> first | rfl | simp [NodeKind.isContainer, hk] at h

def BeginsWith (id : Text) (items : List Block) : Prop :=
  ∃ b rest, items = b :: rest ∧ b.headId = id

theorem BeginsWith.append {id : Text} {items : List Block} (h : BeginsWith id items)
    (more : List Block) : BeginsWith id (items ++ more) := by
  obtain ⟨b, rest, rfl, hid⟩ := h
  exact ⟨b, rest ++ more, rfl, hid⟩

/-- What is made for a node begins with the node, and none of it is shared. -/
theorem headOutlines_own (chains : Text → List Block) {node : Node} (hn : Settled node) :
    BeginsWith node.id (headOutlines g chains node) ∧
      ∀ b ∈ headOutlines g chains node, b.sharedKey? = none := by
  have hsingle : ∀ b : Block, b.headId = node.id → b.sharedKey? = none →
      BeginsWith node.id [b] ∧ ∀ x ∈ [b], x.sharedKey? = none :=
    fun b hid hkey => ⟨⟨b, [], rfl, hid⟩, List.forall_mem_singleton.mpr hkey⟩
  cases hc : node.kind.isContainer with
  | true =>
    cases hk : node.kind <;> simp only [hk, NodeKind.isContainer, Bool.false_eq_true] at hc
    case sequential | conditional | router =>
      simp only [headOutlines, hk]
      exact hsingle _ rfl rfl
    case parallel =>
      obtain ⟨join, hjoin⟩ := hn.join hk
      simp only [headOutlines, hk, hjoin]
      exact hsingle _ rfl rfl
    case loop =>
      obtain ⟨kind, hkind⟩ := hn.loop hk
      simp only [headOutlines, hk, hkind]
      exact hsingle _ rfl rfl
  | false =>
    rw [headOutlines_step chains hc]
    split
    · exact hsingle _ rfl rfl
    · split
      · exact hsingle _ rfl rfl
      · exact ⟨⟨_, _, rfl, rfl⟩, List.forall_mem_cons.mpr ⟨rfl, List.forall_mem_singleton.mpr rfl⟩⟩

theorem Outlines.beginsWith {id : Text} {items : List Block} (h : Outlines g id items) :
    BeginsWith id items := by
  cases h with
  | @intro _ node chains hnode hsettled _ _ =>
    obtain ⟨_, rfl⟩ := Graph.node?_eq_some hnode
    have hentry : BeginsWith node.id (entryOutline g chains node) :=
      (headOutlines_own chains hsettled).1.append _
    rw [chainOutline]
    split
    · obtain ⟨b, rest, hitems, hid⟩ := hentry
      refine ⟨_, [], rfl, ?_⟩
      rw [headId, head, hitems, headOfItems, ← headId, hid]
    · exact hentry

theorem joinOutlines_block (ha : g.Acyclic) (b : Block) : joinOutlines g [[b]] = [b] := by
  cases hkey : b.sharedKey? with
  | none =>
    exact @joinOutlines_singleton g [b] [] (by simpa using hkey) (by simp) (by simp) (by simp)
  | some key =>
    refine @joinOutlines_singleton g [] [(key, b)] (by simp) (by simp) (by simpa using hkey) ?_
    have hself : key ∉ behind g key := fun h => ha key (mem_behind.mp h)
    simpa using hself

theorem Outlines.joined (ha : g.Acyclic) {id : Text} {items : List Block}
    (h : Outlines g id items) : joinOutlines g [items] = items := by
  cases h with
  | @intro _ node chains hnode hsettled _ _ =>
    rw [chainOutline]
    split
    · exact joinOutlines_block ha _
    · exact joinOutlines_append _ (headOutlines_own chains hsettled).2

theorem Outlines.member {id : Text} {items : List Block} (h : Outlines g id items) :
    ∃ b, memberOutline items = [b] ∧ b.headId = id := by
  obtain ⟨b, rest, rfl, hid⟩ := h.beginsWith
  cases rest with
  | nil => exact ⟨b, rfl, hid⟩
  | cons c rest =>
    refine ⟨_, rfl, ?_⟩
    rw [headId, head, headOfItems, ← headId, hid]

end Graph

end WorkflowCompiler.Resolution
