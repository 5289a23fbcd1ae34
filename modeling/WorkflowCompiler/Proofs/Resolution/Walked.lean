import Mathlib
import WorkflowCompiler.Proofs.Resolution.Once
import WorkflowCompiler.Proofs.Validation.Warnings

/-! # The nodes of a workflow

The block of a workflow stands for the nodes that the entries lead to, cycles or not. These are the
nodes of the graph that get no warning for being out of reach.
-/
namespace WorkflowCompiler

/-- The ids of the nodes for which the blocks inside a block stand, in the order of a walk. -/
def Block.walkedIds (root : Block) : List Text := (root.walk.filterMap node?).map (·.id)

namespace Resolution
open Block

section
variable {node : Node} {heads items : List Block} {laid : List Laid}

theorem Assembled.node?_heads (h : Assembled node heads laid items) {b : Block} (hb : b ∈ heads) :
    b.node? = some node := by
  cases h with
  | outcome =>
    rcases List.mem_cons.mp hb with rfl | hb
    · rfl
    · rw [List.mem_singleton.mp hb]
      rfl
  | _ =>
    rw [List.mem_singleton.mp hb]
    rfl

theorem Assembled.node?_own (h : Assembled node heads laid items) {b : Block}
    (hb : b ∈ ownBlocks heads laid) {other : Node} (hother : b.node? = some other) :
    other = node := by
  rcases mem_ownBlocks.mp hb with hb | ⟨l, hl, hb⟩
  · rw [h.node?_heads hb] at hother
    exact (Option.some.inj hother).symm
  · obtain ⟨n, rfl⟩ := h.made_plain hl hb
    cases hother

end

section Made
variable {g : Graph} {P : Block → Prop}
  (hplain : ∀ n items key, P (.sequence n items none key))
  (hown : ∀ (e : Entry) (c : Call), e.Of (.ofGraph g) c → ∀ b ∈ ownBlocks e.heads e.laid, P b)
include hplain hown

/-- What holds of plain sequences and of the blocks that an entry makes holds of all blocks that are
made for a chain. -/
theorem Logs.forall_made {active : List Text} {c : Call} {p q : Progress} {made : List Block}
    (h : Logs (.ofGraph g) active c p made q) : ∀ b ∈ made, P b := by
  refine Logs.induction (motive := fun _ _ _ made _ => ∀ b ∈ made, P b) ?_ h
  intro active c p made q hs
  have hentry : ∀ {e : Entry} {c' : Call} {p made q}, e.Of (.ofGraph g) c' →
      Logged (fun c' p made q => Logs (.ofGraph g) (c.start :: active) c' p made q ∧
        ∀ b ∈ made, P b) p e.events made q → ∀ b ∈ made, P b := by
    intro e c' p made q he hl b hb
    rcases hl.mem_made hb with hb | ⟨_, _, _, _, _, hlog, hb⟩
    · exact hown e c' he b (he.makes.mem_iff.mp hb)
    · exact hlog.2 b hb
  cases hs with
  | stopped _ => simp
  | known _ _ _ _ => simp
  | fresh e _ _ _ _ _ he hl =>
    intro b hb
    rcases List.mem_append.mp hb with hb | hb
    · exact hentry he hl b hb
    · exact List.mem_singleton.mp hb ▸ hplain _ _ _
  | entered e _ _ _ he hl => exact hentry he hl

theorem RootLog.forall_within {root : Block} {l : Laid} {made : List Block} {q : Progress}
    (h : RootLog g root l made q) : ∀ x : Block, x.Within root → P x := by
  intro x hx
  rcases List.mem_append.mp (h.within_iff.mp hx) with hx | hx
  · rcases h.logged.mem_made hx with hx | ⟨_, _, _, _, _, hlog, hx⟩
    · simp [makesOf_calls] at hx
    · exact hlog.forall_made hplain hown x hx
  · rw [List.mem_singleton.mp hx, h.root]
    exact hplain _ _ _

end Made

/-- The blocks in a block stand for nodes of a graph. -/
def Names (g : Graph) (b : Block) : Prop :=
  ∀ x : Block, x.Within b → ∀ n, x.node? = some n → g.node? n.id = some n

theorem RootLog.names {g : Graph} {root : Block} {l : Laid} {made : List Block} {q : Progress}
    (h : RootLog g root l made q) : Names g root := by
  refine h.forall_within ?_ ?_
  · intro _ _ _ n hn
    cases hn
  · intro e c he b hb n hn
    rw [he.assembled.node?_own hb hn, he.node_id]
    exact he.node

/-- The blocks that are made for a chain stand for nodes to which the chain leads. -/
theorem Logs.reaches_node {g : Graph} {active : List Text} {c : Call} {p q : Progress}
    {made : List Block} (h : Logs (.ofGraph g) active c p made q) :
    ∀ b ∈ made, ∀ node, b.node? = some node → Graph.Reaches g.edges c.start node.id := by
  refine Logs.induction (motive := fun _ c _ made _ =>
    ∀ b ∈ made, ∀ node, b.node? = some node → Graph.Reaches g.edges c.start node.id) ?_ h
  intro active c p made q hs
  have hentry : ∀ {e : Entry} {owner items p made q},
      e.Of (.ofGraph g) ⟨owner, c.stop, c.start, items⟩ →
      Logged (fun c' p made q => Logs (.ofGraph g) (c.start :: active) c' p made q ∧
        ∀ b ∈ made, ∀ node, b.node? = some node → Graph.Reaches g.edges c'.start node.id)
        p e.events made q →
      ∀ b ∈ made, ∀ node, b.node? = some node → Graph.Reaches g.edges c.start node.id := by
    intro e owner items p made q he hl b hb node hnode
    rcases hl.mem_made hb with hb | ⟨c', hc', p', made', q', hlog, hb⟩
    · obtain rfl := he.assembled.node?_own (he.makes.mem_iff.mp hb) hnode
      rw [he.node_id]
    · exact .head (he.leads hc') (hlog.2 b hb node hnode)
  cases hs with
  | stopped _ => simp
  | known _ _ _ _ => simp
  | fresh e _ _ _ _ _ he hl =>
    intro b hb node hnode
    rcases List.mem_append.mp hb with hb | hb
    · exact hentry he hl b hb node hnode
    · rw [List.mem_singleton.mp hb] at hnode
      cases hnode
  | entered e _ _ _ he hl => exact hentry he hl

/-- A block stands for each node that can be reached, and for no other one. -/
theorem RootLog.mem_walkedIds {g : Graph} {root : Block} {l : Laid} {made : List Block}
    {q : Progress} (hg : g.Sound) (h : RootLog g root l made q) {id : Text} :
    id ∈ root.walkedIds ↔ g.Reached id := by
  have hwalk : ∀ b, b ∈ root.walk ↔ b ∈ made ++ [root] := fun b => h.walk_perm.mem_iff
  simp only [walkedIds, List.mem_map, List.mem_filterMap, hwalk]
  constructor
  · rintro ⟨node, ⟨b, hb, hnode⟩, rfl⟩
    rcases List.mem_append.mp hb with hb | hb
    · rcases h.logged.mem_made hb with hb | ⟨c, hc, p', made', q', hlog, hb⟩
      · simp [makesOf_calls] at hb
      · rw [callsOf_calls] at hc
        exact ⟨c.start, h.starts ▸ List.mem_map_of_mem hc, hlog.reaches_node b hb node hnode⟩
    · rw [List.mem_singleton.mp hb, h.root] at hnode
      cases hnode
  · intro hr
    obtain ⟨b, hb, hmain⟩ := List.mem_filterMap.mp ((h.mem_entered_iff hg).mpr hr)
    obtain ⟨node, hnode, hid⟩ := exists_node_of_mainId? hmain
    exact ⟨node, ⟨b, List.mem_append_left _ hb, hnode⟩, hid⟩

/-- Resolution and validation agree on what is run: the blocks of a workflow stand for exactly those
nodes of the graph that get no warning for being out of reach. -/
theorem mem_walkedIds_resolve (v : Validated) {root : Block} (h : (resolve v).block = .ok root)
    (id : Text) : id ∈ root.walkedIds ↔ id ∈ v.graph.nodeIds ∧
      ∀ d ∈ v.warnings, d.code = "unreachable-node" → d.nodeId ≠ some id := by
  obtain ⟨l, made, q, hlog⟩ := exists_rootLog h
  rw [hlog.mem_walkedIds v.sound, v.reached_iff]

/-- A loop around a step, and a step to which nothing leads. -/
def strayStep : Graph where
  nodes := [⟨"i", .input, [], none⟩, ⟨"a", .loop, [("loopCount", .int 2)], none⟩,
    ⟨"p", .debug, [], none⟩, ⟨"u", .debug, [], none⟩]
  edges := [⟨"e1", "i", "a", none, none⟩, ⟨"e2", "a", "p", some "loop", none⟩,
    ⟨"e3", "p", "a", none, none⟩]

def strayWarning : Diagnostic := Validation.unreachableNode ⟨"u", .debug, [], none⟩

theorem validate_strayStep : validate strayStep = .ok [strayWarning] := by
  have hreach : Validation.checkReachability strayStep = [strayWarning] := by cbv
  have hbranches : Validation.checkBranches strayStep = .ok [] := rfl
  rw [Validation.validate_eq_warnings rfl rfl rfl (by cbv) hbranches, hreach]
  rfl

def strayBlock : Block :=
  .sequence 5 [.leaf 1 ⟨"i", .input, [], none⟩,
    .loop 4 ⟨"a", .loop, [("loopCount", .int 2)], none⟩
      (.sequence 3 [.leaf 2 ⟨"p", .debug, [], none⟩] none none) .fixedCount
      [("count", .int 2)]] none none

/-- The step inside the loop is run, and the other one is not. -/
theorem mem_walkedIds_strayStep :
    (resolve ⟨strayStep, [strayWarning], validate_strayStep, rfl⟩).block = .ok strayBlock ∧
    ("p" : Text) ∈ strayBlock.walkedIds ∧ ("u" : Text) ∉ strayBlock.walkedIds := by
  have hresolve : (resolve ⟨strayStep, [strayWarning], validate_strayStep, rfl⟩).block =
      .ok strayBlock := by
    cbv
  have hiff := mem_walkedIds_resolve ⟨strayStep, [strayWarning], validate_strayStep, rfl⟩ hresolve
  refine ⟨hresolve, (hiff "p").mpr ⟨by decide, ?_⟩, fun hmem => ?_⟩
  · intro d hd _
    rw [List.mem_singleton.mp hd]
    decide
  · exact ((hiff "u").mp hmem).2 strayWarning (List.mem_singleton_self _) rfl rfl

end Resolution

end WorkflowCompiler
