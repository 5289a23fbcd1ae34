import Mathlib
import WorkflowCompiler.Proofs.Compilation.Code
import WorkflowCompiler.Proofs.Compilation.Complete
import WorkflowCompiler.Proofs.Emission.Outline
import WorkflowCompiler.Proofs.Graph.Relabelled
import WorkflowCompiler.Proofs.Resolution.Outlined

/-! # Code and the ids of edges

Two graphs without cycles whose edges differ in their ids, but not in their order at a port, have
the same code. The order of the edges that leave a parallel container does not show either: it
changes when a member is resolved, and with that the numbers of blocks, but not the outline.
-/
namespace WorkflowCompiler
open Resolution

namespace Graph.Relabels
variable {f : Edge → Edge} {g g' : Graph} (h : Relabels f g g')
include h

theorem joinOutlines_eq : joinOutlines g = joinOutlines g' := by
  have hbehind : ∀ a b : Text, (behind g a).contains b = (behind g' a).contains b := by
    intro a b
    rw [Bool.eq_iff_iff, List.contains_iff_mem, List.contains_iff_mem, mem_behind, mem_behind,
      h.leads_eq]
  funext chains
  simp only [joinOutlines, foremost, hbehind]

/-- A node is given the same outline from the same outlines of the chains behind it. -/
theorem entryOutline_eq (hg : g.Sound) (hg' : g'.Sound) {node : Node}
    (hnode : g.node? node.id = some node) (chains : Text → List Block) :
    entryOutline g chains node = entryOutline g' chains node := by
  by_cases hk : node.kind = .parallel
  · simp only [entryOutline, headOutlines, nexts, hk, h.sort_allTargets_eq, h.joinOutlines_eq]
  · have htargets : (Facts.ofGraph g).targets node.id = (Facts.ofGraph g').targets node.id := by
      funext port
      refine h.targets_eq hg hg' (fun node' hnode' => ?_) port
      rwa [← Option.some.inj (hnode.symm.trans hnode')]
    simp only [entryOutline, headOutlines, nexts, htargets, h.sort_allTargets_eq,
      h.joinOutlines_eq]

theorem outlines (hg : g.Sound) (hg' : g'.Sound) (ha : g.Acyclic) {id : Text} {items : List Block}
    (ho : Outlines g id items) : Outlines g' id items := by
  induction ho with
  | @intro id node chains hnode hsettled hnone _ ih =>
    obtain ⟨_, rfl⟩ := node?_eq_some hnode
    rw [h.leads_eq] at hnone ih
    have hchain : chainOutline g node.id (entryOutline g chains node) =
        chainOutline g' node.id (entryOutline g' chains node) := by
      simp only [chainOutline, List.contains_iff_mem, h.mem_merges_iff hg ha,
        h.entryOutline_eq hg hg' hnode]
    rw [hchain]
    exact .intro (h.node?_eq hg node.id ▸ hnode) hsettled hnone ih

end Graph.Relabels

/-- Graphs that differ in the ids of edges are resolved to blocks of one outline. -/
theorem outline_resolve_relabelled {v v' : Validated} (ha : v.graph.Acyclic) {f : Edge → Edge}
    (h : v.graph.Relabels f v'.graph) :
    (resolve v).block.toOption.map Block.outline =
      (resolve v').block.toOption.map Block.outline := by
  have hboth : (∃ root, (resolve v).block = .ok root) ↔ ∃ root, (resolve v').block = .ok root := by
    rw [exists_block_iff_settled v ha, exists_block_iff_settled v' (h.acyclic ha)]
    simp only [h.nodes.mem_iff, h.reached_iff v.sound]
  cases hblock : (resolve v).block with
  | error fault =>
    cases hblock' : (resolve v').block with
    | error fault' => rfl
    | ok root' =>
      obtain ⟨root, hroot⟩ := hboth.mpr ⟨root', hblock'⟩
      rw [hblock] at hroot
      cases hroot
  | ok root =>
    obtain ⟨root', hblock'⟩ := hboth.mp ⟨root, hblock⟩
    obtain ⟨_, _, _, hlog⟩ := exists_rootLog hblock
    obtain ⟨_, _, _, hlog'⟩ := exists_rootLog hblock'
    obtain ⟨chains, hchains, houtline⟩ := hlog.outlines v.sound ha
    obtain ⟨chains', hchains', houtline'⟩ := hlog'.outlines v'.sound (h.acyclic ha)
    rw [← h.entryIds_eq v.sound] at hchains' houtline'
    have hsame : v.graph.entryIds.map chains = v.graph.entryIds.map chains' := by
      refine List.map_congr_left fun id hid => ?_
      exact (h.outlines v.sound v'.sound ha (hchains id hid)).unique (hchains' id hid)
    rw [hblock', Except.toOption, Except.toOption, Option.map_some, Option.map_some, houtline,
      houtline', hsame, h.joinOutlines_eq]

/-- Edge ids matter only as the order within one port: graphs without cycles whose edges join the
same nodes by the same ports have the same code, or none, if the edges of a port come in the same
order wherever they do not leave a parallel container. -/
theorem compile_relabelled {v v' : Validated} (ha : v.graph.Acyclic) {f : Edge → Edge}
    (h : v.graph.Relabels f v'.graph) (profile : Profile) (name : Text) (ceiling : Option Int) :
    (compile profile name ceiling v.graph).outcome.source? =
      (compile profile name ceiling v'.graph).outcome.source? := by
  have hmany : tooManyNodes v.graph ceiling = tooManyNodes v'.graph ceiling := by
    rw [tooManyNodes, h.size_eq, tooManyNodes]
  have hcode : v.code? profile name = v'.code? profile name := by
    refine code?_congr_form (fun hb => ?_) (outline_resolve_relabelled ha h)
    rw [emit, Emission.ofBlock_outline hb, emit]
  cases htoo : tooManyNodes v.graph ceiling with
  | some d => simp only [compile, ← hmany, htoo]
  | none =>
    rw [outcome_compile v htoo, outcome_compile v' (hmany ▸ htoo), hcode]
    cases v'.code? profile name <;> rfl

/-- A parallel container beside a step. Its members meet behind it, at a merge point. -/
def forked : Graph where
  nodes := [⟨"i", .input, [], none⟩, ⟨"p", .parallel, [], none⟩, ⟨"k", .debug, [], none⟩,
    ⟨"a", .debug, [], none⟩, ⟨"b", .debug, [], none⟩, ⟨"m", .debug, [], none⟩]
  edges := [⟨"e1", "i", "p", none, none⟩, ⟨"e2", "i", "k", none, none⟩,
    ⟨"e3", "p", "a", none, none⟩, ⟨"e4", "p", "b", none, none⟩,
    ⟨"e5", "a", "m", none, none⟩, ⟨"e6", "b", "m", none, none⟩]

/-- Another id for an edge of the container, and a port that is spelled out. -/
def respell (e : Edge) : Edge :=
  if e.id = "e3" then { e with id := "x" }
  else if e.id = "e2" then { e with sourcePort := some "default" }
  else e

def reforked : Graph := { forked with edges := forked.edges.map respell }

theorem validate_forked : validate forked = .ok [] :=
  Validation.validate_eq_nil rfl rfl rfl (by cbv) (by cbv) rfl

theorem validate_reforked : validate reforked = .ok [] :=
  Validation.validate_eq_nil rfl rfl rfl (by cbv) (by cbv) rfl

theorem acyclic_forked : forked.Acyclic :=
  Graph.acyclic_of_rank ((["i", "p", "k", "a", "b", "m"] : List Text).idxOf ·) (by decide)

theorem relabels_forked : forked.Relabels respell reforked where
  nodes := .rfl
  edges := .rfl
  source := by decide
  target := by decide
  port := by decide
  order := by
    have horder : ∀ a ∈ forked.edges, ∀ b ∈ forked.edges, a.source = b.source → a.source ≠ "p" →
        Text.le a.id b.id → Text.le (respell a).id (respell b).id := by decide
    intro a ha b hb hsource _ hk
    refine horder a ha b hb hsource fun hp => ?_
    exact hk ⟨"p", .parallel, [], none⟩ (by rw [hp]; rfl) rfl

/-- The graph compiles: there is nothing in it that could be configured wrongly. -/
theorem exists_source_forked :
    ∃ source : Text, (compile .standard "w" none forked).outcome.source? = some source := by
  have hplain : ∀ n ∈ forked.nodes, n.config = [] := by simp [forked]
  have hshown : ∀ n ∈ forked.nodes, n.kind ≠ .delay ∧
      ∀ field ∈ n.shownFields, (n.settings.get field).isWritable = true := by decide
  have hids : ∀ n ∈ forked.nodes, n.id ∈ (["i", "p", "k", "a", "b", "m"] : List Text) :=
    fun n hn => show n.id ∈ forked.nodes.map (·.id) from List.mem_map_of_mem hn
  have hne : ∀ a ∈ (["i", "p", "k", "a", "b", "m"] : List Text), a ≠ [] := by decide
  have hmark : ∀ a ∈ (["i", "p", "k", "a", "b", "m"] : List Text),
      ∀ b ∈ (["i", "p", "k", "a", "b", "m"] : List Text), a ≠ b ++ "#outcome" := by decide
  have hgiven : ∀ n ∈ forked.nodes,
      ∀ field ∈ (["loopType", "joinStrategy", "delayUnit"] : List Text),
        n.config.get field ≠ .str [] := by
    intro n hn field _
    rw [hplain n hn]
    nofun
  let v : Validated := ⟨forked, [], validate_forked, rfl⟩
  obtain ⟨root, hroot⟩ := exists_block v acyclic_forked (v.settled hgiven)
  obtain ⟨l, made, q, hlog⟩ := exists_rootLog hroot
  rcases RootLog.program v acyclic_forked hgiven (fun n hn => hne _ (hids n hn))
    (fun n hn m hm => hmark _ (hids n hn) _ (hids m hm)) hlog .standard "w" with
    ⟨program, hprogram, _⟩ | ⟨_, hlong⟩
  · have hemit : emit .standard "w" root = .ok (program.lines .standard "w") := by
      rw [emit, hprogram]
      rfl
    exact ⟨_, congrArg Compilation.source? (outcome_compile_of_emit v hroot hemit)⟩
  · exact absurd (fun n hn _ => (Node.writable_iff (hshown n hn).1).mpr (hshown n hn).2) hlong

/-- The members are come upon in another order, and the code is the same. -/
theorem compile_relabelled_forked :
    (Facts.ofGraph forked).allTargets "p" = (["a", "b"] : List Text) ∧
    (Facts.ofGraph reforked).allTargets "p" = (["b", "a"] : List Text) ∧
    ∃ source : Text, (compile .standard "w" none forked).outcome.source? = some source ∧
      (compile .standard "w" none reforked).outcome.source? = some source := by
  refine ⟨by cbv, by cbv, ?_⟩
  obtain ⟨source, hsource⟩ := exists_source_forked
  have hsame := @compile_relabelled ⟨forked, [], validate_forked, rfl⟩
    ⟨reforked, [], validate_reforked, rfl⟩ acyclic_forked respell relabels_forked .standard "w" none
  exact ⟨source, hsource, hsame ▸ hsource⟩

end WorkflowCompiler
