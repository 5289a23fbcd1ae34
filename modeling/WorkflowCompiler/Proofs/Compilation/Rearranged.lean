import Mathlib
import WorkflowCompiler.Proofs.Compilation.Code
import WorkflowCompiler.Proofs.Validation.Canonical
import WorkflowCompiler.Proofs.Validation.Reordered

/-! # Code does not depend on the layout of a document

Graphs that differ in the order of nodes, edges and members, or in where their nodes are drawn,
compile to the same code, and the same is said about them.
-/
namespace WorkflowCompiler
open WorkflowCompiler.Graph Resolution

theorem Node.canonical_canonical (node : Node) : node.canonical.canonical = node.canonical := by
  have hobject := Value.canonical_canonical (.object node.config)
  rw [Value.canonical_object, Value.canonical_object] at hobject
  rw [Node.canonical, config_canonical, Value.object.inj hobject, id_canonical, kind_canonical,
    ← Node.canonical]

/-- The same code, and the same diagnostics in any order. -/
structure Compilation.Same (c c' : Compilation) : Prop where
  source : c.source? = c'.source?
  diagnostics : c.diagnostics.Perm c'.diagnostics

theorem Compilation.Same.symm {c c' : Compilation} (h : c.Same c') : c'.Same c :=
  ⟨h.source.symm, h.diagnostics.symm⟩

theorem Compilation.Same.trans {a b c : Compilation} (h : a.Same b) (h' : b.Same c) : a.Same c :=
  ⟨h.source.trans h'.source, h.diagnostics.trans h'.diagnostics⟩

theorem judge_of_fault {g : Graph} {fault : Fault} (h : validate g = .error fault) :
    judge g = .error fault := by
  unfold judge
  split
  next fault' h' =>
    rw [h] at h'
    rw [Except.error.inj h']
  next ds h' =>
    rw [h] at h'
    cases h'

theorem judge_of_errors {g : Graph} {ds : List Diagnostic} (h : validate g = .ok ds)
    (herrors : hasErrors ds = true) : judge g = .ok (.rejected ds) := by
  unfold judge
  split
  next fault h' =>
    rw [h] at h'
    cases h'
  next ds' h' =>
    obtain rfl : ds = ds' := by
      rw [h] at h'
      exact Except.ok.inj h'
    rw [dif_neg (by simp [herrors])]

/-- Graphs of one size, with the same findings and the same code, compile to the same. -/
theorem compile_same {g g' : Graph} (hsize : g.size = g'.size)
    (hfindings : (validate g).toOption.map Multiset.ofList =
      (validate g').toOption.map Multiset.ofList)
    (hcode : ∀ v v' : Validated, v.graph = g → v'.graph = g' → ∀ profile name,
      v.code? profile name = v'.code? profile name)
    (profile : Profile) (name : Text) (ceiling : Option Int) :
    (compile profile name ceiling g).outcome.Same (compile profile name ceiling g').outcome := by
  have htoo : tooManyNodes g ceiling = tooManyNodes g' ceiling := by
    rw [tooManyNodes, hsize, tooManyNodes]
  cases hmany : tooManyNodes g ceiling with
  | some d =>
    simp only [compile, ← htoo, hmany]
    exact ⟨rfl, .rfl⟩
  | none =>
    obtain ⟨fault, fault', hx, hy⟩ | ⟨ds, ds', hx, hy, hds⟩ := cases_of_toOption_map_eq hfindings
    · simp only [compile, ← htoo, hmany, judge_of_fault hx, judge_of_fault hy]
      exact ⟨rfl, .rfl⟩
    have hperm : ds.Perm ds' := Multiset.coe_eq_coe.mp hds
    have herrors : hasErrors ds = hasErrors ds' := hperm.any_eq
    cases hclean : hasErrors ds with
    | true =>
      simp only [compile, ← htoo, hmany, judge_of_errors hx hclean,
        judge_of_errors hy (herrors ▸ hclean)]
      exact ⟨rfl, hperm⟩
    | false =>
      have hv := outcome_compile ⟨g, ds, hx, hclean⟩ hmany profile name
      have hv' := outcome_compile ⟨g', ds', hy, herrors ▸ hclean⟩ (htoo ▸ hmany) profile name
      rw [hcode ⟨g, ds, hx, hclean⟩ ⟨g', ds', hy, herrors ▸ hclean⟩ rfl rfl] at hv
      dsimp only at hv hv'
      rw [hv, hv']
      cases Validated.code? ⟨g', ds', hy, herrors ▸ hclean⟩ profile name with
      | none => exact ⟨rfl, .rfl⟩
      | some source => exact ⟨rfl, hperm⟩

theorem compile_canonical (g : Graph) (profile : Profile) (name : Text) (ceiling : Option Int) :
    (compile profile name ceiling g).outcome.Same
      (compile profile name ceiling g.canonical).outcome := by
  refine compile_same g.size_canonical.symm ?_ ?_ profile name ceiling
  · rw [Validation.validate_canonical]
  · intro v v' hg hg'
    refine code?_of_alike (fun id _ => ?_) (fun id _ => ?_) (fun id _ => ?_) ?_ ?_
    · rw [hg', hg, node?_canonical, Option.map_map]
      congr 1
      funext node
      exact node.canonical_canonical.symm
    · rw [hg', hg, edges_canonical]
    · rw [hg', hg, merges_canonical]
    · rw [hg', hg, entryIds_canonical]
    · rw [hg', hg, size_canonical]

theorem compile_reordered {g g' : Graph} (h : g.Reordered g') (profile : Profile) (name : Text)
    (ceiling : Option Int) :
    (compile profile name ceiling g).outcome.Same (compile profile name ceiling g').outcome := by
  have hsize : g.size = g'.size := h.nodes.length_eq
  refine compile_same hsize (Validation.validate_reordered h) ?_ profile name ceiling
  rintro v v' rfl rfl
  refine code?_of_alike (fun id _ => ?_) (fun id _ => ?_) (fun id _ => h.mem_merges_iff)
    h.entryIds_eq hsize.le
  · rw [h.node?_eq]
  · rw [sortEdges_congr h.edges h.edge_ids]

/-- Two graphs have the same nodes and edges. Their order, the order of members anywhere in a
configuration and where a node is drawn are left open. -/
structure Graph.Rearranged (g g' : Graph) : Prop where
  nodes : (g.nodes.map Node.canonical).Perm (g'.nodes.map Node.canonical)
  edges : g.edges.Perm g'.edges

/-- A graph with unique ids compiles to the same code however it is arranged, or to none, and the
diagnostics are the same. -/
theorem compile_rearranged {g g' : Graph} (h : g.Rearranged g')
    (hnodes : (g.nodes.map (·.id)).Nodup) (hedges : (g.edges.map (·.id)).Nodup)
    (profile : Profile) (name : Text) (ceiling : Option Int) :
    (compile profile name ceiling g).outcome.source? =
        (compile profile name ceiling g').outcome.source? ∧
      (compile profile name ceiling g).outcome.diagnostics.Perm
        (compile profile name ceiling g').outcome.diagnostics := by
  have hreordered : g.canonical.Reordered g'.canonical :=
    ⟨h.nodes, h.edges, g.ids_canonical.symm ▸ hnodes, hedges⟩
  have hsame := ((compile_canonical g profile name ceiling).trans
    (compile_reordered hreordered profile name ceiling)).trans
    (compile_canonical g' profile name ceiling).symm
  exact ⟨hsame.source, hsame.diagnostics⟩

/-- A step behind an input, and two steps that no entry leads to. -/
def greeting : Graph where
  nodes := [⟨"i", .input, [], none⟩,
    ⟨"a", .debug, [("name", .str "greet"), ("description", .str "d")], none⟩,
    ⟨"u", .debug, [], none⟩, ⟨"x", .debug, [], none⟩]
  edges := [⟨"e1", "i", "a", none, none⟩, ⟨"e2", "u", "x", none, none⟩]

/-- The same graph, drawn elsewhere and written down the other way round. -/
def greetingBackwards : Graph where
  nodes := [⟨"x", .debug, [], some (1, 2)⟩, ⟨"u", .debug, [], none⟩,
    ⟨"a", .debug, [("description", .str "d"), ("name", .str "greet")], some (3, 4)⟩,
    ⟨"i", .input, [], none⟩]
  edges := [⟨"e2", "u", "x", none, none⟩, ⟨"e1", "i", "a", none, none⟩]

theorem rearranged_greeting : greeting.Rearranged greetingBackwards := by
  have hnodes : greeting.nodes.map Node.canonical =
      (greetingBackwards.nodes.map Node.canonical).reverse := by
    cbv
  constructor
  · rw [hnodes]
    exact List.reverse_perm _
  · exact .swap _ _ _

def greetingWarnings : List Diagnostic :=
  [Validation.unreachableNode ⟨"u", .debug, [], none⟩,
    Validation.unreachableNode ⟨"x", .debug, [], none⟩]

theorem validate_greeting : validate greeting = .ok greetingWarnings := by
  have hreach : Validation.checkReachability greeting = greetingWarnings := by cbv
  have hbranches : Validation.checkBranches greeting = .ok [] := rfl
  rw [Validation.validate_eq_warnings rfl (by cbv) rfl (by cbv) hbranches, hreach]
  rfl

def greetingBlock : Block :=
  .sequence 3 [.leaf 1 ⟨"i", .input, [], none⟩,
    .leaf 2 ⟨"a", .debug, [("name", .str "greet"), ("description", .str "d")], none⟩] none none

/-- Both graphs compile, to one text and with the two warnings. -/
theorem compile_rearranged_greeting : ∃ source,
    (compile .standard "w" none greeting).outcome = .compiled source greetingWarnings ∧
    (compile .standard "w" none greetingBackwards).outcome.source? = some source ∧
    greetingWarnings.Perm (compile .standard "w" none greetingBackwards).outcome.diagnostics := by
  obtain ⟨hsource, hdiagnostics⟩ := compile_rearranged rearranged_greeting
    (by decide) (by decide) .standard "w" none
  have hresolve : (resolve ⟨greeting, _, validate_greeting, rfl⟩).block = .ok greetingBlock := by
    cbv
  have hemit : ∃ lines, emit .standard "w" greetingBlock = .ok lines := ⟨_, rfl⟩
  obtain ⟨lines, hlines⟩ := hemit
  have hcompile : (compile .standard "w" none greeting).outcome =
      .compiled (sourceText lines) greetingWarnings := outcome_compile_of_emit _ hresolve hlines
  rw [hcompile] at hsource hdiagnostics
  exact ⟨_, hcompile, hsource.symm, hdiagnostics⟩

end WorkflowCompiler
