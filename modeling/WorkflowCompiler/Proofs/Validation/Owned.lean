import Mathlib
import WorkflowCompiler.Proofs.Validation.Snares

/-! # Who owns a cycle

The cycles of an accepted graph belong to loops. A component with a cycle has a loop that holds the
rest of it in its body, through which alone it is entered, and whose exit leads nowhere into it. A
closed walk that stays clear of this loop has an owner of its own, so loops may be nested.
-/
namespace WorkflowCompiler

namespace Graph
open Relation Validation

/-- What some node reaches and is reached from. -/
def IsComponent (edges : List Edge) (M : Set Text) : Prop :=
  ∃ a ∈ M, ∀ b, b ∈ M ↔ Reaches edges a b ∧ Reaches edges b a

/-- More than one node, or a node with an edge to itself. -/
def IsCyclic (edges : List Edge) (M : Set Text) : Prop :=
  (∃ a ∈ M, ∃ b ∈ M, a ≠ b) ∨ ∃ a ∈ M, Leads edges a a

theorem Sound.links_iff_leads {g : Graph} (hg : g.Sound) {a b : Text} :
    (successors g g.edges).Links a b ↔ Leads g.edges a b := by
  rw [links_successors]
  constructor
  · exact fun h => h.2.2
  · exact fun h => ⟨(hg.mem_nodeIds_of_leads h).1, (hg.mem_nodeIds_of_leads h).2, h⟩

theorem Sound.connected_iff {g : Graph} (hg : g.Sound) {a b : Text} :
    (successors g g.edges).Connected a b ↔ Reaches g.edges a b ∧ Reaches g.edges b a := by
  have hlinks : (successors g g.edges).Links = Leads g.edges := by
    funext x y
    exact propext hg.links_iff_leads
  rw [Successors.Connected, hlinks]

theorem IsComponent.reaches {edges : List Edge} {M : Set Text} (h : IsComponent edges M)
    {x y : Text} (hx : x ∈ M) (hy : y ∈ M) : Reaches edges x y := by
  obtain ⟨a, _, hM⟩ := h
  exact ((hM x).mp hx).2.trans ((hM y).mp hy).1

theorem IsComponent.mem_of_reaches {edges : List Edge} {M : Set Text} (h : IsComponent edges M)
    {x y : Text} (hx : x ∈ M) (hxy : Reaches edges x y) (hyx : Reaches edges y x) : y ∈ M := by
  obtain ⟨a, _, hM⟩ := h
  obtain ⟨hax, hxa⟩ := (hM x).mp hx
  exact (hM y).mpr ⟨hax.trans hxy, hyx.trans hxa⟩

theorem IsComponent.exists_leads {edges : List Edge} {M : Set Text} (h : IsComponent edges M)
    (hcyclic : IsCyclic edges M) {a : Text} (ha : a ∈ M) : ∃ b ∈ M, Leads edges a b := by
  have hother : ∀ b ∈ M, b ≠ a → ∃ c ∈ M, Leads edges a c := by
    intro b hb hne
    rcases ReflTransGen.cases_head (h.reaches ha hb) with heq | ⟨c, hl, hcb⟩
    · exact absurd heq.symm hne
    · exact ⟨c, h.mem_of_reaches ha (.single hl) (hcb.trans (h.reaches hb ha)), hl⟩
  rcases hcyclic with ⟨x, hx, y, hy, hne⟩ | ⟨x, hx, hl⟩
  · by_cases hxa : x = a
    · exact hother y hy fun hya => hne (hxa.trans hya.symm)
    · exact hother x hx hxa
  · by_cases hxa : x = a
    · subst hxa
      exact ⟨x, hx, hl⟩
    · exact hother x hx hxa

/-- A component with a cycle is a knot: it is one of the components that the check of cycles finds,
and that one is not trivial. -/
theorem Sound.knot_of_isComponent {g : Graph} (hg : g.Sound) {M : Set Text}
    (h : IsComponent g.edges M) (hcyclic : IsCyclic g.edges M) : Knot g.edges M := by
  obtain ⟨a, ha, hM⟩ := id h
  obtain ⟨b, hb, hl⟩ := h.exists_leads hcyclic ha
  have hnode : a ∈ (successors g g.edges).nodes := by
    rw [nodes_successors]
    exact (hg.mem_nodeIds_of_leads hl).1
  obtain ⟨c, hc, hac⟩ := (Successors.components_spec (successors g g.edges)).2 a hnode
  obtain ⟨r, _, hclass⟩ := (Successors.components_spec (successors g g.edges)).1 c hc
  have hmem : ∀ x, x ∈ M ↔ x ∈ c := by
    intro x
    rw [hM, ← hg.connected_iff, hclass]
    have hra := (hclass a).mp hac
    exact ⟨hra.trans, hra.symm.trans⟩
  have hnontrivial : (successors g g.edges).isTrivial c = false := by
    by_contra htrivial
    obtain ⟨only, rfl, hself⟩ := Successors.isTrivial_iff.mp (Bool.not_eq_false _ ▸ htrivial)
    obtain rfl := List.mem_singleton.mp hac
    obtain rfl := List.mem_singleton.mp ((hmem b).mp hb)
    exact hself (lookup_successors.mpr ⟨(hg.mem_nodeIds_of_leads hl).1, hl⟩)
  have heq : M = {m | m ∈ c} := Set.ext hmem
  rw [heq]
  exact Successors.knot_of_component (fun hlink => hg.links_iff_leads.mp hlink) hc hnontrivial

end Graph

namespace Validated
open Relation WorkflowCompiler.Graph Validation

/-- A component with a cycle is entered only through the loop that owns it: whatever enters past the
loop comes from the body, and so from the component. -/
theorem target_eq_owner (v : Validated) {M : Set Text} (hM : IsComponent v.graph.edges M)
    {head : Text} {owned : List Text} (howner : v.graph.Owner head owned M) {e : Edge}
    (he : e ∈ v.graph.edges) (hsource : e.source ∉ M) (htarget : e.target ∈ M) :
    e.target = head := by
  by_contra hne
  obtain ⟨_, henter, _⟩ := owns_iff.mp howner.owns
  rcases henter e he (howner.holds _ htarget) hne with hbody | hhead
  · have hdown : Reaches v.graph.edges head e.source :=
      (transGen_of_mem_loopBody hbody).to_reflTransGen
    have hback : Reaches v.graph.edges e.source head :=
      .head ⟨e, he, rfl, rfl⟩ (hM.reaches htarget howner.mem)
    exact hsource (hM.mem_of_reaches howner.mem hdown hback)
  · exact hsource (hhead ▸ howner.mem)

/-- Every component with a cycle has a loop that owns it, and so has every closed walk. -/
theorem cycles_owned (v : Validated) :
    (∀ M : Set Text, IsComponent v.graph.edges M → IsCyclic v.graph.edges M →
      ∃ head ∈ M, isLoop v.graph head ∧
        (∀ x ∈ M, x ≠ head → x ∈ loopBody v.graph.edges head) ∧
        (∀ e ∈ v.graph.edges, e.source ∉ M → e.target ∈ M → e.target = head) ∧
        ∀ x ∈ M, x ≠ head → x ∉ reachableFromPort v.graph.edges head (some "exit")) ∧
    ∀ (start : Text) (walk : List Edge), walk ≠ [] → v.graph.IsPath start walk start →
      ∃ head ∈ walk.map (·.source), isLoop v.graph head ∧
        ∀ x ∈ walk.map (·.source), x ≠ head → x ∈ loopBody v.graph.edges head := by
  constructor
  · intro M hM hcyclic
    obtain ⟨head, owned, howner⟩ := v.exists_owner (v.sound.knot_of_isComponent hM hcyclic)
    obtain ⟨hbody, _, hexit⟩ := owns_iff.mp howner.owns
    have hinside : ∀ x ∈ M, x ≠ head → x ∈ loopBody v.graph.edges head :=
      fun x hx hne => (hbody x (howner.holds x hx)).resolve_left hne
    refine ⟨head, howner.mem, howner.isLoop, hinside, ?_, ?_⟩
    · intro e he hsource htarget
      exact v.target_eq_owner hM howner he hsource htarget
    · intro x hx hne hregion
      exact hexit x hregion (hinside x hx hne)
  · intro start walk hne hwalk
    obtain ⟨head, owned, howner⟩ := v.exists_owner (hwalk.knot hne)
    obtain ⟨hbody, _, _⟩ := owns_iff.mp howner.owns
    refine ⟨head, howner.mem, howner.isLoop, ?_⟩
    intro x hx hneq
    exact (hbody x (howner.holds x hx)).resolve_left hneq

end Validated

/-- A loop in the body of another one. -/
def loopInLoop : Graph where
  nodes := [⟨"i", .input, [], none⟩, ⟨"a", .loop, [("loopCount", .int 2)], none⟩,
    ⟨"b", .loop, [("loopCount", .int 3)], none⟩, ⟨"p", .debug, [], none⟩, ⟨"o", .output, [], none⟩]
  edges := [⟨"e1", "i", "a", none, none⟩, ⟨"e2", "a", "b", some "loop", none⟩,
    ⟨"e3", "b", "p", some "loop", none⟩, ⟨"e4", "p", "b", none, none⟩,
    ⟨"e5", "b", "a", some "exit", none⟩, ⟨"e6", "a", "o", some "exit", none⟩]

theorem validate_loopInLoop : validate loopInLoop = .ok [] :=
  Validation.validate_eq_nil rfl rfl rfl (by cbv) (by cbv) rfl

theorem isComponent_loopInLoop :
    Graph.IsComponent loopInLoop.edges {x | x ∈ (["a", "b", "p"] : List Text)} := by
  have hreaches : ∀ {a b : Text}, Graph.Reaches loopInLoop.edges a b ↔
      b ∈ Graph.reachable loopInLoop.edges [a] := by
    intro a b
    rw [Graph.mem_reachable]
    simp
  have hdown : Graph.reachable loopInLoop.edges ["a"] = (["o", "p", "b", "a"] : List Text) := by
    decide
  have hback : ∀ b ∈ (["o", "p", "b", "a"] : List Text),
      b ∈ (["a", "b", "p"] : List Text) ↔ ("a" : Text) ∈ Graph.reachable loopInLoop.edges [b] := by
    decide
  refine ⟨"a", by simp, fun b => ?_⟩
  rw [hreaches, hreaches, hdown]
  constructor
  · intro hb
    have hmem : b ∈ (["o", "p", "b", "a"] : List Text) := by
      revert hb
      simp only [Set.mem_ofPred_eq, List.mem_cons, List.not_mem_nil]
      tauto
    exact ⟨hmem, (hback b hmem).mp hb⟩
  · exact fun ⟨hmem, hb⟩ => (hback b hmem).mpr hb

/-- The outer loop owns the component, and the inner one owns the walk through its own body. -/
theorem cycles_owned_loopInLoop :
    (∃ head ∈ {x | x ∈ (["a", "b", "p"] : List Text)}, Validation.isLoop loopInLoop head ∧
      (∀ x ∈ {x | x ∈ (["a", "b", "p"] : List Text)}, x ≠ head →
        x ∈ Graph.loopBody loopInLoop.edges head) ∧
      (∀ e ∈ loopInLoop.edges, e.source ∉ {x | x ∈ (["a", "b", "p"] : List Text)} →
        e.target ∈ {x | x ∈ (["a", "b", "p"] : List Text)} → e.target = head) ∧
      ∀ x ∈ {x | x ∈ (["a", "b", "p"] : List Text)}, x ≠ head →
        x ∉ Graph.reachableFromPort loopInLoop.edges head (some "exit")) ∧
    ∃ head ∈ (["b", "p"] : List Text), Validation.isLoop loopInLoop head ∧
      ∀ x ∈ (["b", "p"] : List Text), x ≠ head → x ∈ Graph.loopBody loopInLoop.edges head := by
  have howned := Validated.cycles_owned ⟨_, _, validate_loopInLoop, rfl⟩
  constructor
  · exact howned.1 _ isComponent_loopInLoop (Or.inl ⟨"a", by simp, "b", by simp, by decide⟩)
  · have hwalk : loopInLoop.IsPath "b"
        [⟨"e3", "b", "p", some "loop", none⟩, ⟨"e4", "p", "b", none, none⟩] "b" :=
      ⟨by simp [loopInLoop], rfl, by simp [loopInLoop], rfl, rfl⟩
    exact howned.2 "b" _ (by simp) hwalk

end WorkflowCompiler
