import Mathlib
import WorkflowCompiler.Proofs.Graph.Around

/-! # Paths and snares

A path lists the edges along which it runs. A snare is what brings a chain back to a node that it is
still at: a path from an entry to the node, and a cycle from there that begins by another port than
the one into the body of a loop.
-/
namespace WorkflowCompiler.Graph
open Relation

/-- Edges that lead from one node to another one, each from where the last one ended. -/
def IsPath (g : Graph) : Text → List Edge → Text → Prop
  | a, [], b => a = b
  | a, e :: rest, b => e ∈ g.edges ∧ e.source = a ∧ IsPath g e.target rest b

section
variable {g : Graph} {a b c : Text} {path : List Edge}

theorem isPath_append {more : List Edge} :
    g.IsPath a (path ++ more) c ↔ ∃ b, g.IsPath a path b ∧ g.IsPath b more c := by
  induction path generalizing a with
  | nil => simp [IsPath]
  | cons e rest ih => simp [IsPath, ih, and_assoc]

theorem IsPath.mem_edges (h : g.IsPath a path b) {e : Edge} (he : e ∈ path) : e ∈ g.edges := by
  induction path generalizing a with
  | nil => exact absurd he List.not_mem_nil
  | cons first rest ih =>
    rcases List.mem_cons.mp he with rfl | he
    · exact h.1
    · exact ih h.2.2 he

theorem IsPath.target_mem (h : g.IsPath a path b) {e : Edge} (he : e ∈ path) :
    e.target ∈ path.map (·.source) ∨ e.target = b := by
  induction path generalizing a with
  | nil => exact absurd he List.not_mem_nil
  | cons first rest ih =>
    rcases List.mem_cons.mp he with rfl | he
    · cases rest with
      | nil => exact Or.inr h.2.2
      | cons next rest =>
        left
        rw [← h.2.2.2.1]
        simp
    · exact (ih h.2.2 he).imp_left (List.mem_cons_of_mem _)

theorem IsPath.exists_cut (h : g.IsPath a path b) {x : Text} (hx : x ∈ path.map (·.source)) :
    ∃ before e after, path = before ++ e :: after ∧ e.source = x ∧ g.IsPath a before x ∧
      g.IsPath x (e :: after) b := by
  obtain ⟨e, he, rfl⟩ := List.mem_map.mp hx
  obtain ⟨before, after, rfl⟩ := List.append_of_mem he
  obtain ⟨y, hbefore, hafter⟩ := isPath_append.mp h
  obtain rfl : e.source = y := hafter.2.1
  exact ⟨before, e, after, rfl, rfl, hbefore, hafter⟩

/-- A path that ends among some nodes but does not begin there enters them by an edge. -/
theorem IsPath.exists_enter {S : Set Text} (h : g.IsPath a path b) (ha : a ∉ S) (hb : b ∈ S) :
    ∃ before e after, path = before ++ e :: after ∧ e.source ∉ S ∧ e.target ∈ S ∧
      g.IsPath e.target after b := by
  induction path generalizing a with
  | nil =>
    obtain rfl : a = b := h
    exact absurd hb ha
  | cons first rest ih =>
    obtain ⟨he, rfl, hrest⟩ := h
    by_cases ht : first.target ∈ S
    · exact ⟨[], first, rest, rfl, ha, ht, hrest⟩
    · obtain ⟨before, e, after, rfl, hs, ht, hafter⟩ := ih hrest ht
      exact ⟨first :: before, e, after, rfl, hs, ht, hafter⟩

/-- A path whose edges stay among some nodes leads from node to node there. -/
theorem IsPath.reaches_within {S : Set Text} (h : g.IsPath a path b)
    (hS : ∀ e ∈ path, e.source ∈ S ∧ e.target ∈ S) :
    ReflTransGen (fun x y => Leads g.edges x y ∧ x ∈ S ∧ y ∈ S) a b := by
  induction path generalizing a with
  | nil =>
    obtain rfl : a = b := h
    exact .refl
  | cons first rest ih =>
    obtain ⟨he, rfl, hrest⟩ := h
    exact .head ⟨⟨first, he, rfl, rfl⟩, hS first List.mem_cons_self⟩
      (ih hrest fun e he => hS e (List.mem_cons_of_mem _ he))

theorem IsPath.reaches (h : g.IsPath a path b) : Reaches g.edges a b :=
  ReflTransGen.mono (fun _ _ h => h.1) _ _
    (h.reaches_within (S := Set.univ) fun _ _ => ⟨trivial, trivial⟩)

end

/-- A path from an entry leads to a node, and a cycle from there begins by another port than the one
into a body. No node is left twice. -/
def Snare (g : Graph) (id : Text) : Prop :=
  ∃ entry ∈ g.entryIds, ∃ path first cycle, g.IsPath entry path id ∧
    g.IsPath id (first :: cycle) id ∧ g.portOf? first ≠ some ("loop" : Text) ∧
    ((path ++ first :: cycle).map (·.source)).Nodup

theorem Snare.transGen {g : Graph} {id : Text} (h : g.Snare id) :
    TransGen (Leads g.edges) id id := by
  obtain ⟨_, _, _, first, cycle, _, hcycle, _, _⟩ := h
  obtain ⟨he, hs, hrest⟩ := hcycle
  exact .head' ⟨first, he, hs, rfl⟩ hrest.reaches

end WorkflowCompiler.Graph
