import Mathlib
import WorkflowCompiler.Proofs.Emission.Reference
import WorkflowCompiler.Proofs.Identifier.Fresh
import WorkflowCompiler.Proofs.Template.Held

/-! # Bindings of an emission

The code of a block binds every identifier once, refers only to what is bound above, and holds
every construct under its root. This needs only that each node is of a kind its block stands for,
so it also covers blocks that no graph is resolved to.
-/
namespace WorkflowCompiler

/-- Every container in a block is of the kind that its block stands for. A split stands for a
conditional or, with a port, for the outcome of a step. -/
inductive Block.Apt : Block → Prop
  | absent : Apt .absent
  | leaf {n : Nat} {node : Node} : Apt (.leaf n node)
  | sequence {n : Nat} {items : List Block} {container : Option Node} {key : Option Text} :
    (∀ node, container = some node → node.kind = .sequential) → (∀ b ∈ items, Apt b) →
    Apt (.sequence n items container key)
  | parallel {n : Nat} {node : Node} {members : List Block} {join : JoinStrategy} :
    node.kind = .parallel → (∀ b ∈ members, Apt b) → Apt (.parallel n node members join)
  | branch {n : Nat} {node : Node} {condition : Value} {onTrue onFalse : Block}
    {outcomePort : Option Text} :
    (node.kind = .conditional ∨ node.kind.outcomePorts?.isSome ∧ outcomePort.getD [] ≠ []) →
    Apt onTrue → Apt onFalse → Apt (.branch n node condition onTrue onFalse outcomePort)
  | switch {n : Nat} {node : Node} {routes : List (Exit × Block)} : node.kind = .router →
    (∀ r ∈ routes, Apt r.2) → Apt (.switch n node routes)
  | loop {n : Nat} {node : Node} {body : Block} {kind : LoopKind} {params : Members} :
    node.kind = .loop → Apt body → Apt (.loop n node body kind params)

theorem Block.Apt.of_mem_children {b c : Block} (h : b.Apt) (hc : c ∈ b.children) : c.Apt := by
  cases h with
  | absent | leaf => cases hc
  | sequence _ hitems => exact hitems c hc
  | parallel _ hmembers => exact hmembers c hc
  | branch _ htrue hfalse =>
    rcases List.mem_pair.mp hc with rfl | rfl
    · exact htrue
    · exact hfalse
  | switch _ hroutes =>
    obtain ⟨r, hr, rfl⟩ := List.mem_map.mp hc
    exact hroutes r hr
  | loop _ hbody =>
    obtain rfl := List.mem_singleton.mp hc
    exact hbody

namespace Emission
open Relation Statement

/-- Everything is bound once, under an identifier that is taken, and below what it refers to. -/
structure Tidy (p : Progress) : Prop where
  distinct : (bound p.statements).Nodup
  taken : ∀ x ∈ bound p.statements, x ∈ p.allocator.taken
  defined : Defined p.statements
  shared : ∀ x ∈ p.shared, x.2 ∈ bound p.statements

theorem tidy_start (profile : Profile) : Tidy (.start profile) :=
  ⟨List.nodup_nil, fun _ h => absurd h List.not_mem_nil, defined_nil,
    fun _ h => absurd h List.not_mem_nil⟩

/-- An identifier is taken that was free before. -/
structure Opens (p : Progress) (ident : Text) (q : Progress) : Prop where
  statements : q.statements = p.statements
  shared : q.shared = p.shared
  free : ident ∉ p.allocator.taken
  taken : q.allocator.taken = ident :: p.allocator.taken

theorem Opens.tidy {p q : Progress} {ident : Text} (h : Opens p ident q) (hp : Tidy p) :
    Tidy q where
  distinct := h.statements ▸ hp.distinct
  taken x hx := by
    rw [h.statements] at hx
    rw [h.taken]
    exact List.mem_cons_of_mem _ (hp.taken x hx)
  defined := h.statements ▸ hp.defined
  shared := by
    rw [h.shared, h.statements]
    exact hp.shared

/-- From one progress to the next some identifiers are bound, and the new ones are all held, at some
depth, by the constructs that are referred to. -/
structure Binds (profile : Profile) (p : Progress) (refs : List Text) (q : Progress) : Prop where
  tidy : Tidy q
  taken : p.allocator.taken ⊆ q.allocator.taken
  states : ∃ news, q.statements = p.statements ++ news ∧
    ∀ x ∈ bound news, x ∉ p.allocator.taken ∧
      ∃ r ∈ refs, ReflTransGen (Holds profile q.statements) r x
  refers : ∀ r ∈ refs, r ∈ bound q.statements

section Binds
variable {profile : Profile} {p q r : Progress} {refs refs' : List Text} {ident : Text}

theorem Binds.nil (hp : Tidy p) : Binds profile p [] p :=
  ⟨hp, List.Subset.refl _, ⟨[], by simp, fun _ h => absurd h List.not_mem_nil⟩,
    fun _ h => absurd h List.not_mem_nil⟩

theorem Binds.known (hp : Tidy p) (hident : ident ∈ bound p.statements) :
    Binds profile p [ident] p := by
  refine ⟨hp, List.Subset.refl _, ⟨[], by simp, fun _ h => absurd h List.not_mem_nil⟩, ?_⟩
  intro r hr
  obtain rfl := List.mem_singleton.mp hr
  exact hident

theorem Binds.statements_subset (h : Binds profile p refs q) : p.statements ⊆ q.statements := by
  obtain ⟨news, hnews, _⟩ := h.states
  rw [hnews]
  exact List.subset_append_left _ _

theorem Binds.bound_of_bound (h : Binds profile p refs q) {x : Text}
    (hx : x ∈ bound p.statements) : x ∈ bound q.statements :=
  List.map_subset _ h.statements_subset hx

theorem holds_mono {ss ts : List Statement} (h : ss ⊆ ts) {a b : Text}
    (hab : ReflTransGen (Holds profile ss) a b) : ReflTransGen (Holds profile ts) a b :=
  ReflTransGen.mono (fun _ _ => Holds.mono h) _ _ hab

theorem Binds.append (h : Binds profile p refs q) (h' : Binds profile q refs' r) :
    Binds profile p (refs ++ refs') r := by
  obtain ⟨news, hnews, hrooted⟩ := h.states
  obtain ⟨news', hnews', hrooted'⟩ := h'.states
  refine ⟨h'.tidy, List.Subset.trans h.taken h'.taken, ⟨news ++ news', ?_, ?_⟩, ?_⟩
  · rw [hnews', hnews, List.append_assoc]
  · intro x hx
    rw [bound_append] at hx
    rcases List.mem_append.mp hx with hx | hx
    · obtain ⟨hfree, root, hroot, hheld⟩ := hrooted x hx
      exact ⟨hfree, root, List.mem_append_left _ hroot, holds_mono h'.statements_subset hheld⟩
    · obtain ⟨hfree, root, hroot, hheld⟩ := hrooted' x hx
      exact ⟨fun hmem => hfree (h.taken hmem), root, List.mem_append_right _ hroot, hheld⟩
  · intro x hx
    rcases List.mem_append.mp hx with hx | hx
    · exact h'.bound_of_bound (h.refers x hx)
    · exact h'.refers x hx

/-- An identifier that was taken first is still not bound after its inner blocks. -/
theorem Opens.not_bound (h : Opens p ident q) (hp : Tidy p) (hb : Binds profile q refs r) :
    ident ∉ bound r.statements := by
  intro hmem
  obtain ⟨news, hnews, hrooted⟩ := hb.states
  rw [hnews, bound_append, h.statements] at hmem
  rcases List.mem_append.mp hmem with hmem | hmem
  · exact h.free (hp.taken ident hmem)
  · refine (hrooted ident hmem).1 ?_
    rw [h.taken]
    exact List.mem_cons_self

theorem Opens.binds (h : Opens p ident q) (hp : Tidy p) (hb : Binds profile q refs r)
    {s : Statement} (hident : s.ident = ident)
    (hrefers : ∀ x ∈ s.references, x ∈ bound r.statements) (hheld : refs ⊆ s.held profile) :
    Binds profile p [ident] { r with statements := r.statements ++ [s] } := by
  obtain ⟨news, hnews, hrooted⟩ := hb.states
  have hopened : ∀ x, x ∈ ident :: p.allocator.taken ↔ x ∈ q.allocator.taken := by
    intro x
    rw [h.taken]
  have htaken : ident ∈ r.allocator.taken := hb.taken ((hopened ident).mp List.mem_cons_self)
  refine ⟨⟨?_, ?_, hb.tidy.defined.concat hrefers, ?_⟩, ?_, ⟨news ++ [s], ?_, ?_⟩, ?_⟩
  · rw [bound_append, bound_singleton, hident]
    refine List.nodup_append.mpr ⟨hb.tidy.distinct, List.nodup_singleton _, ?_⟩
    intro x hx y hy
    obtain rfl := List.mem_singleton.mp hy
    exact fun heq => h.not_bound hp hb (heq ▸ hx)
  · intro x hx
    rw [bound_append, bound_singleton, hident] at hx
    rcases List.mem_append.mp hx with hx | hx
    · exact hb.tidy.taken x hx
    · obtain rfl := List.mem_singleton.mp hx
      exact htaken
  · intro x hx
    rw [bound_append]
    exact List.mem_append_left _ (hb.tidy.shared x hx)
  · exact fun x hx => hb.taken ((hopened x).mp (List.mem_cons_of_mem _ hx))
  · rw [hnews, h.statements, List.append_assoc]
  · intro x hx
    refine ⟨?_, ident, List.mem_singleton.mpr rfl, ?_⟩
    · rw [bound_append, bound_singleton, hident] at hx
      rcases List.mem_append.mp hx with hx | hx
      · exact fun hmem => (hrooted x hx).1 ((hopened x).mp (List.mem_cons_of_mem _ hmem))
      · obtain rfl := List.mem_singleton.mp hx
        exact h.free
    · rw [bound_append, bound_singleton, hident] at hx
      rcases List.mem_append.mp hx with hx | hx
      · obtain ⟨_, root, hroot, hreach⟩ := hrooted x hx
        have hstep : Holds profile (r.statements ++ [s]) ident root :=
          ⟨s, List.mem_append_right _ (List.mem_singleton.mpr rfl), hident, hheld hroot⟩
        exact .head hstep (holds_mono (List.subset_append_left _ _) hreach)
      · obtain rfl := List.mem_singleton.mp hx
        exact .refl
  · intro x hx
    obtain rfl := List.mem_singleton.mp hx
    rw [bound_append, bound_singleton, hident]
    exact List.mem_append_right _ (List.mem_singleton.mpr rfl)

theorem Binds.share (h : Binds profile p [ident] q) (key : Text) :
    Binds profile p [ident] { q with shared := (key, ident) :: q.shared } := by
  refine ⟨⟨h.tidy.distinct, h.tidy.taken, h.tidy.defined, ?_⟩, h.taken, h.states, h.refers⟩
  intro x hx
  rcases List.mem_cons.mp hx with rfl | hx
  · exact h.refers ident (List.mem_singleton.mpr rfl)
  · exact h.tidy.shared x hx

end Binds

end Emission

end WorkflowCompiler
