import Mathlib
import WorkflowCompiler.Proofs.Emission.Binding
import WorkflowCompiler.Proofs.Emission.Run

/-! # Code that is bound and rooted

By induction over the rules of emission, whatever a task states is bound below what it refers to and
held by the constructs that the task gives. The code of a workflow ends with its root, which holds
the rest.
-/
namespace WorkflowCompiler.Emission
open Relation Statement

section Opened
variable {p : Progress}

theorem opens_opened (p : Progress) (label : Text) : Opens p (p.fresh label) (p.opened label) :=
  ⟨rfl, rfl, Identifier.Allocator.choose_not_mem _ _, rfl⟩

theorem opens_owned (p : Progress) (key label : Text) :
    Opens p (p.fresh label) (p.owned key label) :=
  ⟨rfl, rfl, Identifier.Allocator.choose_not_mem _ _, rfl⟩

theorem Tidy.opened (hp : Tidy p) (label : Text) : Tidy (p.opened label) :=
  (opens_opened p label).tidy hp

theorem Tidy.owned (hp : Tidy p) (key label : Text) : Tidy (p.owned key label) :=
  (opens_owned p key label).tidy hp

end Opened

/-- The nodes of a task fit their blocks, and what it stands behind is bound. -/
def Task.Apt (p : Progress) : Task → Prop
  | .whole b previous => b.Apt ∧ ∀ x, previous = some x → x ∈ bound p.statements
  | .items bs previous => (∀ b ∈ bs, b.Apt) ∧ ∀ x, previous = some x → x ∈ bound p.statements
  | .arm b _ _ _ => b.Apt
  | .routes arms _ _ => ∀ r ∈ arms, r.2.Apt
  | .members bs => ∀ b ∈ bs, b.Apt

section Constructs
variable {profile : Profile} (hprofile : profile ∈ Profile.builtIn) {p q r : Progress}
  {refs : List Text} {label : Text}
include hprofile

theorem references_sequence (s : Statement) {ident : Text}
    (h : s.args = sequenceArguments profile label ident refs) :
    s.references = refs ∧ refs ⊆ s.held profile := by
  constructor
  · simp [Statement.references, h, sequenceArguments, Expression.string, Expression.references]
  · intro x hx
    have harg : (childrenKeyword profile, Expression.names refs) ∈ s.args := by
      simp [h, sequenceArguments]
    exact mem_held harg (Profile.childrenKeyword_of_builtIn hprofile) (by simpa using hx)

theorem Binds.sequence (hr : Binds profile (p.opened label) refs r) (hp : Tidy p) :
    Binds profile p [p.fresh label]
      (r.stating (sequenceStatement profile label (p.fresh label) refs)) := by
  obtain ⟨hrefers, hheld⟩ :=
    references_sequence hprofile (sequenceStatement profile label (p.fresh label) refs) rfl
  exact (opens_opened p label).binds hp hr rfl (fun x hx => hr.refers x (hrefers ▸ hx)) hheld

theorem Binds.node {key : Text} (hr : Binds profile (p.owned key label) refs r) (hp : Tidy p)
    {template : Template} {node : Node} {parts : Parts} {predecessor : Option Text} {s : Statement}
    (hs : template.statement profile node (p.fresh label) label parts predecessor = .ok s)
    (hpredecessor : ∀ x, predecessor = some x → x ∈ bound p.statements)
    (hparts : parts.references ⊆ refs) (hown : refs ⊆ template.ownReferences parts) :
    Binds profile p [p.fresh label] (r.stating s) := by
  refine (opens_owned p key label).binds hp hr (Template.statement_ident hs) ?_ ?_
  · intro x hx
    rcases Template.mem_references_statement hs hx with hx | hx
    · exact hr.refers x (hparts hx)
    · exact hr.bound_of_bound (hpredecessor x hx)
  · exact List.Subset.trans hown (Template.ownReferences_subset_held hprofile hs)

theorem Makes.binds {task : Task} {es : List Expression} (h : Makes profile task p es q)
    (htask : task.Apt p) (hp : Tidy p) :
    Binds profile p (es.flatMap Expression.references) q := by
  have hnone : ∀ {p : Progress} (x : Text), none = some x → x ∈ bound p.statements :=
    fun _ hx => by cases hx
  induction h with
  | leaf _ hs =>
    exact Binds.node hprofile (.nil (hp.owned _ _)) hp hs htask.2 (List.Subset.refl _)
      (List.nil_subset _)
  | known _ hknown => exact .known hp (hp.shared _ (mem_of_lookup hknown))
  | single _ _ _ ih =>
    exact (ih ⟨htask.1.of_mem_children List.mem_cons_self, hnone⟩ hp).share _
  | shared _ _ _ _ ih =>
    have hq := ih ⟨fun b => htask.1.of_mem_children, hnone⟩ (hp.opened _)
    rw [Expression.flatMap_references_names] at hq
    exact (hq.sequence hprofile hp).share _
  | plain _ _ ih =>
    have hq := ih ⟨fun b => htask.1.of_mem_children, hnone⟩ (hp.opened _)
    rw [Expression.flatMap_references_names] at hq
    exact hq.sequence hprofile hp
  | container _ _ _ hs ih =>
    obtain ⟨hb, hpredecessor⟩ := htask
    have hq := ih ⟨fun b => hb.of_mem_children, hnone⟩ (hp.owned _ _)
    rw [Expression.flatMap_references_names] at hq
    cases hb with
    | sequence hk _ =>
      refine hq.node hprofile hp hs hpredecessor ?_ ?_
      · simp [Parts.references, Parts.inner]
      · simp [hk _ rfl, NodeKind.template, Template.ownReferences]
  | parallel _ hsorted _ hs ih =>
    obtain ⟨hb, hpredecessor⟩ := htask
    have hq := ih (fun b h => hb.of_mem_children (hsorted.mem_iff.mp h)) (hp.owned _ _)
    rw [Expression.flatMap_references_names] at hq
    cases hb with
    | parallel hk _ =>
      refine hq.node hprofile hp hs hpredecessor ?_ ?_
      · simp [Parts.references, Parts.inner]
      · simp [hk, NodeKind.template, Template.ownReferences]
  | conditional hport _ _ _ hs ihtrue ihfalse =>
    obtain ⟨hb, hpredecessor⟩ := htask
    cases hb with
    | branch hk htrue hfalse =>
      have hconditional := hk.resolve_right fun h => h.2 hport
      have hq := ihtrue htrue (hp.owned _ _)
      refine (hq.append (ihfalse hfalse hq.tidy)).node hprofile hp hs hpredecessor ?_ ?_
      · simp [Parts.references, Parts.inner]
      · simp [hconditional, NodeKind.template, Template.ownReferences]
  | outcome _ _ _ _ _ hs ihtrue ihfalse =>
    obtain ⟨hb, hpredecessor⟩ := htask
    cases hb with
    | branch _ htrue hfalse =>
      have hq := ihtrue htrue (hp.owned _ _)
      refine (hq.append (ihfalse hfalse hq.tidy)).node hprofile hp hs hpredecessor ?_ ?_
      · simp [Parts.references, Parts.inner]
      · simp [Template.ownReferences]
  | switch _ _ hs ih =>
    obtain ⟨hb, hpredecessor⟩ := htask
    cases hb with
    | switch hk hroutes =>
      have hq := ih hroutes (hp.owned _ _)
      refine hq.node hprofile hp hs hpredecessor ?_ ?_
      · simp [Parts.references, Parts.inner, Expression.references_list]
      · simp [hk, NodeKind.template, Template.ownReferences, Expression.references_list]
  | loop _ _ hs ih =>
    obtain ⟨hb, hpredecessor⟩ := htask
    cases hb with
    | loop hk hbody =>
      have hq := ih hbody (hp.owned _ _)
      refine hq.node hprofile hp hs hpredecessor ?_ ?_
      · split <;> simp [Parts.references, Parts.inner, Expression.references_list]
      · split <;> simp [hk, NodeKind.template, Template.ownReferences, Expression.references_list]
  | itemsNil | routesNil | membersNil => exact .nil hp
  | itemsCons _ _ ih ihrest =>
    obtain ⟨hbs, hprevious⟩ := htask
    obtain ⟨hb, hrest⟩ := List.forall_mem_cons.mp hbs
    have hq := ih ⟨hb, hprevious⟩ hp
    refine hq.append (ihrest ⟨hrest, fun x hx => ?_⟩ hq.tidy)
    split at hx
    · cases hx
    · cases hx
      exact hq.refers _ List.mem_cons_self
  | armShared _ _ ih => exact ih ⟨htask, hnone⟩ hp
  | armPlain _ _ ih =>
    have hq := ih ⟨fun b => htask.of_mem_children, hnone⟩ hp
    simpa [Expression.references, Expression.argumentReferences, sequenceArguments,
      Expression.string] using hq
  | routesCons _ _ ih ihrest =>
    obtain ⟨hb, hrest⟩ := List.forall_mem_cons.mp htask
    have hq := ih hb hp
    rw [List.flatMap_singleton] at hq
    rw [List.flatMap_cons, Expression.references]
    exact hq.append (ihrest hrest hq.tidy)
  | membersCons _ _ ih ihrest =>
    obtain ⟨hb, hrest⟩ := List.forall_mem_cons.mp htask
    have hq := ih ⟨hb, hnone⟩ hp
    exact hq.append (ihrest hrest hq.tidy)

end Constructs

/-- A block, and the items of a sequence, are bound by whatever is stated for them. -/
structure Bindable (profile : Profile) (b : Block) : Prop where
  whole : ∀ p predecessor, Tidy p → (∀ x, predecessor = some x → x ∈ bound p.statements) →
    Does True (reference profile b predecessor) p fun ident q => Binds profile p [ident] q
  items : ∀ p, Tidy p →
    Does True (itemReferences profile b) p fun refs q => Binds profile p refs q

theorem Bindable.alone {profile : Profile} {b : Block} (h : Bindable profile b) {p : Progress}
    (hp : Tidy p) :
    Does True (reference profile b none) p fun ident q => Binds profile p [ident] q :=
  h.whole p none hp fun _ hx => by cases hx

section Blocks
variable {profile : Profile} (hprofile : profile ∈ Profile.builtIn)
include hprofile

theorem bindable_of_apt {b : Block} (h : b.Apt) : Bindable profile b where
  whole p predecessor hp hpredecessor :=
    ((derived b).whole p predecessor).mono fun ident q hmade =>
      hmade.binds hprofile ⟨h, hpredecessor⟩ hp
  items p hp := by
    cases b with
    | sequence n items container key =>
      refine ((derived _).items _ _ _ _ rfl p).mono fun refs q hmade => ?_
      simpa using hmade.binds hprofile ⟨fun c => h.of_mem_children, fun _ hx => by cases hx⟩ hp
    | absent | leaf _ _ | parallel _ _ _ _ | branch _ _ _ _ _ _ | switch _ _ _ | loop _ _ _ _ _ =>
      rw [itemReferences]
      · exact does_pure (.nil hp)
      · simp

theorem binds_topReferences {b : Block} (h : b.Apt) :
    Does True (topReferences profile b) (.start profile)
      fun refs q => Binds profile (.start profile) refs q := by
  have hb := bindable_of_apt hprofile h
  have hstart := tidy_start profile
  have hwhole : Does True (do return [← reference profile b none]) (.start profile)
      fun refs q => Binds profile (.start profile) refs q :=
    (hb.alone hstart).bind fun ident q hq => does_pure hq
  unfold topReferences
  split
  · split
    · exact hb.items _ hstart
    · exact hwhole
  · exact hwhole

end Blocks

/-- A shared step, in a shared sequence under the same key. Two of the steps go by one name, and one
by the name of the root. -/
def sharedStep : Block :=
  .sequence 4 [.leaf 3 ⟨"b", .debug, [("name", .str "step")], none⟩] none (some "k")

end WorkflowCompiler.Emission
