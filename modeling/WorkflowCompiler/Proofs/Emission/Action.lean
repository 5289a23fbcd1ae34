import Mathlib
import WorkflowCompiler.Emission.Basic
import WorkflowCompiler.Proofs.Value.Members

/-! # Actions of an emission

An action ends well and leaves what is said of it, or it fails for a reason that is given beforehand.
-/
namespace WorkflowCompiler.Emission

/-- An action ends well and leaves what a condition says, or an excuse holds. -/
def Does {α : Type} (excuse : Prop) (x : Emitting α) (p : Progress)
    (P : α → Progress → Prop) : Prop :=
  match x.run p with
  | .ok (a, q) => P a q
  | .error _ => excuse

section Actions
variable {α β : Type} {excuse : Prop} {p : Progress}

theorem does_pure {a : α} {P : α → Progress → Prop} (h : P a p) :
    Does excuse (pure a) p P := h

theorem Does.bind {x : Emitting α} {f : α → Emitting β} {M : α → Progress → Prop}
    {P : β → Progress → Prop} (h : Does excuse x p M)
    (hf : ∀ a q, M a q → Does excuse (f a) q P) : Does excuse (x >>= f) p P := by
  simp only [Does, StateT.run_bind] at h ⊢
  cases hx : x.run p with
  | error fault =>
    rw [hx] at h
    exact h
  | ok result =>
    rw [hx] at h
    exact hf result.1 result.2 h

theorem Does.mono {x : Emitting α} {P P' : α → Progress → Prop} (h : Does excuse x p P)
    (hp : ∀ a q, P a q → P' a q) : Does excuse x p P' := by
  simp only [Does] at h ⊢
  cases hx : x.run p with
  | error fault =>
    rw [hx] at h
    exact h
  | ok result =>
    rw [hx] at h
    exact hp result.1 result.2 h

theorem does_lift {e : Except Fault α} {P : α → Progress → Prop}
    (h : (∃ a, e = .ok a) ∨ excuse) (hp : ∀ a, e = .ok a → P a p) :
    Does excuse (liftM e : Emitting α) p P := by
  cases e with
  | ok a => exact hp a rfl
  | error fault => exact h.resolve_left (by simp)

theorem does_get {P : Progress → Progress → Prop} (h : P p p) :
    Does excuse (get : Emitting Progress) p P := h

theorem does_allocate {label : Text} {P : Text → Progress → Prop}
    (h : ∀ ident allocator, P ident { p with allocator }) :
    Does excuse (allocate label) p P := h _ _

theorem lookup_eq_none {table : List (Text × Text)} {key : Text} :
    table.lookup key = none ↔ key ∉ table.map (·.1) := by
  rw [List.lookup_eq_none_iff]
  constructor
  · intro h hmem
    obtain ⟨x, hx, rfl⟩ := List.mem_map.mp hmem
    simpa using h x hx
  · intro h x hx
    have hne : key ≠ x.1 := fun heq => h (List.mem_map.mpr ⟨x, hx, heq.symm⟩)
    simpa using hne

theorem mem_keys_iff {table : List (Text × Text)} {key : Text} :
    key ∈ table.map (·.1) ↔ ∃ ident, table.lookup key = some ident := by
  rw [← not_iff_not, ← lookup_eq_none, Option.eq_none_iff_forall_ne_some, not_exists]

theorem does_claim {key label : Text} {P : Text → Progress → Prop}
    (hkey : key ∉ p.claimed.map (·.1))
    (h : ∀ ident allocator, P ident { p with allocator, claimed := (key, ident) :: p.claimed }) :
    Does excuse (claim key label) p P := by
  have hfree := lookup_eq_none.mpr hkey
  refine Does.bind (does_get (P := fun a q => a = p ∧ q = p) ⟨rfl, rfl⟩) ?_
  rintro _ _ ⟨rfl, rfl⟩
  simp only [hfree, Option.isSome_none, Bool.false_eq_true, if_false]
  exact h _ _

theorem does_once_known {key ident : Text} {stated : Emitting Text}
    {P : Text → Progress → Prop} (hkey : p.shared.lookup key = some ident)
    (h : P ident p) : Does excuse (once key stated) p P := by
  refine Does.bind (does_get (P := fun a q => a = p ∧ q = p) ⟨rfl, rfl⟩) ?_
  rintro _ _ ⟨rfl, rfl⟩
  simp only [hkey]
  exact h

theorem does_once_new {key : Text} {stated : Emitting Text} {P : Text → Progress → Prop}
    (hkey : p.shared.lookup key = none)
    (h : Does excuse stated p fun ident q =>
      P ident { q with shared := (key, ident) :: q.shared }) :
    Does excuse (once key stated) p P := by
  refine Does.bind (does_get (P := fun a q => a = p ∧ q = p) ⟨rfl, rfl⟩) ?_
  rintro _ _ ⟨rfl, rfl⟩
  simp only [hkey]
  exact h.bind fun ident q hq => hq

theorem does_namedSequence {profile : Profile} {label : Text} {items : Emitting (List Text)}
    {P : Text → Progress → Prop}
    (h : ∀ ident allocator, Does excuse items { p with allocator } fun refs q =>
      P ident { q with statements :=
        q.statements ++ [sequenceStatement profile label ident refs] }) :
    Does excuse (namedSequence profile label items) p P := by
  refine Does.bind (does_allocate (P := fun ident q => ∃ allocator, q = { p with allocator })
    fun _ allocator => ⟨allocator, rfl⟩) ?_
  rintro ident _ ⟨allocator, rfl⟩
  exact (h ident allocator).bind fun refs q hq => hq

theorem does_stateNode {profile : Profile} {template : Template} {node : Node} {ident label : Text}
    {parts : Parts} {predecessor : Option Text} {P : Unit → Progress → Prop}
    (h : (∃ s, template.statement profile node ident label parts predecessor = .ok s) ∨ excuse)
    (hp : ∀ s, template.statement profile node ident label parts predecessor = .ok s →
      P () { p with statements := p.statements ++ [s] }) :
    Does excuse (stateNode profile template node ident label parts predecessor) p P :=
  Does.bind (does_lift (P := fun s q => q = p ∧
      template.statement profile node ident label parts predecessor = .ok s) h
    fun _ hs => ⟨rfl, hs⟩) fun s _ hs => hs.1 ▸ hp s hs.2

end Actions

end WorkflowCompiler.Emission
