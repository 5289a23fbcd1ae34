import Mathlib
import WorkflowCompiler.Proofs.Graph.Acyclic
import WorkflowCompiler.Proofs.Resolution.Strands

/-! # What stands side by side

The chains from some nodes go on until they come to merge points. There they end with shared
sequences, which are kept unless another one that is kept leads to them. What is run without a guard
is what these chains pass, what stands inside it in no arm, and what follows the kept merge points.
-/
namespace WorkflowCompiler

namespace Graph

def following (g : Graph) (id : Text) : List Text :=
  (g.node? id).elim [] (Resolution.nexts (.ofGraph g))

/-- Where the strands inside a node begin that are in no guarded arm. -/
def openLimbs (g : Graph) (id : Text) : List (List Text) :=
  (g.node? id).elim [] fun node =>
    ((Resolution.limbs (.ofGraph g) [] node).filter (·.guards.isEmpty)).map (·.starts)

/-- The nodes to which the chains from some nodes go on, up to the next merge points. -/
inductive InChain (g : Graph) (starts : List Text) : Text → Prop
  | start {id : Text} : id ∈ starts → InChain g starts id
  | next {id t : Text} : InChain g starts id → id ∉ g.merges → t ∈ g.following id →
    InChain g starts t

/-- A merge point has a shared sequence, except that there is none without a key. -/
def Shares (g : Graph) (id : Text) : Prop := id ∈ g.merges ∧ id ≠ []

/-- Another shared sequence with which the chains end leads to this one. -/
def Overtaken (g : Graph) (starts : List Text) (id : Text) : Prop :=
  g.Shares id ∧ ∃ m, g.Shares m ∧ g.InChain starts m ∧ m ≠ id ∧ Reaches g.edges m id

/-- What the chains from some nodes run without a guard: what they pass, what stands inside it in no
arm, and what follows a merge point, all but for the merge points that are overtaken. -/
inductive Unguarded (g : Graph) : List Text → Text → Prop
  | here {starts : List Text} {id : Text} : g.InChain starts id → ¬ g.Overtaken starts id →
    Unguarded g starts id
  | inside {starts inner : List Text} {id x : Text} : g.InChain starts id →
    ¬ g.Overtaken starts id → inner ∈ g.openLimbs id → Unguarded g inner x → Unguarded g starts x
  | beyond {starts : List Text} {id x : Text} : g.InChain starts id → ¬ g.Overtaken starts id →
    id ∈ g.merges → Unguarded g (g.following id) x → Unguarded g starts x

/-- What a node itself runs without a guard. -/
def Inside (g : Graph) (id x : Text) : Prop :=
  x = id ∨ ∃ inner ∈ g.openLimbs id, g.Unguarded inner x

/-- What is run without a guard from a node on, if it begins a chain of its own. -/
def Onward (g : Graph) (id x : Text) : Prop := g.Inside id x ∨ g.Unguarded (g.following id) x

/-- What the chains from some nodes run without a guard before they come to a shared sequence. -/
def Direct (g : Graph) (starts : List Text) (x : Text) : Prop :=
  ∃ id, g.InChain starts id ∧ ¬ g.Shares id ∧
    (g.Inside id x ∨ id ∈ g.merges ∧ g.Unguarded (g.following id) x)

/-- The shared sequences with which the chains from some nodes end. -/
def Ends (g : Graph) (starts : List Text) (m : Text) : Prop :=
  g.InChain starts m ∧ g.Shares m ∧ ¬ g.Overtaken starts m

section
variable {g : Graph} {starts : List Text} {x : Text}

theorem unguarded_iff :
    g.Unguarded starts x ↔ g.Direct starts x ∨ ∃ m, g.Ends starts m ∧ g.Onward m x := by
  have hsplit : g.Unguarded starts x ↔ ∃ id, g.InChain starts id ∧ ¬ g.Overtaken starts id ∧
      (g.Inside id x ∨ id ∈ g.merges ∧ g.Unguarded (g.following id) x) := by
    constructor
    · intro h
      cases h with
      | here hchain hkept => exact ⟨x, hchain, hkept, Or.inl (Or.inl rfl)⟩
      | inside hchain hkept hinner h =>
        exact ⟨_, hchain, hkept, Or.inl (Or.inr ⟨_, hinner, h⟩)⟩
      | beyond hchain hkept hmerge h => exact ⟨_, hchain, hkept, Or.inr ⟨hmerge, h⟩⟩
    · rintro ⟨id, hchain, hkept, (rfl | ⟨inner, hinner, h⟩) | ⟨hmerge, h⟩⟩
      · exact .here hchain hkept
      · exact .inside hchain hkept hinner h
      · exact .beyond hchain hkept hmerge h
  rw [hsplit]
  constructor
  · rintro ⟨id, hchain, hkept, h⟩
    by_cases hs : g.Shares id
    · exact Or.inr ⟨id, ⟨hchain, hs, hkept⟩, h.imp_right And.right⟩
    · exact Or.inl ⟨id, hchain, hs, h⟩
  · rintro (⟨id, hchain, hs, h⟩ | ⟨m, ⟨hchain, hs, hkept⟩, h⟩)
    · exact ⟨id, hchain, fun ho => hs ho.1, h⟩
    · exact ⟨m, hchain, hkept, h.imp_right fun h => ⟨hs.1, h⟩⟩

theorem InChain.mono {starts' : List Text} (hs : ∀ id ∈ starts, id ∈ starts')
    (h : g.InChain starts x) : g.InChain starts' x := by
  induction h with
  | start h => exact .start (hs _ h)
  | next _ hmerge ht ih => exact .next ih hmerge ht

theorem inChain_iff : g.InChain starts x ↔ ∃ s ∈ starts, g.InChain [s] x := by
  constructor
  · intro h
    induction h with
    | start h => exact ⟨_, h, .start (List.mem_singleton_self _)⟩
    | next _ hmerge ht ih =>
      obtain ⟨s, hs, h⟩ := ih
      exact ⟨s, hs, .next h hmerge ht⟩
  · rintro ⟨s, hs, h⟩
    exact h.mono fun id hid => List.mem_singleton.mp hid ▸ hs

theorem inChain_singleton {id : Text} :
    g.InChain [id] x ↔ x = id ∨ id ∉ g.merges ∧ g.InChain (g.following id) x := by
  constructor
  · intro h
    induction h with
    | start h => exact Or.inl (List.mem_singleton.mp h)
    | next _ hmerge ht ih =>
      rcases ih with rfl | ⟨hid, ih⟩
      · exact Or.inr ⟨hmerge, .start ht⟩
      · exact Or.inr ⟨hid, .next ih hmerge ht⟩
  · rintro (rfl | ⟨hid, h⟩)
    · exact .start (List.mem_singleton_self _)
    · induction h with
      | start h => exact .next (.start (List.mem_singleton_self _)) hid h
      | next _ hmerge ht ih => exact .next ih hmerge ht

theorem direct_iff : g.Direct starts x ↔ ∃ s ∈ starts, g.Direct [s] x := by
  simp only [Direct, @inChain_iff g starts]
  constructor
  · rintro ⟨id, ⟨s, hs, hchain⟩, h⟩
    exact ⟨s, hs, id, hchain, h⟩
  · rintro ⟨s, hs, id, hchain, h⟩
    exact ⟨id, ⟨s, hs, hchain⟩, h⟩

end

section Single
variable {g : Graph} {id x : Text}

theorem direct_merge (hid : id ∈ g.merges) : g.Direct [id] x ↔ id = [] ∧ g.Onward id x := by
  have hchain : ∀ u, g.InChain [id] u ↔ u = id := by
    intro u
    rw [inChain_singleton]
    exact or_iff_left fun h => h.1 hid
  simp only [Direct, hchain, Shares]
  constructor
  · rintro ⟨_, rfl, hs, h⟩
    exact ⟨by_contra fun hne => hs ⟨hid, hne⟩, h.imp_right And.right⟩
  · rintro ⟨hempty, h⟩
    exact ⟨id, rfl, fun hs => hs.2 hempty, h.imp_right fun h => ⟨hid, h⟩⟩

theorem ends_merge (hid : id ∈ g.merges) {m : Text} : g.Ends [id] m ↔ m = id ∧ id ≠ [] := by
  have hchain : ∀ u, g.InChain [id] u ↔ u = id := by
    intro u
    rw [inChain_singleton]
    exact or_iff_left fun h => h.1 hid
  simp only [Ends, hchain]
  constructor
  · rintro ⟨rfl, hs, _⟩
    exact ⟨rfl, hs.2⟩
  · rintro ⟨rfl, hne⟩
    refine ⟨rfl, ⟨hid, hne⟩, ?_⟩
    rintro ⟨_, m', _, hm', hne', _⟩
    exact hne' ((hchain m').mp hm')

theorem direct_step (hid : id ∉ g.merges) :
    g.Direct [id] x ↔ g.Inside id x ∨ g.Direct (g.following id) x := by
  simp only [Direct, @inChain_singleton g _ id]
  constructor
  · rintro ⟨u, rfl | ⟨_, hchain⟩, hs, h⟩
    · exact Or.inl (h.resolve_right fun h => hid h.1)
    · exact Or.inr ⟨u, hchain, hs, h⟩
  · rintro (h | ⟨u, hchain, hs, h⟩)
    · exact ⟨id, Or.inl rfl, fun hs => hid hs.1, Or.inl h⟩
    · exact ⟨u, Or.inr ⟨hid, hchain⟩, hs, h⟩

theorem ends_step (hid : id ∉ g.merges) {m : Text} : g.Ends [id] m ↔ g.Ends (g.following id) m := by
  have hchain : ∀ u, g.Shares u → (g.InChain [id] u ↔ g.InChain (g.following id) u) := by
    intro u hu
    rw [inChain_singleton]
    constructor
    · rintro (rfl | h)
      · exact absurd hu.1 hid
      · exact h.2
    · exact fun h => Or.inr ⟨hid, h⟩
  simp only [Ends, Overtaken]
  constructor
  · rintro ⟨hm, hs, ho⟩
    refine ⟨(hchain m hs).mp hm, hs, ?_⟩
    rintro ⟨_, m', hs', hm', h⟩
    exact ho ⟨hs, m', hs', (hchain m' hs').mpr hm', h⟩
  · rintro ⟨hm, hs, ho⟩
    refine ⟨(hchain m hs).mpr hm, hs, ?_⟩
    rintro ⟨_, m', hs', hm', h⟩
    exact ho ⟨hs, m', hs', (hchain m' hs').mp hm', h⟩

/-- Several chains end with what one of them ends with, unless the end of another one leads there. -/
theorem Acyclic.ends_iff (ha : g.Acyclic) {starts : List Text} {m : Text} :
    g.Ends starts m ↔ (∃ s ∈ starts, g.Ends [s] m) ∧
      ¬ ∃ m', (∃ s ∈ starts, g.Ends [s] m') ∧ Relation.TransGen (Leads g.edges) m' m := by
  constructor
  · rintro ⟨hm, hshares, hkept⟩
    obtain ⟨s, hs, hchain⟩ := inChain_iff.mp hm
    refine ⟨⟨s, hs, hchain, hshares, ?_⟩, ?_⟩
    · rintro ⟨_, m', hshares', hm', h⟩
      exact hkept ⟨hshares, m', hshares', inChain_iff.mpr ⟨s, hs, hm'⟩, h⟩
    · rintro ⟨m', ⟨s', hs', hm', hshares', _⟩, hpath⟩
      exact hkept ⟨hshares, m', hshares', inChain_iff.mpr ⟨s', hs', hm'⟩,
        ha.ne_of_transGen hpath, hpath.to_reflTransGen⟩
  · rintro ⟨⟨s, hs, hm, hshares, _⟩, hnone⟩
    refine ⟨inChain_iff.mpr ⟨s, hs, hm⟩, hshares, ?_⟩
    rintro ⟨_, m', hshares', hm', hne, hr⟩
    obtain ⟨s', hs', hm'⟩ := inChain_iff.mp hm'
    -- the first one of the merge points on the way of the other chain is where that chain ends
    obtain ⟨first, ⟨hfirst, hchain⟩, hreach, hmin⟩ :=
      ha.exists_first (P := fun id => g.Shares id ∧ g.InChain [s'] id) ⟨hshares', hm'⟩
    refine hnone ⟨first, ⟨s', hs', hchain, hfirst, ?_⟩, ?_⟩
    · rintro ⟨_, u, hu, huchain, hune, hur⟩
      exact hmin u ⟨hu, huchain⟩ (transGen_of_ne hur hune)
    · exact Relation.TransGen.trans_right hreach (transGen_of_ne hr hne)

end Single

end Graph

namespace Resolution

/-- Only the heads at which to stop depend on where the strands inside a node stand. -/
theorem limbs_parts (facts : Facts) (stop stop' : List Text) (node : Node) :
    (limbs facts stop node).map (fun s => (s.guards, s.starts)) =
      (limbs facts stop' node).map (fun s => (s.guards, s.starts)) := by
  cases hc : node.kind.isContainer with
  | true => cases hk : node.kind <;> simp_all [limbs, NodeKind.isContainer]
  | false =>
    simp only [limbs_step _ _ hc]
    split
    · rfl
    · split <;> rfl

theorem mem_openLimbs {g : Graph} {id : Text} {node : Node} (hnode : g.node? id = some node)
    (stop : List Text) {starts : List Text} : starts ∈ g.openLimbs id ↔
      ∃ s ∈ limbs (.ofGraph g) stop node, s.guards = [] ∧ s.starts = starts := by
  have hparts : ∀ stop, (∃ s ∈ limbs (.ofGraph g) stop node, s.guards = [] ∧ s.starts = starts) ↔
      ([], starts) ∈ (limbs (.ofGraph g) stop node).map (fun s => (s.guards, s.starts)) := by
    simp [Prod.ext_iff]
  rw [hparts, limbs_parts _ stop [], ← hparts]
  simp [Graph.openLimbs, hnode, and_assoc]

theorem following_eq {g : Graph} {id : Text} {node : Node} (hnode : g.node? id = some node) :
    g.following id = nexts (.ofGraph g) node := by
  simp [Graph.following, hnode]

end Resolution

namespace Graph
open Relation Resolution

/-- An edge that is not guarded leads from a node to another one. -/
def Passes (g : Graph) (a b : Text) : Prop :=
  ∃ e ∈ g.edges, e.source = a ∧ e.target = b ∧ g.guard? e = none

/-- The levels that a node opens: what follows it, and what stands inside it in no arm. -/
def levels (g : Graph) (id : Text) : List (List Text) := g.following id :: g.openLimbs id

section Passing
variable {g : Graph} {a b : Text}

theorem Passes.leads (h : g.Passes a b) : Leads g.edges a b := by
  obtain ⟨e, he, hs, ht, _⟩ := h
  exact ⟨e, he, hs, ht⟩

theorem mem_levels_iff {id : Text} {node : Node} (hnode : g.node? id = some node)
    {starts : List Text} : starts ∈ g.levels id ↔
      ∃ s ∈ strands (.ofGraph g) none [] node, s.guards = [] ∧ s.starts = starts := by
  rw [levels, List.mem_cons, mem_openLimbs hnode [], following_eq hnode]
  simp only [strands, List.mem_append, List.mem_singleton, or_and_right, exists_or,
    exists_eq_left]
  rw [or_comm]
  refine or_congr Iff.rfl ?_
  simp [continuation, eq_comm]

theorem passes_of_mem_levels {starts : List Text} (hs : starts ∈ g.levels a) (hb : b ∈ starts) :
    g.Passes a b := by
  cases hnode : g.node? a with
  | none =>
    have hempty : g.levels a = [[]] := by simp [levels, following, openLimbs, hnode]
    rw [hempty, List.mem_singleton] at hs
    rw [hs] at hb
    exact absurd hb List.not_mem_nil
  | some node =>
    obtain ⟨s, hmem, hguards, rfl⟩ := (mem_levels_iff hnode).mp hs
    obtain ⟨_, rfl⟩ := node?_eq_some hnode
    obtain ⟨e, he, hsource, htarget, hg⟩ := exists_edge_of_mem_strands hnode hmem hb
    rw [hguards] at hg
    exact ⟨e, he, hsource, htarget, by simpa using hg⟩

theorem Sound.exists_level (hg : g.Sound) (h : g.Passes a b) :
    ∃ starts ∈ g.levels a, b ∈ starts := by
  obtain ⟨e, he, rfl, rfl, hguard⟩ := h
  obtain ⟨node, _, hnode, _⟩ := hg.leaves e he
  obtain ⟨_, hid⟩ := node?_eq_some hnode
  obtain ⟨s, hs, ht, hguards⟩ := exists_strand_of_edge hg (hid ▸ hnode) he hid.symm none []
  rw [hguard] at hguards
  exact ⟨s.starts, (mem_levels_iff hnode).mpr ⟨s, hs, hguards, rfl⟩, ht⟩

theorem InChain.passes {starts : List Text} {x : Text} (h : g.InChain starts x) :
    ∃ s ∈ starts, ReflTransGen g.Passes s x := by
  induction h with
  | start h => exact ⟨_, h, .refl⟩
  | next _ _ ht ih =>
    obtain ⟨s, hs, hpath⟩ := ih
    exact ⟨s, hs, hpath.tail (passes_of_mem_levels List.mem_cons_self ht)⟩

theorem Unguarded.passes {starts : List Text} {x : Text} (h : g.Unguarded starts x) :
    ∃ s ∈ starts, ReflTransGen g.Passes s x := by
  induction h with
  | here hchain _ => exact hchain.passes
  | inside hchain _ hinner _ ih =>
    obtain ⟨s, hs, hpath⟩ := hchain.passes
    obtain ⟨t, ht, hrest⟩ := ih
    have hstep := passes_of_mem_levels (List.mem_cons_of_mem _ hinner) ht
    exact ⟨s, hs, (hpath.tail hstep).trans hrest⟩
  | beyond hchain _ _ _ ih =>
    obtain ⟨s, hs, hpath⟩ := hchain.passes
    obtain ⟨t, ht, hrest⟩ := ih
    exact ⟨s, hs, (hpath.tail (passes_of_mem_levels List.mem_cons_self ht)).trans hrest⟩

end Passing

/-- Whatever a path without guards leads to from a level is run without a guard there. -/
def RunsAll (g : Graph) (starts : List Text) : Prop :=
  ∀ s ∈ starts, ∀ x, ReflTransGen g.Passes s x → g.Unguarded starts x

section RunsAll
variable {g : Graph} {openly : Text → Prop} (hg : g.Sound) (ha : g.Acyclic)
  (hopen : ∀ {a b}, openly a → g.Passes a b → openly b)
  (hmeet : ∀ m m', g.Shares m → g.Shares m' → m' ≠ m → openly m → openly m' →
    Reaches g.edges m' m → ReflTransGen g.Passes m' m)
include hg ha hopen hmeet

theorem runsAll_of_levels {starts : List Text} (hstarts : ∀ s ∈ starts, openly s)
    (hlevels : ∀ id, g.InChain starts id → ∀ inner ∈ g.levels id, g.RunsAll inner) :
    g.RunsAll starts := by
  have hchain : ∀ {id}, g.InChain starts id → openly id := by
    intro id h
    induction h with
    | start h => exact hstarts _ h
    | next _ _ ht ih => exact hopen ih (passes_of_mem_levels List.mem_cons_self ht)
  -- from a merge point that is kept, all that an edge without a guard leads to is run
  have hkept : ∀ {m x}, g.InChain starts m → m ∈ g.merges → ¬ g.Overtaken starts m →
      TransGen g.Passes m x → g.Unguarded starts x := by
    intro m x hm hmerge hkept hpath
    obtain ⟨t, hpass, hrest⟩ := TransGen.head'_iff.mp hpath
    obtain ⟨inner, hinner, ht⟩ := hg.exists_level hpass
    have hrun := hlevels m hm inner hinner t ht x hrest
    rcases List.mem_cons.mp hinner with rfl | hinner
    · exact .beyond hm hkept hmerge hrun
    · exact .inside hm hkept hinner hrun
  have hover : ∀ {y x}, g.Overtaken starts y → openly y → ReflTransGen g.Passes y x →
      g.Unguarded starts x := by
    rintro y x ⟨hy, m', hm', hchain', hne, hr⟩ hyopen hpath
    obtain ⟨m, ⟨hm, hmchain⟩, hmr, hmin⟩ :=
      ha.exists_first (P := fun id => g.Shares id ∧ g.InChain starts id) ⟨hm', hchain'⟩
    have hfirst : ¬ g.Overtaken starts m := by
      rintro ⟨_, u, hu, huchain, hune, hur⟩
      exact hmin u ⟨hu, huchain⟩ (transGen_of_ne hur hune)
    have hlead : TransGen (Leads g.edges) m y := .trans_right hmr (transGen_of_ne hr hne)
    have hmne := ha.ne_of_transGen hlead
    have hmy := hmeet y m hy hm hmne hyopen (hchain hmchain) hlead.to_reflTransGen
    rcases reflTransGen_iff_eq_or_transGen.mp hmy with heq | hmy
    · exact absurd heq.symm hmne
    · exact hkept hmchain hm.1 hfirst (hmy.trans_left hpath)
  suffices h : ∀ {y x}, ReflTransGen g.Passes y x → g.InChain starts y → g.Unguarded starts x from
    fun s hs x hpath => h hpath (.start hs)
  intro y x hpath
  induction hpath using ReflTransGen.head_induction_on with
  | refl =>
    intro hy
    by_cases hy' : g.Overtaken starts x
    · exact hover hy' (hchain hy) .refl
    · exact .here hy hy'
  | @head y z hpass hrest ih =>
    intro hy
    by_cases hy' : g.Overtaken starts y
    · exact hover hy' (hchain hy) (.head hpass hrest)
    by_cases hmerge : y ∈ g.merges
    · exact hkept hy hmerge hy' (.head' hpass hrest)
    obtain ⟨inner, hinner, hz⟩ := hg.exists_level hpass
    rcases List.mem_cons.mp hinner with rfl | hlimb
    · exact ih (.next hy hmerge hz)
    · exact .inside hy hy' hlimb (hlevels y hy inner hinner z hz x hrest)

/-- Every level behind a node that is led to without a guard runs all it leads to. -/
theorem runsAll_levels {id : Text} (hid : openly id) {starts : List Text}
    (hs : starts ∈ g.levels id) : g.RunsAll starts := by
  induction id using ha.wellFounded_swap.transGen.induction generalizing starts with
  | _ id ih =>
    have hstart : ∀ s ∈ starts, g.Passes id s := fun s h => passes_of_mem_levels hs h
    have hchain : ∀ x, g.InChain starts x → openly x ∧ TransGen (Leads g.edges) id x := by
      intro x h
      induction h with
      | start h => exact ⟨hopen hid (hstart _ h), .single (hstart _ h).leads⟩
      | next _ _ ht ih =>
        have hpass := passes_of_mem_levels List.mem_cons_self ht
        exact ⟨hopen ih.1 hpass, ih.2.tail hpass.leads⟩
    refine runsAll_of_levels hg ha hopen hmeet (fun s h => hopen hid (hstart s h)) ?_
    intro x hx inner hinner
    obtain ⟨hxopen, hpath⟩ := hchain x hx
    exact ih x (transGen_swap.mpr hpath) hxopen hinner

end RunsAll

end Graph

end WorkflowCompiler
