import Mathlib
import WorkflowCompiler.Graph.Components
import WorkflowCompiler.Proofs.Graph.Reach
import WorkflowCompiler.Proofs.Text.Order
import WorkflowCompiler.Proofs.Value.Members

/-! # Tarjan's search

A node is on the stack as long as it leads back to a node whose visit has not ended. The low link of
a node is the index of a node on the stack that it leads to, and it is at most the index of any node
below it that an edge from above leads to. So if the low link is the node's own index, then no edge
leads from the nodes above it to those below it, and what lies above is a component.
-/
namespace WorkflowCompiler.Graph.Successors
open Relation

def Links (succ : Successors) (a b : Text) : Prop := b ∈ succ.next a

theorem links_iff {succ : Successors} {a b : Text} : succ.Links a b ↔
    b ∈ (succ.lookup a).getD [] ∧ b ∈ succ.nodes := by
  simp [Links, next, nodes, List.mem_filter]

theorem mem_nodes_of_lookup {succ : Successors} {a b : Text} (h : b ∈ (succ.lookup a).getD []) :
    a ∈ succ.nodes := by
  cases hl : succ.lookup a with
  | none => simp [hl] at h
  | some targets =>
    exact List.mem_map_of_mem (mem_of_lookup hl)

theorem Links.mem_nodes {succ : Successors} {a b : Text} (h : succ.Links a b) :
    a ∈ succ.nodes ∧ b ∈ succ.nodes :=
  ⟨mem_nodes_of_lookup (links_iff.mp h).1, (links_iff.mp h).2⟩

def Connected (succ : Successors) (a b : Text) : Prop :=
  ReflTransGen succ.Links a b ∧ ReflTransGen succ.Links b a

theorem Connected.symm {succ : Successors} {a b : Text} (h : succ.Connected a b) :
    succ.Connected b a := And.symm h

theorem Connected.trans {succ : Successors} {a b c : Text} (h : succ.Connected a b)
    (h' : succ.Connected b c) : succ.Connected a c := ⟨h.1.trans h'.1, h'.2.trans h.2⟩

namespace Tarjan

section Tables
variable {t : Tarjan} {id x : Text} {bound : Nat}

@[simp] theorem entered_enter : (t.enter id).entered x = true ↔ x = id ∨ t.entered x = true := by
  simp only [enter, entered, List.any_cons, Bool.or_eq_true, beq_iff_eq, eq_comm (a := id)]

@[simp] theorem indexOf_enter_self : (t.enter id).indexOf id = t.counter := by
  simp [enter, indexOf]

theorem indexOf_enter_of_ne (h : x ≠ id) : (t.enter id).indexOf x = t.indexOf x := by
  simp [enter, indexOf, List.lookup_cons, beq_eq_false_iff_ne.mpr h]

@[simp] theorem lowOf_enter_self : (t.enter id).lowOf id = t.counter := by
  simp [enter, lowOf]

theorem lowOf_enter_of_ne (h : x ≠ id) : (t.enter id).lowOf x = t.lowOf x := by
  simp [enter, lowOf, List.lookup_cons, beq_eq_false_iff_ne.mpr h]

@[simp] theorem lowOf_lower_self : (t.lower id bound).lowOf id = min (t.lowOf id) bound := by
  simp [lower, lowOf]

theorem lowOf_lower_of_ne (h : x ≠ id) : (t.lower id bound).lowOf x = t.lowOf x := by
  simp [lower, lowOf, List.lookup_cons, beq_eq_false_iff_ne.mpr h]

theorem pop_append {above below : List Text} (h : id ∉ above) :
    pop id (above ++ id :: below) = (above ++ [id], below) := by
  induction above with
  | nil => simp [pop]
  | cons top rest ih =>
    rw [List.mem_cons, not_or] at h
    simp [pop, Ne.symm h.1, ih h.2]

end Tables

/-- Later states of a search: what was entered stays as it was, and what was on the stack stays
there. -/
structure Grows (t t' : Tarjan) : Prop where
  entered : ∀ x, t.entered x → t'.entered x
  index : ∀ x, t.entered x → t'.indexOf x = t.indexOf x
  low : ∀ x, t.entered x → t'.lowOf x = t.lowOf x
  fresh : ∀ x, ¬ t.entered x → t'.entered x → t.counter ≤ t'.indexOf x
  counter : t.counter ≤ t'.counter
  stack : t.stack <:+ t'.stack

theorem Grows.refl (t : Tarjan) : t.Grows t where
  entered _ hx := hx
  index _ _ := rfl
  low _ _ := rfl
  fresh _ hx hx' := absurd hx' hx
  counter := le_rfl
  stack := List.suffix_refl _

theorem Grows.trans {t t' t'' : Tarjan} (h : t.Grows t') (h' : t'.Grows t'') : t.Grows t'' where
  entered x hx := h'.entered x (h.entered x hx)
  index x hx := (h'.index x (h.entered x hx)).trans (h.index x hx)
  low x hx := (h'.low x (h.entered x hx)).trans (h.low x hx)
  fresh x hx hx' := by
    by_cases hmid : t'.entered x
    · rw [h'.index x hmid]
      exact h.fresh x hx hmid
    · exact h.counter.trans (h'.fresh x hmid hx')
  counter := h.counter.trans h'.counter
  stack := h.stack.trans h'.stack

theorem Grows.lower {t t' : Tarjan} (h : t.Grows t') {id : Text} (hid : ¬ t.entered id)
    (bound : Nat) : t.Grows (t'.lower id bound) where
  entered := h.entered
  index := h.index
  low x hx := by
    have hne : x ≠ id := fun heq => hid (heq ▸ hx)
    rw [lowOf_lower_of_ne hne, h.low x hx]
  fresh := h.fresh
  counter := h.counter
  stack := h.stack

theorem grows_enter {t : Tarjan} {id : Text} (hid : ¬ t.entered id) : t.Grows (t.enter id) where
  entered x hx := entered_enter.mpr (Or.inr hx)
  index x hx := indexOf_enter_of_ne fun heq => hid (heq ▸ hx)
  low x hx := lowOf_enter_of_ne fun heq => hid (heq ▸ hx)
  fresh x hx hx' := by
    obtain rfl := (entered_enter.mp hx').resolve_right hx
    exact indexOf_enter_self.ge
  counter := Nat.le_succ _
  stack := List.suffix_cons _ _

end Tarjan

variable {succ : Successors}

/-- Two components of which the first one may stand before the second one. -/
def Apart (succ : Successors) (c d : List Text) : Prop :=
  c.Disjoint d ∧ ∀ a ∈ c, ∀ b ∈ d, ¬ succ.Links a b

/-- Components that lead to no other nodes. -/
structure Split (succ : Successors) (cs : List (List Text)) : Prop where
  classes : ∀ c ∈ cs, ∃ a ∈ succ.nodes, ∀ b, b ∈ c ↔ succ.Connected a b
  ascending : ∀ c ∈ cs, c.Pairwise fun a b => Text.le a b ∧ a ≠ b
  closed : ∀ a ∈ cs.flatten, ∀ b, succ.Links a b → b ∈ cs.flatten
  apart : cs.Pairwise succ.Apart

theorem Split.reaches {cs : List (List Text)} (h : succ.Split cs) {a b : Text}
    (ha : a ∈ cs.flatten) (hab : ReflTransGen succ.Links a b) : b ∈ cs.flatten := by
  induction hab with
  | refl => exact ha
  | tail _ hlink ih => exact h.closed _ ih _ hlink

/-- A class of nodes that lead only to each other and to components is a component. -/
theorem Split.snoc {cs : List (List Text)} (h : succ.Split cs) {a : Text} {members : List Text}
    (hnode : a ∈ succ.nodes) (ha : a ∈ members) (hnodup : members.Nodup)
    (hfree : members.Disjoint cs.flatten) (hconnected : ∀ b ∈ members, succ.Connected a b)
    (hinside : ∀ b ∈ members, ∀ c, succ.Links b c → c ∈ members ∨ c ∈ cs.flatten) :
    succ.Split (cs ++ [Text.sort members]) := by
  have hmem : ∀ b, b ∈ Text.sort members ↔ b ∈ members :=
    fun b => (List.mergeSort_perm _ _).mem_iff
  have hstays : ∀ b, ReflTransGen succ.Links a b → b ∈ members ∨ b ∈ cs.flatten := by
    intro b hab
    induction hab with
    | refl => exact Or.inl ha
    | tail _ hlink ih =>
      rcases ih with hin | hin
      · exact hinside _ hin _ hlink
      · exact Or.inr (h.closed _ hin _ hlink)
  refine ⟨?_, ?_, ?_, ?_⟩
  · intro c hc
    rcases List.mem_append.mp hc with hc | hc
    · exact h.classes c hc
    · obtain rfl := List.mem_singleton.mp hc
      refine ⟨a, hnode, fun b => (hmem b).trans ⟨hconnected b, fun hab => ?_⟩⟩
      -- a component that the node led to would lead back to it
      exact (hstays b hab.1).resolve_right fun hb => hfree ha (h.reaches hb hab.2)
  · intro c hc
    rcases List.mem_append.mp hc with hc | hc
    · exact h.ascending c hc
    · obtain rfl := List.mem_singleton.mp hc
      exact (Text.pairwise_sort _).and ((List.mergeSort_perm _ _).nodup_iff.mpr hnodup)
  · simp only [List.flatten_append, List.flatten_singleton, List.mem_append, hmem]
    rintro b (hb | hb) c hlink
    · exact Or.inl (h.closed b hb c hlink)
    · exact (hinside b hb c hlink).symm
  · refine List.pairwise_append.mpr ⟨h.apart, List.pairwise_singleton _ _, ?_⟩
    intro c hc d hd
    obtain rfl := List.mem_singleton.mp hd
    have hflat : ∀ x ∈ c, x ∈ cs.flatten := fun x hx => List.mem_flatten.mpr ⟨c, hc, hx⟩
    refine ⟨fun x hxc hxd => hfree ((hmem x).mp hxd) (hflat x hxc), fun x hx y hy hlink => ?_⟩
    exact hfree ((hmem y).mp hy) (h.closed x (hflat x hx) y hlink)

section Search
open Tarjan

/-- What holds of a search when the visits that have not ended are those of the nodes of `path`. -/
structure Sound (succ : Successors) (path : List Text) (t : Tarjan) : Prop where
  onStack : t.onStack = t.stack
  nodes : ∀ x, t.entered x → x ∈ succ.nodes
  placed : ∀ x, t.entered x ↔ x ∈ t.stack ∨ x ∈ t.components.flatten
  free : t.stack.Disjoint t.components.flatten
  bounded : ∀ x, t.entered x → t.indexOf x < t.counter
  descending : t.stack.Pairwise fun a b => t.indexOf b < t.indexOf a
  onPath : ∀ g ∈ path, g ∈ t.stack
  back : ∀ y ∈ t.stack, ∃ g ∈ path, t.indexOf g ≤ t.indexOf y ∧ ReflTransGen succ.Links y g
  forth : ∀ g ∈ path, ∀ y ∈ t.stack, t.indexOf g ≤ t.indexOf y → ReflTransGen succ.Links g y
  finished : ∀ x, t.entered x → x ∉ path → ∀ y, succ.Links x y → t.entered y
  split : succ.Split t.components

namespace Sound
variable {path : List Text} {t : Tarjan}

theorem entered_of_stack (h : succ.Sound path t) {x : Text} (hx : x ∈ t.stack) : t.entered x :=
  (h.placed x).mpr (Or.inl hx)

theorem nodup (h : succ.Sound path t) : t.stack.Nodup :=
  h.descending.imp fun hlt heq => absurd (heq ▸ hlt) (lt_irrefl _)

/-- Low links do not matter to what holds of a search. -/
theorem lower (h : succ.Sound path t) (id : Text) (bound : Nat) :
    succ.Sound path (t.lower id bound) :=
  ⟨h.onStack, h.nodes, h.placed, h.free, h.bounded, h.descending, h.onPath, h.back, h.forth,
    h.finished, h.split⟩

theorem enter (h : succ.Sound path t) {id : Text} (hnode : id ∈ succ.nodes)
    (hnew : ¬ t.entered id) (hpath : ∀ g ∈ path, ReflTransGen succ.Links g id) :
    succ.Sound (id :: path) (t.enter id) := by
  have hne : ∀ x ∈ t.stack, x ≠ id := fun x hx heq => hnew (heq ▸ h.entered_of_stack hx)
  have hindex : ∀ x ∈ t.stack, (t.enter id).indexOf x = t.indexOf x :=
    fun x hx => indexOf_enter_of_ne (hne x hx)
  have hlt : ∀ x ∈ t.stack, (t.enter id).indexOf x < (t.enter id).indexOf id := by
    intro x hx
    rw [hindex x hx, indexOf_enter_self]
    exact h.bounded x (h.entered_of_stack hx)
  constructor
  case onStack => exact congrArg (id :: ·) h.onStack
  case nodes =>
    intro x hx
    rcases entered_enter.mp hx with rfl | hx
    · exact hnode
    · exact h.nodes x hx
  case placed =>
    intro x
    rw [entered_enter, h.placed]
    exact or_assoc.symm.trans (or_congr_left List.mem_cons.symm)
  case free =>
    refine List.disjoint_cons_left.mpr ⟨fun hmem => hnew ((h.placed id).mpr (Or.inr hmem)), h.free⟩
  case bounded =>
    intro x hx
    by_cases heq : x = id
    · rw [heq, indexOf_enter_self]
      exact Nat.lt_succ_self _
    · rw [indexOf_enter_of_ne heq]
      exact (h.bounded x ((entered_enter.mp hx).resolve_left heq)).trans (Nat.lt_succ_self _)
  case descending =>
    refine List.pairwise_cons.mpr ⟨hlt, h.descending.imp_of_mem fun ha hb hab => ?_⟩
    rwa [hindex _ ha, hindex _ hb]
  case onPath =>
    intro g hg
    rcases List.mem_cons.mp hg with rfl | hg
    · exact List.mem_cons_self
    · exact List.mem_cons_of_mem _ (h.onPath g hg)
  case back =>
    intro y hy
    rcases List.mem_cons.mp hy with rfl | hy
    · exact ⟨y, List.mem_cons_self, le_rfl, .refl⟩
    · obtain ⟨g, hg, hle, hreach⟩ := h.back y hy
      refine ⟨g, List.mem_cons_of_mem _ hg, ?_, hreach⟩
      rwa [hindex g (h.onPath g hg), hindex y hy]
  case forth =>
    intro g hg y hy hle
    rcases List.mem_cons.mp hg with rfl | hg'
    · rcases List.mem_cons.mp hy with rfl | hy
      · exact .refl
      · exact absurd (hlt y hy) hle.not_gt
    · rcases List.mem_cons.mp hy with rfl | hy
      · exact hpath g hg'
      · rw [hindex g (h.onPath g hg'), hindex y hy] at hle
        exact h.forth g hg' y hy hle
  case finished =>
    intro x hx hout y hlink
    rw [List.mem_cons, not_or] at hout
    have hold := h.finished x ((entered_enter.mp hx).resolve_left hout.1) hout.2 y hlink
    exact entered_enter.mpr (Or.inr hold)
  case split => exact h.split

end Sound

/-- What holds when the visit of a node has ended that began in the state `t`. -/
structure Visits (succ : Successors) (path : List Text) (t : Tarjan) (id : Text) (t' : Tarjan) :
    Prop where
  sound : succ.Sound path t'
  grows : t.Grows t'
  entered : t'.entered id
  leads : (∃ z ∈ t'.stack, t'.lowOf id = t'.indexOf z ∧ ReflTransGen succ.Links id z) ∨
    t.counter ≤ t'.lowOf id
  low : ∀ y ∈ t'.stack, y ∉ t.stack → ∀ z ∈ t.stack, succ.Links y z → t'.lowOf id ≤ t'.indexOf z

/-- What holds during the visit of a node that began in the state `t`, when the successors `done`
have been looked at. -/
structure Follows (succ : Successors) (path : List Text) (t : Tarjan) (id : Text)
    (done : List Text) (s : Tarjan) : Prop where
  start : succ.Sound path t
  new : ¬ t.entered id
  sound : succ.Sound (id :: path) s
  grows : t.Grows s
  index : s.indexOf id = t.counter
  stack : id :: t.stack <:+ s.stack
  seen : ∀ y ∈ done, s.entered y
  leads : ∃ z ∈ s.stack, s.lowOf id = s.indexOf z ∧ ReflTransGen succ.Links id z
  low_self : s.lowOf id ≤ s.indexOf id
  low : ∀ y ∈ s.stack, y ∉ t.stack → ∀ z ∈ t.stack, succ.Links y z → (y = id → z ∈ done) →
    s.lowOf id ≤ s.indexOf z

theorem follows_enter {path : List Text} {t : Tarjan} {id : Text} (h : succ.Sound path t)
    (hnode : id ∈ succ.nodes) (hnew : ¬ t.entered id)
    (hpath : ∀ g ∈ path, ReflTransGen succ.Links g id) :
    succ.Follows path t id [] (t.enter id) where
  start := h
  new := hnew
  sound := h.enter hnode hnew hpath
  grows := grows_enter hnew
  index := indexOf_enter_self
  stack := List.suffix_refl _
  seen _ hy := absurd hy List.not_mem_nil
  leads := ⟨id, List.mem_cons_self, by simp, .refl⟩
  low_self := by simp
  low y hy hout z _ _ hdone := by
    obtain rfl := (List.mem_cons.mp hy).resolve_right hout
    exact absurd (hdone rfl) List.not_mem_nil

namespace Follows
variable {path done : List Text} {t s : Tarjan} {id target : Text}

theorem entered (h : succ.Follows path t id done s) : s.entered id :=
  h.sound.entered_of_stack (h.stack.subset List.mem_cons_self)

/-- A successor outside the stack is in a component and does not count. -/
theorem pass (h : succ.Follows path t id done s) (hin : s.entered target)
    (hout : target ∉ s.stack) : succ.Follows path t id (done ++ [target]) s where
  start := h.start
  new := h.new
  sound := h.sound
  grows := h.grows
  index := h.index
  stack := h.stack
  seen := List.forall_mem_append.mpr ⟨h.seen, List.forall_mem_singleton.mpr hin⟩
  leads := h.leads
  low_self := h.low_self
  low y hy hyt z hz hlink hdone := by
    refine h.low y hy hyt z hz hlink fun heq => (List.mem_append.mp (hdone heq)).resolve_right ?_
    rintro hmem
    obtain rfl := List.mem_singleton.mp hmem
    exact hout (h.grows.stack.subset hz)

/-- The low link may be lowered to the index of a node on the stack that the node leads to. -/
theorem reach (h : succ.Follows path t id done s) (hon : target ∈ s.stack)
    (hlink : succ.Links id target) :
    succ.Follows path t id (done ++ [target]) (s.lower id (s.indexOf target)) where
  start := h.start
  new := h.new
  sound := h.sound.lower _ _
  grows := h.grows.lower h.new _
  index := h.index
  stack := h.stack
  seen := by
    refine List.forall_mem_append.mpr ⟨h.seen, List.forall_mem_singleton.mpr ?_⟩
    exact h.sound.entered_of_stack hon
  leads := by
    rw [lowOf_lower_self]
    rcases min_choice (s.lowOf id) (s.indexOf target) with hmin | hmin
    · rw [hmin]
      exact h.leads
    · rw [hmin]
      exact ⟨target, hon, rfl, .single hlink⟩
  low_self := by
    rw [lowOf_lower_self]
    exact (min_le_left _ _).trans h.low_self
  low y hy hyt z hz hyz hdone := by
    rw [lowOf_lower_self]
    by_cases hcase : y = id ∧ z = target
    · rw [hcase.2]
      exact min_le_right _ _
    · refine (min_le_left _ _).trans (h.low y hy hyt z hz hyz fun heq => ?_)
      refine (List.mem_append.mp (hdone heq)).resolve_right fun hmem => ?_
      exact hcase ⟨heq, List.mem_singleton.mp hmem⟩

/-- A new successor is visited, and its low link counts for the node. -/
theorem visit {s' : Tarjan} (h : succ.Follows path t id done s) (hnew : ¬ s.entered target)
    (hlink : succ.Links id target) (hvisit : succ.Visits (id :: path) s target s') :
    succ.Follows path t id (done ++ [target]) (s'.lower id (s'.lowOf target)) where
  start := h.start
  new := h.new
  sound := hvisit.sound.lower _ _
  grows := (h.grows.trans hvisit.grows).lower h.new _
  index := (hvisit.grows.index id h.entered).trans h.index
  stack := h.stack.trans hvisit.grows.stack
  seen := by
    refine List.forall_mem_append.mpr ⟨fun y hy => hvisit.grows.entered y (h.seen y hy), ?_⟩
    exact List.forall_mem_singleton.mpr hvisit.entered
  leads := by
    obtain ⟨z, hz, hlow, hreach⟩ := h.leads
    have hself : s'.lowOf id = s.lowOf id := hvisit.grows.low id h.entered
    have hold : s'.lowOf id = s'.indexOf z := by
      rw [hself, hlow, hvisit.grows.index z (h.sound.entered_of_stack hz)]
    rw [lowOf_lower_self]
    rcases hvisit.leads with ⟨w, hw, hlow', hreach'⟩ | hge
    · rcases min_choice (s'.lowOf id) (s'.lowOf target) with hmin | hmin
      · exact ⟨z, hvisit.grows.stack.subset hz, hmin.trans hold, hreach⟩
      · exact ⟨w, hw, hmin.trans hlow', .head hlink hreach'⟩
    · have hle : s'.lowOf id ≤ s'.lowOf target := by
        have hbound := h.sound.bounded id h.entered
        have hlow_self := h.low_self
        omega
      exact ⟨z, hvisit.grows.stack.subset hz, (min_eq_left hle).trans hold, hreach⟩
  low_self := by
    rw [lowOf_lower_self]
    refine (min_le_left _ _).trans ?_
    rw [hvisit.grows.low id h.entered]
    exact h.low_self.trans (hvisit.grows.index id h.entered).ge
  low y hy hyt z hz hyz hdone := by
    rw [lowOf_lower_self]
    have hzs : z ∈ s.stack := h.grows.stack.subset hz
    by_cases hys : y ∈ s.stack
    · refine (min_le_left _ _).trans ?_
      rw [hvisit.grows.low id h.entered]
      refine (h.low y hys hyt z hz hyz fun heq => ?_).trans
        (hvisit.grows.index z (h.sound.entered_of_stack hzs)).ge
      -- the successor itself was new, so it is not on the stack
      refine (List.mem_append.mp (hdone heq)).resolve_right fun hmem => ?_
      exact hnew (List.mem_singleton.mp hmem ▸ h.sound.entered_of_stack hzs)
    · exact (min_le_right _ _).trans (hvisit.low y hy hys z hzs hyz)

section Leave
variable (h : succ.Follows path t id (succ.next id) s)
include h

theorem finished {x : Text} (hx : s.entered x) (hout : x ∉ path) (y : Text)
    (hlink : succ.Links x y) : s.entered y := by
  by_cases heq : x = id
  · exact h.seen y (heq ▸ hlink)
  · exact h.sound.finished x hx (by simp [heq, hout]) y hlink

/-- A node whose low link is less than its index stays on the stack. -/
theorem stay (hlow : s.lowOf id ≠ s.indexOf id) : succ.Visits path t id s where
  sound :=
    { h.sound with
      onPath := fun g hg => h.sound.onPath g (List.mem_cons_of_mem _ hg)
      back := by
        intro y hy
        obtain ⟨g, hg, hle, hreach⟩ := h.sound.back y hy
        rcases List.mem_cons.mp hg with rfl | hg
        · obtain ⟨z, hz, hlowz, hgz⟩ := h.leads
          obtain ⟨g', hg', hle', hreach'⟩ := h.sound.back z hz
          have hlt : s.indexOf g' < s.indexOf g := by
            have := h.low_self
            omega
          refine ⟨g', ?_, by omega, (hreach.trans hgz).trans hreach'⟩
          exact (List.mem_cons.mp hg').resolve_left fun heq => absurd hlt (heq ▸ lt_irrefl _)
        · exact ⟨g, hg, hle, hreach⟩
      forth := fun g hg => h.sound.forth g (List.mem_cons_of_mem _ hg)
      finished := fun x => h.finished }
  grows := h.grows
  entered := h.entered
  leads := Or.inl h.leads
  low y hy hyt z hz hlink := h.low y hy hyt z hz hlink fun heq => heq ▸ hlink

variable {above : List Text} (hstack : s.stack = above ++ id :: t.stack)
include hstack

omit h in
theorem mem_stack {y : Text} (hy : y ∈ above ++ [id]) : y ∈ s.stack := by
  rw [hstack]
  simp only [List.mem_append, List.mem_cons] at hy ⊢
  tauto

theorem index_below {z : Text} (hz : z ∈ t.stack) : s.indexOf z < s.indexOf id := by
  have hdesc := h.sound.descending
  rw [hstack] at hdesc
  exact (List.pairwise_cons.mp (List.pairwise_append.mp hdesc).2.1).1 z hz

theorem index_above {y : Text} (hy : y ∈ above ++ [id]) : s.indexOf id ≤ s.indexOf y := by
  have hdesc := h.sound.descending
  rw [hstack] at hdesc
  rcases List.mem_append.mp hy with hy | hy
  · exact ((List.pairwise_append.mp hdesc).2.2 y hy id List.mem_cons_self).le
  · exact (List.mem_singleton.mp hy ▸ le_rfl)

theorem not_below {y : Text} (hy : y ∈ above ++ [id]) : y ∉ t.stack := fun hmem =>
  absurd (h.index_below hstack hmem) (h.index_above hstack hy).not_gt

/-- What lies above a node whose visit ends is connected with it. -/
theorem connected {y : Text} (hy : y ∈ above ++ [id]) : succ.Connected id y := by
  have hys := mem_stack hstack hy
  refine ⟨h.sound.forth id List.mem_cons_self y hys (h.index_above hstack hy), ?_⟩
  obtain ⟨g, hg, -, hreach⟩ := h.sound.back y hys
  rcases List.mem_cons.mp hg with rfl | hg'
  · exact hreach
  · have hid : id ∈ s.stack := h.stack.subset List.mem_cons_self
    have hle := (h.index_below hstack (h.start.onPath g hg')).le
    exact hreach.trans (h.sound.forth g hg id hid hle)

/-- If the low link is the node's own index, then no edge leads below it. -/
theorem inside (hlow : s.lowOf id = s.indexOf id) {y z : Text} (hy : y ∈ above ++ [id])
    (hlink : succ.Links y z) : z ∈ above ++ [id] ∨ z ∈ s.components.flatten := by
  have hout : y ∉ t.stack := h.not_below hstack hy
  have hys := mem_stack hstack hy
  have hin := h.finished (h.sound.entered_of_stack hys) (fun hp => hout (h.start.onPath y hp)) z hlink
  refine ((h.sound.placed z).mp hin).imp_left fun hz => ?_
  rw [hstack] at hz
  have hbelow : z ∉ t.stack := by
    intro hzt
    have hle := h.low y hys hout z hzt hlink fun heq => heq ▸ hlink
    exact absurd (h.index_below hstack hzt) (hlow ▸ hle).not_gt
  simp only [List.mem_append, List.mem_cons] at hz ⊢
  tauto

/-- A node whose low link is its index was the first one of its component. -/
theorem close (hlow : s.lowOf id = s.indexOf id) :
    succ.Visits path t id
      { s with
        stack := t.stack
        onStack := s.onStack.filter (!(above ++ [id]).contains ·)
        components := s.components ++ [Text.sort (above ++ [id])] } := by
  have hnodup : (above ++ [id] ++ t.stack).Nodup := by
    have := h.sound.nodup
    rw [hstack] at this
    simpa using this
  have hsub : t.stack <:+ s.stack := h.grows.stack
  have hfree : (above ++ [id]).Disjoint s.components.flatten := fun x hx =>
    h.sound.free (hstack ▸ by simpa using List.mem_append_left t.stack hx)
  have hmem : ∀ b, b ∈ Text.sort (above ++ [id]) ↔ b ∈ above ++ [id] :=
    fun b => (List.mergeSort_perm _ _).mem_iff
  refine ⟨⟨?_, h.sound.nodes, ?_, ?_, h.sound.bounded, ?_, h.start.onPath, ?_, ?_, fun x => h.finished,
    ?_⟩, ⟨h.grows.entered, h.grows.index, h.grows.low, h.grows.fresh, h.grows.counter,
      List.suffix_refl _⟩, h.entered, Or.inr ?_, ?_⟩
  · -- what is taken off the stack is no longer marked as on it
    have hrest : t.stack.filter (!(above ++ [id]).contains ·) = t.stack := by
      refine List.filter_eq_self.mpr fun x hx => ?_
      have hx' : x ∉ above ++ [id] := fun hmem => h.not_below hstack hmem hx
      simpa using hx'
    have hgone : (above ++ [id]).filter (!(above ++ [id]).contains ·) = [] :=
      List.filter_eq_nil_iff.mpr fun x hx => by
        rw [List.contains_iff_mem.mpr hx]
        exact Bool.false_ne_true
    have hsplit : s.onStack = above ++ [id] ++ t.stack := by rw [h.sound.onStack, hstack]; simp
    show s.onStack.filter _ = t.stack
    rw [hsplit, List.filter_append, hrest, hgone, List.nil_append]
  · intro x
    refine (h.sound.placed x).trans ?_
    simp only [hstack, List.flatten_append, List.flatten_singleton, List.mem_append, hmem,
      List.mem_cons]
    tauto
  · intro x hx hx'
    simp only [List.flatten_append, List.flatten_singleton, List.mem_append, hmem] at hx'
    rcases hx' with hx' | hx'
    · exact h.sound.free (hsub.subset hx) hx'
    · exact h.not_below hstack (List.mem_append.mpr hx') hx
  · exact h.sound.descending.sublist hsub.sublist
  · intro y hy
    obtain ⟨g, hg, hle, hreach⟩ := h.sound.back y (hsub.subset hy)
    refine ⟨g, (List.mem_cons.mp hg).resolve_left ?_, hle, hreach⟩
    rintro rfl
    exact absurd (h.index_below hstack hy) hle.not_gt
  · exact fun g hg y hy => h.sound.forth g (List.mem_cons_of_mem _ hg) y (hsub.subset hy)
  · exact h.sound.split.snoc (h.sound.nodes id h.entered) (by simp)
      (List.nodup_append.mp hnodup).1 hfree (fun b hb => h.connected hstack hb)
      fun b hb c => h.inside hstack hlow hb
  · exact (hlow.trans h.index).ge
  · exact fun y hy hout => absurd hy hout

end Leave

theorem leave (h : succ.Follows path t id (succ.next id) s) :
    succ.Visits path t id (s.leave id) := by
  obtain ⟨above, hstack⟩ := h.stack
  have habove : id ∉ above := by
    have hnodup := h.sound.nodup
    rw [← hstack] at hnodup
    exact fun hmem => (List.nodup_append.mp hnodup).2.2 id hmem id List.mem_cons_self rfl
  unfold Tarjan.leave
  split
  next hlow =>
    rw [← hstack, pop_append habove]
    exact h.close hstack.symm hlow
  next hlow => exact h.stay hlow

end Follows

def unentered (succ : Successors) (t : Tarjan) : Nat := succ.nodes.countP (!t.entered ·)

theorem unentered_le {t t' : Tarjan} (h : t.Grows t') : succ.unentered t' ≤ succ.unentered t := by
  apply List.countP_mono_left
  intro x _ hx
  simp only [Bool.not_eq_true', ← Bool.not_eq_true] at hx ⊢
  exact fun hmem => hx (h.entered x hmem)

theorem unentered_enter {t : Tarjan} {id : Text} (hid : id ∈ succ.nodes) (hnew : ¬ t.entered id) :
    succ.unentered (t.enter id) < succ.unentered t := by
  have hmem : ∀ (t : Tarjan) (x : Text), t.entered x = (t.index.map (·.1)).contains x := by
    intro t x
    rw [Bool.eq_iff_iff]
    simp [Tarjan.entered]
  have hfresh : id ∉ t.index.map (·.1) := by simpa [hmem] using hnew
  have hcount := countP_unseen succ.nodes (t.index.map (·.1)) hfresh
  have hpos : 0 < succ.nodes.count id := List.count_pos_iff.mpr hid
  simp only [unentered, hmem, Tarjan.enter, List.map_cons]
  omega

/-- Successors are looked at one after the other, if each new one can be visited. -/
theorem follows_foldl {visit : Tarjan → Text → Tarjan} {path : List Text} {t : Tarjan} {id : Text}
    {depth : Nat}
    (hvisit : ∀ s target, succ.Links id target → ¬ s.entered target →
      succ.Sound (id :: path) s → (∀ g ∈ id :: path, ReflTransGen succ.Links g target) →
      succ.unentered s < depth → succ.Visits (id :: path) s target (visit s target))
    (hpath : ∀ g ∈ id :: path, ReflTransGen succ.Links g id)
    {targets done : List Text} (htargets : ∀ x ∈ targets, succ.Links id x) {s : Tarjan}
    (h : succ.Follows path t id done s) (hdepth : succ.unentered s < depth) :
    succ.Follows path t id (done ++ targets) (targets.foldl (Tarjan.follow visit id) s) := by
  induction targets generalizing done s with
  | nil => simpa using h
  | cons target rest ih =>
    have hlink : succ.Links id target := htargets target List.mem_cons_self
    have hstep : succ.Follows path t id (done ++ [target]) (Tarjan.follow visit id s target) ∧
        succ.unentered (Tarjan.follow visit id s target) < depth := by
      unfold Tarjan.follow
      split
      next hnew =>
        have hnew' : ¬ s.entered target := by simpa using hnew
        have hv := hvisit s target hlink hnew' h.sound (fun g hg => (hpath g hg).tail hlink) hdepth
        exact ⟨h.visit hnew' hlink hv, (unentered_le hv.grows).trans_lt hdepth⟩
      next hin =>
        have hin' : s.entered target := by simpa using hin
        rw [h.sound.onStack]
        split
        next hon => exact ⟨h.reach (List.contains_iff_mem.mp hon) hlink, hdepth⟩
        next hout => exact ⟨h.pass hin' (by simpa using hout), hdepth⟩
    have hrest := ih (fun x hx => htargets x (List.mem_cons_of_mem _ hx)) hstep.1 hstep.2
    rwa [List.append_assoc, List.singleton_append] at hrest

theorem visits_visit (depth : Nat) {path : List Text} {t : Tarjan} {id : Text}
    (hnode : id ∈ succ.nodes) (hnew : ¬ t.entered id) (h : succ.Sound path t)
    (hpath : ∀ g ∈ path, ReflTransGen succ.Links g id) (hdepth : succ.unentered t < depth) :
    succ.Visits path t id (visit succ depth t id) := by
  induction depth generalizing path t id with
  | zero => exact absurd hdepth (Nat.not_lt_zero _)
  | succ depth ih =>
    have hpath' : ∀ g ∈ id :: path, ReflTransGen succ.Links g id :=
      List.forall_mem_cons.mpr ⟨.refl, hpath⟩
    have hfollows : succ.Follows path t id ([] ++ succ.next id)
        ((succ.next id).foldl (Tarjan.follow (visit succ depth) id) (t.enter id)) :=
      follows_foldl (fun s target hlink hnew hs hp hd => ih hlink.mem_nodes.2 hnew hs hp hd) hpath'
        (fun _ hx => hx) (follows_enter h hnode hnew hpath)
        (Nat.lt_of_lt_of_le (unentered_enter hnode hnew) (Nat.le_of_lt_succ hdepth))
    exact hfollows.leave

/-- Nodes are entered one after the other, each with a visit of its own unless it has been entered
before. -/
theorem sound_foldl {ids : List Text} (hids : ∀ x ∈ ids, x ∈ succ.nodes) {t : Tarjan}
    (h : succ.Sound [] t) {t' : Tarjan}
    (ht' : ids.foldl
      (fun t id => if t.entered id then t else visit succ (succ.length + 1) t id) t = t') :
    succ.Sound [] t' ∧ t.Grows t' ∧ ∀ x ∈ ids, t'.entered x := by
  induction ids generalizing t with
  | nil =>
    subst ht'
    exact ⟨h, .refl t, by simp⟩
  | cons id rest ih =>
    have hstep : ∃ s, succ.Sound [] s ∧ t.Grows s ∧ s.entered id ∧
        (if t.entered id then t else visit succ (succ.length + 1) t id) = s := by
      by_cases hin : t.entered id
      · exact ⟨t, h, .refl t, hin, if_pos hin⟩
      · have hle : succ.unentered t ≤ succ.nodes.length := List.countP_le_length
        rw [nodes, List.length_map] at hle
        have hvisit := visits_visit (succ.length + 1) (hids id List.mem_cons_self) hin h (by simp)
          (Nat.lt_succ_of_le hle)
        exact ⟨_, hvisit.sound, hvisit.grows, hvisit.entered, if_neg hin⟩
    obtain ⟨s, hsound, hgrows, hentered, hs⟩ := hstep
    rw [List.foldl_cons, hs] at ht'
    obtain ⟨hsound', hgrows', hrest⟩ := ih (fun x hx => hids x (List.mem_cons_of_mem _ hx)) hsound ht'
    refine ⟨hsound', hgrows.trans hgrows', List.forall_mem_cons.mpr ⟨?_, hrest⟩⟩
    exact hgrows'.entered id hentered

/-- The search over all nodes ends with no visit open, and has entered all of them. -/
theorem sound_tarjan (succ : Successors) :
    succ.Sound [] succ.tarjan ∧ ∀ x ∈ succ.nodes, succ.tarjan.entered x := by
  have hstart : succ.Sound [] {} := by
    constructor <;> simp [Tarjan.entered]
    exact ⟨by simp, by simp, by simp, .nil⟩
  have hsort : ∀ x, x ∈ Text.sort succ.nodes ↔ x ∈ succ.nodes :=
    fun x => (List.mergeSort_perm _ _).mem_iff
  obtain ⟨hsound, -, hentered⟩ := sound_foldl (fun x => (hsort x).mp) hstart rfl
  exact ⟨hsound, fun x hx => hentered x ((hsort x).mpr hx)⟩

end Search

end WorkflowCompiler.Graph.Successors
