import Mathlib
import WorkflowCompiler.Graph.Basic

/-! # What a search finds

A search finds exactly what can be reached from its starts without meeting what it has seen
before, and its fuel always suffices. Reachability along edges and the regions behind a port are
instances.
-/
namespace WorkflowCompiler.Graph

/-- Some edge leads from one node to the other. -/
def Leads (edges : List Edge) (a b : Text) : Prop := ∃ e ∈ edges, e.source = a ∧ e.target = b

/-- There is a path along edges; every node reaches itself. -/
abbrev Reaches (edges : List Edge) : Text → Text → Prop := Relation.ReflTransGen (Leads edges)

/-- One step of a search that does not enter what has been seen. -/
def Unseen (next : Text → List Text) (seen : List Text) (a b : Text) : Prop :=
  b ∈ next a ∧ b ∉ seen

/-- What a search finds from a worklist: new items of it and what they lead to. -/
def Found (next : Text → List Text) (work seen : List Text) (id : Text) : Prop :=
  ∃ s ∈ work, s ∉ seen ∧ Relation.ReflTransGen (Unseen next seen) s id

theorem unseen_mono {next : Text → List Text} {seen : List Text} {id a b : Text}
    (h : Relation.ReflTransGen (Unseen next (id :: seen)) a b) :
    Relation.ReflTransGen (Unseen next seen) a b :=
  Relation.ReflTransGen.mono (fun _ _ h => ⟨h.1, fun hs => h.2 (List.mem_cons_of_mem _ hs)⟩) _ _ h

/-- A path either avoids a node, or its part behind the last visit of that node does. -/
theorem unseen_cut {next : Text → List Text} {seen : List Text} {id a b : Text}
    (h : Relation.ReflTransGen (Unseen next seen) a b) :
    b = id ∨ (a ≠ id ∧ Relation.ReflTransGen (Unseen next (id :: seen)) a b) ∨
      Found next (next id) (id :: seen) b := by
  induction h with
  | refl =>
    by_cases hid : a = id
    · exact Or.inl hid
    · exact Or.inr (Or.inl ⟨hid, .refl⟩)
  | @tail b c _ hbc ih =>
    by_cases hc : c = id
    · exact Or.inl hc
    have hcs : c ∉ id :: seen := by simp [hc, hbc.2]
    rcases ih with rfl | ⟨hne, hp⟩ | ⟨s, hs, hss, hp⟩
    · exact Or.inr (Or.inr ⟨c, hbc.1, hcs, .refl⟩)
    · exact Or.inr (Or.inl ⟨hne, hp.tail ⟨hbc.1, hcs⟩⟩)
    · exact Or.inr (Or.inr ⟨s, hs, hss, hp.tail ⟨hbc.1, hcs⟩⟩)

theorem found_seen {next : Text → List Text} {work seen : List Text} {id x : Text}
    (hid : id ∈ seen) : Found next (id :: work) seen x ↔ Found next work seen x := by
  constructor
  · rintro ⟨s, hs, hss, hp⟩
    rcases List.mem_cons.mp hs with rfl | hs
    · exact absurd hid hss
    · exact ⟨s, hs, hss, hp⟩
  · rintro ⟨s, hs, hss, hp⟩
    exact ⟨s, List.mem_cons_of_mem _ hs, hss, hp⟩

/-- Taking a new node off the worklist leaves the same things to be found. -/
theorem found_step {next : Text → List Text} {work seen : List Text} {id x : Text}
    (hid : id ∉ seen) : Found next (id :: work) seen x ↔
      x = id ∨ Found next (next id ++ work) (id :: seen) x := by
  constructor
  · rintro ⟨s, hs, hss, hp⟩
    rcases @unseen_cut _ _ id _ _ hp with rfl | ⟨hne, hp⟩ | ⟨t, ht, hts, hp⟩
    · exact Or.inl rfl
    · have hw : s ∈ work := (List.mem_cons.mp hs).resolve_left hne
      exact Or.inr ⟨s, List.mem_append_right _ hw, by simp [hne, hss], hp⟩
    · exact Or.inr ⟨t, List.mem_append_left _ ht, hts, hp⟩
  · rintro (rfl | ⟨s, hs, hss, hp⟩)
    · exact ⟨x, List.mem_cons_self, hid, .refl⟩
    have hss' : s ∉ seen := fun h => hss (List.mem_cons_of_mem _ h)
    rcases List.mem_append.mp hs with hs | hs
    · exact ⟨id, List.mem_cons_self, hid, (unseen_mono hp).head ⟨hs, hss'⟩⟩
    · exact ⟨s, List.mem_cons_of_mem _ hs, hss', unseen_mono hp⟩

/-- The steps that a search can still take: its worklist, and the successors of unseen sources. -/
def pending (sources work seen : List Text) : Nat :=
  work.length + sources.countP (!seen.contains ·)

theorem pending_le (sources work seen : List Text) :
    pending sources work seen ≤ work.length + sources.length :=
  Nat.add_le_add_left List.countP_le_length _

theorem countP_unseen (sources seen : List Text) {id : Text} (hid : id ∉ seen) :
    sources.countP (!(id :: seen).contains ·) + sources.count id =
      sources.countP (!seen.contains ·) := by
  induction sources with
  | nil => rfl
  | cons s rest ih =>
    by_cases hs : s = id
    · subst s
      simp [hid] at ih ⊢
      omega
    · simp [List.countP_cons, hs] at ih ⊢
      omega

/-- A search with enough fuel finds what it has seen and what its worklist leads to. -/
theorem mem_search {next : Text → List Text} {sources : List Text}
    (hnext : ∀ id, (next id).length ≤ sources.count id) {fuel : Nat} {work seen : List Text}
    (hfuel : pending sources work seen ≤ fuel) {x : Text} :
    x ∈ search next fuel work seen ↔ x ∈ seen ∨ Found next work seen x := by
  induction fuel generalizing work seen with
  | zero =>
    have hw : work = [] := List.length_eq_zero_iff.mp (by unfold pending at hfuel; omega)
    subst work
    simp [search, Found]
  | succ fuel ih =>
    cases work with
    | nil => simp [search, Found]
    | cons id work =>
      by_cases hid : id ∈ seen
      · have hf : pending sources work seen ≤ fuel := by
          simp only [pending, List.length_cons] at hfuel ⊢
          omega
        rw [search, if_pos (by simpa using hid), ih hf, found_seen hid]
      · have hf : pending sources (next id ++ work) (id :: seen) ≤ fuel := by
          have hn := hnext id
          have hs := countP_unseen sources seen hid
          simp only [pending, List.length_cons, List.length_append] at hfuel ⊢
          omega
        rw [search, if_neg (by simpa using hid), ih hf, found_step hid, List.mem_cons]
        tauto

theorem mem_targets {edges : List Edge} {a b : Text} : b ∈ targets edges a ↔ Leads edges a b := by
  simp only [targets, List.mem_map, List.mem_filter, beq_iff_eq, Leads, and_assoc]

theorem length_targets (edges : List Edge) (id : Text) :
    (targets edges id).length = (edges.map (·.source)).count id := by
  rw [targets, List.length_map, List.count, List.countP_map, List.countP_eq_length_filter]
  rfl

theorem pending_sources_le (edges : List Edge) (work seen : List Text) :
    pending (edges.map (·.source)) work seen ≤ work.length + edges.length + 1 := by
  have h := pending_le (edges.map (·.source)) work seen
  rw [List.length_map] at h
  omega

theorem mem_reachable {edges : List Edge} {starts : List Text} {id : Text} :
    id ∈ reachable edges starts ↔ ∃ s ∈ starts, Reaches edges s id := by
  have hstep : Unseen (targets edges) [] = Leads edges := by
    funext a b
    simp [Unseen, mem_targets]
  rw [reachable,
    mem_search (fun id => (length_targets edges id).le) (pending_sources_le edges starts [])]
  simp [Found, hstep]

/-- A region holds what a path from the port leads to that never comes back to the head. -/
theorem mem_reachableFromPort {edges : List Edge} {head : Text} {port : Option Text} {id : Text} :
    id ∈ reachableFromPort edges head port ↔
      ∃ e ∈ edges, e.source = head ∧ e.sourcePort = port ∧ e.target ≠ head ∧
        Relation.ReflTransGen (fun a b => Leads edges a b ∧ b ≠ head) e.target id := by
  have hstep : Unseen (targets edges) [head] = fun a b => Leads edges a b ∧ b ≠ head := by
    funext a b
    simp [Unseen, mem_targets]
  have hne : ∀ {s x}, s ≠ head →
      Relation.ReflTransGen (fun a b => Leads edges a b ∧ b ≠ head) s x → x ≠ head := by
    intro s x hs hp
    cases hp with
    | refl => exact hs
    | tail _ h => exact h.2
  simp only [reachableFromPort, List.mem_filter, bne_iff_ne, ne_eq,
    mem_search (fun id => (length_targets edges id).le) (pending_sources_le edges _ [head]), Found,
    hstep, List.mem_singleton, List.mem_map, Bool.and_eq_true, beq_iff_eq]
  constructor
  · rintro ⟨h | ⟨s, ⟨e, ⟨he, hs, hp⟩, rfl⟩, ht, hpath⟩, hid⟩
    · exact absurd h hid
    · exact ⟨e, he, hs, hp, ht, hpath⟩
  · rintro ⟨e, he, hs, hp, ht, hpath⟩
    exact ⟨Or.inr ⟨e.target, ⟨e, ⟨he, hs, hp⟩, rfl⟩, ht, hpath⟩, hne ht hpath⟩

theorem transGen_of_mem_loopBody {edges : List Edge} {head id : Text}
    (h : id ∈ loopBody edges head) : Relation.TransGen (Leads edges) head id := by
  obtain ⟨e, he, hs, _, _, hp⟩ := mem_reachableFromPort.mp h
  exact Relation.TransGen.head' ⟨e, he, hs, rfl⟩ (Relation.ReflTransGen.mono (fun _ _ h => h.1) _ _ hp)

end WorkflowCompiler.Graph
