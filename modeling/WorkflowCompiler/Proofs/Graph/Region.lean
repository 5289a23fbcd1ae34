import Mathlib
import WorkflowCompiler.Proofs.Graph.Reach

/-! # Regions behind a port

The region behind a port of a node holds what can be come to by leaving the node with that port and
never coming back to it. A loop over a worklist finds it. Whichever item is taken off the worklist
next, the loop has no more rounds than there are edges, and what it has found in the end is the
region.
-/
namespace WorkflowCompiler.Graph

/-- A path along edges that leaves a node with a port and is at that node only where it begins. -/
structure Excursion (edges : List Edge) (head : Text) (port : Option Text) (path : List Edge)
    (id : Text) : Prop where
  along : ∀ e ∈ path, e ∈ edges
  leaves : ∃ e ∈ path.head?, e.source = head ∧ e.sourcePort = port
  joined : path.IsChain fun a b => a.target = b.source
  away : ∀ e ∈ path, e.target ≠ head
  ends : path.getLast?.map (·.target) = some id

section Excursion
variable {edges path : List Edge} {head id : Text} {port : Option Text}

theorem excursion_singleton {e : Edge} (he : e ∈ edges) (hs : e.source = head)
    (hp : e.sourcePort = port) (ht : e.target ≠ head) :
    Excursion edges head port [e] e.target where
  along x hx := by rwa [List.mem_singleton.mp hx]
  leaves := ⟨e, rfl, hs, hp⟩
  joined := List.isChain_singleton e
  away x hx := by rwa [List.mem_singleton.mp hx]
  ends := rfl

theorem Excursion.snoc (h : Excursion edges head port path id) {e : Edge} (he : e ∈ edges)
    (hs : e.source = id) (ht : e.target ≠ head) :
    Excursion edges head port (path ++ [e]) e.target where
  along x hx := by
    rcases List.mem_append.mp hx with hx | hx
    · exact h.along x hx
    · rwa [List.mem_singleton.mp hx]
  leaves := by
    obtain ⟨first, hfirst, hleaves⟩ := h.leaves
    exact ⟨first, List.mem_head?_append_of_mem_head? hfirst, hleaves⟩
  joined := by
    refine List.isChain_append.mpr ⟨h.joined, List.isChain_singleton e, ?_⟩
    intro last hlast next hnext
    obtain rfl : e = next := by simpa using hnext
    have hends := h.ends
    rw [Option.mem_def.mp hlast] at hends
    exact (Option.some.inj hends).trans hs.symm
  away x hx := by
    rcases List.mem_append.mp hx with hx | hx
    · exact h.away x hx
    · rwa [List.mem_singleton.mp hx]
  ends := by simp

/-- Along joined edges that do not lead back, the end is reached from where the first one leads. -/
theorem reflTransGen_of_isChain {e : Edge} {rest : List Edge}
    (halong : ∀ x ∈ e :: rest, x ∈ edges)
    (hjoined : (e :: rest).IsChain fun a b => a.target = b.source)
    (haway : ∀ x ∈ e :: rest, x.target ≠ head)
    (hends : (e :: rest).getLast?.map (·.target) = some id) :
    Relation.ReflTransGen (fun a b => Leads edges a b ∧ b ≠ head) e.target id := by
  induction rest generalizing e with
  | nil =>
    obtain rfl : e.target = id := by simpa using hends
    exact .refl
  | cons next rest ih =>
    obtain ⟨hlink, hrest⟩ := List.isChain_cons_cons.mp hjoined
    have hmem : next ∈ e :: next :: rest := by simp
    refine .head ⟨⟨next, halong next hmem, hlink.symm, rfl⟩, haway next hmem⟩ ?_
    refine ih (fun x hx => halong x (List.mem_cons_of_mem _ hx)) hrest
      (fun x hx => haway x (List.mem_cons_of_mem _ hx)) ?_
    rwa [List.getLast?_cons_cons] at hends

theorem mem_region_iff_excursion :
    id ∈ reachableFromPort edges head port ↔ ∃ path, Excursion edges head port path id := by
  rw [mem_reachableFromPort]
  constructor
  · rintro ⟨e, he, hs, hp, ht, hreach⟩
    induction hreach with
    | refl => exact ⟨[e], excursion_singleton he hs hp ht⟩
    | tail _ hstep ih =>
      obtain ⟨path, hpath⟩ := ih
      obtain ⟨⟨next, hnext, hsource, rfl⟩, haway⟩ := hstep
      exact ⟨path ++ [next], hpath.snoc hnext hsource haway⟩
  · rintro ⟨path, hpath⟩
    obtain ⟨e, hfirst, hs, hp⟩ := hpath.leaves
    cases path with
    | nil => cases hfirst
    | cons first rest =>
      obtain rfl : first = e := by simpa using hfirst
      exact ⟨first, hpath.along first List.mem_cons_self, hs, hp,
        hpath.away first List.mem_cons_self,
        reflTransGen_of_isChain hpath.along hpath.joined hpath.away hpath.ends⟩

theorem Excursion.ne (h : Excursion edges head port path id) : id ≠ head := by
  obtain ⟨last, hlast, rfl⟩ := Option.map_eq_some_iff.mp h.ends
  exact h.away last (List.mem_of_getLast? hlast)

end Excursion

/-- A state of the loop: the worklist, and what has been seen. -/
abbrev Searching := List Text × List Text

/-- One round of the loop. Some item is taken off the worklist; if it is new, it is seen from now on
and its successors are put on the worklist. The order of the worklist is left open. -/
inductive Round (next : Text → List Text) : Searching → Searching → Prop
  | skip {work rest seen : List Text} {id : Text} : work.Perm (id :: rest) → id ∈ seen →
    Round next (work, seen) (rest, seen)
  | record {work rest more seen : List Text} {id : Text} : work.Perm (id :: rest) → id ∉ seen →
    more.Perm (next id ++ rest) → Round next (work, seen) (more, id :: seen)

/-- So many rounds one after the other. -/
inductive Rounds (next : Text → List Text) : Nat → Searching → Searching → Prop
  | none {s : Searching} : Rounds next 0 s s
  | more {n : Nat} {s t u : Searching} : Round next s t → Rounds next n t u →
    Rounds next (n + 1) s u

section Rounds
variable {next : Text → List Text} {s t : Searching}

theorem exists_round (h : s.1 ≠ []) : ∃ t, Round next s t := by
  obtain ⟨work, seen⟩ := s
  obtain ⟨id, rest, rfl⟩ := List.exists_cons_of_ne_nil h
  by_cases hid : id ∈ seen
  · exact ⟨_, .skip (.refl _) hid⟩
  · exact ⟨_, .record (.refl _) hid (.refl _)⟩

theorem found_perm {work work' seen : List Text} {x : Text} (h : work.Perm work') :
    Found next work seen x ↔ Found next work' seen x := by
  simp only [Found, h.mem_iff]

/-- What a state has seen or is going to find. -/
def Prospect (next : Text → List Text) (s : Searching) (x : Text) : Prop :=
  x ∈ s.2 ∨ Found next s.1 s.2 x

/-- A round changes nothing about what is found in the end. -/
theorem Round.prospect (h : Round next s t) (x : Text) :
    Prospect next s x ↔ Prospect next t x := by
  cases h with
  | skip hperm hid => simp only [Prospect, found_perm hperm, found_seen hid]
  | record hperm hid hmore =>
    simp only [Prospect, found_perm hperm, found_step hid, found_perm hmore, List.mem_cons]
    tauto

theorem Rounds.prospect {n : Nat} (h : Rounds next n s t) (x : Text) :
    Prospect next s x ↔ Prospect next t x := by
  induction h with
  | none => exact Iff.rfl
  | more hround _ ih => exact (hround.prospect x).trans ih

/-- A round that is the last one has seen what the first one was going to find. -/
theorem Rounds.mem_seen {n : Nat} {seen : List Text} (h : Rounds next n s ([], seen)) (x : Text) :
    x ∈ seen ↔ Prospect next s x := by
  rw [h.prospect]
  simp [Prospect, Found]

variable {sources : List Text} (hnext : ∀ id, (next id).length ≤ sources.count id)
include hnext

theorem Round.pending_lt (h : Round next s t) :
    pending sources t.1 t.2 < pending sources s.1 s.2 := by
  cases h with
  | skip hperm _ =>
    have hlength := hperm.length_eq
    simp only [pending, List.length_cons] at hlength ⊢
    omega
  | @record work rest more seen id hperm hid hmore =>
    have hlength := hperm.length_eq
    have hmore' := hmore.length_eq
    have hcount := countP_unseen sources seen hid
    have hsucc := hnext id
    simp only [pending, List.length_cons, List.length_append] at hlength hmore' ⊢
    omega

theorem Rounds.le_pending {n : Nat} (h : Rounds next n s t) :
    n + pending sources t.1 t.2 ≤ pending sources s.1 s.2 := by
  induction h with
  | none => omega
  | more hround _ ih =>
    have hlt := hround.pending_lt hnext
    omega

/-- The search that takes the items in order is one of the runs of the loop. -/
theorem exists_rounds_search {fuel : Nat} {work seen : List Text}
    (hfuel : pending sources work seen ≤ fuel) :
    ∃ n, Rounds next n (work, seen) ([], search next fuel work seen) := by
  induction fuel generalizing work seen with
  | zero =>
    obtain rfl : work = [] := List.length_eq_zero_iff.mp (by unfold pending at hfuel; omega)
    exact ⟨0, .none⟩
  | succ fuel ih =>
    cases work with
    | nil => exact ⟨0, .none⟩
    | cons id work =>
      by_cases hid : id ∈ seen
      · have hround : Round next (id :: work, seen) (work, seen) := .skip (.refl _) hid
        obtain ⟨n, hn⟩ := ih (Nat.le_of_lt_succ ((hround.pending_lt hnext).trans_le hfuel))
        rw [search, if_pos (by simpa using hid)]
        exact ⟨n + 1, .more hround hn⟩
      · have hround : Round next (id :: work, seen) (next id ++ work, id :: seen) :=
          .record (.refl _) hid (.refl _)
        obtain ⟨n, hn⟩ := ih (Nat.le_of_lt_succ ((hround.pending_lt hnext).trans_le hfuel))
        rw [search, if_neg (by simpa using hid)]
        exact ⟨n + 1, .more hround hn⟩

end Rounds

def portTargets (edges : List Edge) (head : Text) (port : Option Text) : List Text :=
  (edges.filter fun e => e.source == head && e.sourcePort == port).map (·.target)

/-- The edges of the node itself are not followed again, so each edge is counted once. -/
theorem pending_portTargets_le (edges : List Edge) (head : Text) (port : Option Text) :
    pending (edges.map (·.source)) (portTargets edges head port) [head] ≤ edges.length := by
  simp only [pending, portTargets, List.length_map, ← List.countP_eq_length_filter, List.countP_map]
  induction edges with
  | nil => simp
  | cons e rest ih =>
    by_cases hs : e.source = head
    · by_cases hp : e.sourcePort = port <;> simp [hs, hp] at ih ⊢ <;> omega
    · simp [hs] at ih ⊢
      omega

/-- The region behind a port is exact: it holds a node if and only if that is not the head and some
excursion from the port leads to it. The loop that finds it always ends: whatever item is taken
next, no run has more rounds than there are edges, a run can go on until its worklist is empty, and
then it has seen the head and the region. The search that is run is one of these runs. -/
theorem region_exact (edges : List Edge) (head : Text) (port : Option Text) :
    (∀ id, id ∈ reachableFromPort edges head port ↔
      id ≠ head ∧ ∃ path, Excursion edges head port path id) ∧
    (∀ n work seen,
      Rounds (targets edges) n (portTargets edges head port, [head]) (work, seen) →
        n ≤ edges.length ∧ (work ≠ [] → ∃ s, Round (targets edges) (work, seen) s) ∧
        (work = [] → ∀ id, id ∈ reachableFromPort edges head port ↔ id ∈ seen ∧ id ≠ head)) ∧
    ∃ n seen, Rounds (targets edges) n (portTargets edges head port, [head]) ([], seen) ∧
      reachableFromPort edges head port = seen.filter (· != head) := by
  have hnext : ∀ id, (targets edges id).length ≤ (edges.map (·.source)).count id :=
    fun id => (length_targets edges id).le
  obtain ⟨m, hm⟩ := exists_rounds_search hnext
    (pending_sources_le edges (portTargets edges head port) [head])
  refine ⟨fun id => ?_, fun n work seen h => ⟨?_, ?_, ?_⟩, m, _, hm, rfl⟩
  · rw [mem_region_iff_excursion]
    refine ⟨?_, And.right⟩
    rintro ⟨path, hpath⟩
    exact ⟨hpath.ne, path, hpath⟩
  · calc
      n ≤ n + pending (edges.map (·.source)) work seen := Nat.le_add_right _ _
      _ ≤ pending (edges.map (·.source)) (portTargets edges head port) [head] := h.le_pending hnext
      _ ≤ edges.length := pending_portTargets_le edges head port
  · exact fun hwork => exists_round hwork
  · rintro rfl id
    rw [h.mem_seen, ← hm.mem_seen]
    simp [reachableFromPort, portTargets]

/-- A loop whose body holds a cycle of its own and an edge that is given twice; one edge comes from
a node that nothing else mentions. -/
def roundTrip : List Edge :=
  [⟨"e1", "h", "a", some "loop", none⟩, ⟨"e2", "a", "b", none, none⟩, ⟨"e2", "a", "b", none, none⟩,
    ⟨"e3", "b", "a", none, none⟩, ⟨"e4", "b", "h", none, none⟩, ⟨"e5", "h", "c", some "exit", none⟩,
    ⟨"e6", "z", "c", none, none⟩]

theorem region_exact_roundTrip :
    ("b" : Text) ∈ reachableFromPort roundTrip "h" (some "loop") ∧
    (¬ ∃ path, Excursion roundTrip "h" (some "loop") path "c") ∧
    ∃ n ≤ 7, ∃ seen,
      Rounds (targets roundTrip) n (portTargets roundTrip "h" (some "loop"), ["h"]) ([], seen) ∧
        ("b" : Text) ∈ seen := by
  obtain ⟨hiff, hruns, n, seen, hrun, -⟩ := region_exact roundTrip "h" (some "loop")
  have hb : ("b" : Text) ∈ reachableFromPort roundTrip "h" (some "loop") :=
    (hiff "b").mpr ⟨by decide, [⟨"e1", "h", "a", some "loop", none⟩, ⟨"e2", "a", "b", none, none⟩],
      by decide, ⟨_, rfl, rfl, rfl⟩, by simp, by decide, rfl⟩
  obtain ⟨hle, -, hseen⟩ := hruns n [] seen hrun
  refine ⟨hb, ?_, n, hle, seen, hrun, ((hseen rfl "b").mp hb).1⟩
  intro hpath
  exact absurd ((hiff "c").mpr ⟨by decide, hpath⟩) (by decide)

end WorkflowCompiler.Graph
