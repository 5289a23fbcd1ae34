import Mathlib
import WorkflowCompiler.Proofs.Graph.Paths
import WorkflowCompiler.Proofs.Validation.Cycles

/-! # Snares of accepted graphs

An accepted graph may still have snares. The cycle of a snare is a knot, and its owner is left by the
exit or entered past its head. So an exit leads straight back to its loop, or two loops lie in the
bodies of each other.
-/
namespace WorkflowCompiler

namespace Graph
open Relation

/-- The exit of a loop that can be reached leads straight back to the loop. -/
def ExitReturns (g : Graph) : Prop :=
  ∃ e ∈ g.edges, e.sourcePort = some ("exit" : Text) ∧ e.target = e.source ∧ g.Reached e.source

/-- Two loops that can be reached lie in the bodies of each other. -/
def Interlocked (g : Graph) : Prop :=
  ∃ a b, a ∈ loopBody g.edges b ∧ b ∈ loopBody g.edges a ∧ g.Reached a

section Body
variable {edges : List Edge} {head : Text}

theorem ne_head_of_mem_loopBody {x : Text} (h : x ∈ loopBody edges head) : x ≠ head := by
  obtain ⟨e, _, _, _, ht, hp⟩ := mem_reachableFromPort.mp h
  rcases ReflTransGen.cases_tail hp with rfl | ⟨_, _, hl⟩
  · exact ht
  · exact hl.2

theorem mem_loopBody_of_leads {x y : Text} (h : x ∈ loopBody edges head) (hl : Leads edges x y)
    (hne : y ≠ head) : y ∈ loopBody edges head := by
  obtain ⟨e, he, hs, hport, ht, hp⟩ := mem_reachableFromPort.mp h
  exact mem_reachableFromPort.mpr ⟨e, he, hs, hport, ht, hp.tail ⟨hl, hne⟩⟩

/-- The part of a loop that comes round: the head, and what of its body leads back to it. -/
def round (edges : List Edge) (head : Text) : Set Text :=
  {x | x = head ∨ x ∈ loopBody edges head ∧ Reaches edges x head}

theorem round_reaches_head {x : Text} (hx : x ∈ loopBody edges head) (hr : Reaches edges x head) :
    TransGen (fun a b => Leads edges a b ∧ a ∈ round edges head ∧ b ∈ round edges head) x head := by
  induction hr using ReflTransGen.head_induction_on with
  | refl => exact absurd rfl (ne_head_of_mem_loopBody hx)
  | @head a b hl hr ih =>
    have ha : a ∈ round edges head := Or.inr ⟨hx, .head hl hr⟩
    by_cases hb : b = head
    · subst hb
      exact .single ⟨hl, ha, Or.inl rfl⟩
    · have hbody := mem_loopBody_of_leads hx hl hb
      exact .head ⟨hl, ha, Or.inr ⟨hbody, hr⟩⟩ (ih hbody)

theorem head_reaches_round {x : Text} (hx : x ∈ loopBody edges head) (hr : Reaches edges x head) :
    TransGen (fun a b => Leads edges a b ∧ a ∈ round edges head ∧ b ∈ round edges head) head x := by
  obtain ⟨e, he, hs, hport, ht, hp⟩ := mem_reachableFromPort.mp hx
  clear hx
  induction hp with
  | refl =>
    have hbody : e.target ∈ loopBody edges head :=
      mem_reachableFromPort.mpr ⟨e, he, hs, hport, ht, .refl⟩
    exact .single ⟨⟨e, he, hs, rfl⟩, Or.inl rfl, Or.inr ⟨hbody, hr⟩⟩
  | @tail a b hp hl ih =>
    have ha : Reaches edges a head := .head hl.1 hr
    have hbody : ∀ {y}, ReflTransGen (fun a b => Leads edges a b ∧ b ≠ head) e.target y →
        y ∈ loopBody edges head :=
      fun hp => mem_reachableFromPort.mpr ⟨e, he, hs, hport, ht, hp⟩
    exact .tail (ih ha) ⟨hl.1, Or.inr ⟨hbody hp, ha⟩, Or.inr ⟨hbody (hp.tail hl), hr⟩⟩

theorem knot_round {w : Text} (hw : w ∈ loopBody edges head) (hr : Reaches edges w head) :
    Knot edges (round edges head) where
  nonempty := ⟨head, Or.inl rfl⟩
  tied a ha b hb := by
    have hback : TransGen (fun a b => Leads edges a b ∧ a ∈ round edges head ∧
        b ∈ round edges head) a head := by
      rcases ha with rfl | ⟨ha, hra⟩
      · exact (head_reaches_round hw hr).trans (round_reaches_head hw hr)
      · exact round_reaches_head ha hra
    rcases hb with rfl | ⟨hb, hrb⟩
    · exact hback
    · exact hback.trans (head_reaches_round hb hrb)

end Body

section Path
variable {g : Graph}

theorem IsPath.knot {x : Text} {cycle : List Edge} (h : g.IsPath x cycle x) (hne : cycle ≠ []) :
    Knot g.edges {y | y ∈ cycle.map (·.source)} := by
  obtain ⟨first, rest, rfl⟩ := List.exists_cons_of_ne_nil hne
  have hx : x ∈ (first :: rest).map (·.source) := by
    rw [← h.2.1]
    exact List.mem_cons_self
  have hstay : ∀ e ∈ first :: rest, e.source ∈ {y | y ∈ (first :: rest).map (·.source)} ∧
      e.target ∈ {y | y ∈ (first :: rest).map (·.source)} := by
    intro e he
    refine ⟨List.mem_map_of_mem he, ?_⟩
    rcases h.target_mem he with ht | rfl
    · exact ht
    · exact hx
  refine ⟨⟨x, hx⟩, fun a ha b hb => ?_⟩
  obtain ⟨before, e, after, heq, hs, _, hafter⟩ := h.exists_cut ha
  obtain ⟨before', e', after', heq', _, hbefore', _⟩ := h.exists_cut hb
  have hback := hafter.2.2.reaches_within fun y hy => hstay y (by simp [heq, hy])
  have hon := hbefore'.reaches_within fun y hy => hstay y (by simp [heq', hy])
  have he : e ∈ first :: rest := by simp [heq]
  exact .head' ⟨⟨e, hafter.1, hs, rfl⟩, hs ▸ hstay e he⟩ (hback.trans hon)

end Path

end Graph

theorem NodeKind.effectivePort?_loop {port : Option Text} {name : Text} (hname : name ≠ []) :
    NodeKind.loop.effectivePort? port = some name ↔ port = some name := by
  cases port with
  | none => simp [NodeKind.effectivePort?, NodeKind.defaultOutput?]
  | some given =>
    by_cases hgiven : given = []
    · simp [NodeKind.effectivePort?, NodeKind.defaultOutput?, hgiven, hname.symm]
    · simp [NodeKind.effectivePort?, hgiven]

namespace Validated
open Relation WorkflowCompiler.Graph Validation

/-- An edge that leaves a loop, but not into its body, is named after the exit. -/
theorem sourcePort_of_isLoop (v : Validated) {e : Edge} (he : e ∈ v.graph.edges)
    (hloop : isLoop v.graph e.source) (hport : v.graph.portOf? e ≠ some ("loop" : Text)) :
    e.sourcePort = some ("exit" : Text) := by
  obtain ⟨source, port, hsource, heffective, hmem⟩ := v.sound.leaves e he
  have hk : source.kind = .loop := by simpa [isLoop, hsource] using hloop
  rw [portOf?, hsource, Option.bind_some, heffective] at hport
  have hexit : port = "exit" := by
    simp only [hk, NodeKind.outputNames, NodeKind.outputs, List.map_cons, List.map_nil,
      List.mem_cons, List.not_mem_nil, or_false] at hmem
    exact hmem.resolve_left fun h => hport (congrArg some h)
  rw [hk, hexit] at heffective
  exact (NodeKind.effectivePort?_loop (by decide)).mp heffective

theorem not_transGen_entry (v : Validated) {a entry : Text} (hentry : entry ∈ v.graph.entryIds) :
    ¬ TransGen (Leads v.graph.edges) a entry := by
  intro hpath
  obtain ⟨_, _, e, he, _, rfl⟩ := TransGen.tail'_iff.mp hpath
  exact v.sound.not_enters_entry he hentry

/-- The body of a loop is reached around its head only if another loop interlocks with this one. -/
theorem interlocked_of_enters (v : Validated) {head : Text} {owned : List Text} {K : Set Text}
    (howner : v.graph.Owner head owned K) (hreached : v.graph.Reached head) {entry : Text}
    (hentry : entry ∈ v.graph.entryIds) {path : List Edge} {b : Text}
    (hpath : v.graph.IsPath entry path b) (hb : b ∈ loopBody v.graph.edges head)
    (hround : Reaches v.graph.edges b head) (havoid : head ∉ path.map (·.source)) :
    v.graph.Interlocked := by
  have hout : entry ∉ {x | x ∈ loopBody v.graph.edges head} :=
    fun hin => v.not_transGen_entry hentry (transGen_of_mem_loopBody hin)
  obtain ⟨before, e, after, rfl, hsource, htarget, hafter⟩ := hpath.exists_enter hout hb
  have he : e ∈ v.graph.edges := hpath.mem_edges (by simp)
  have hknot := knot_round htarget (hafter.reaches.trans hround)
  have htargetRound : e.target ∈ round v.graph.edges head :=
    Or.inr ⟨htarget, hafter.reaches.trans hround⟩
  obtain ⟨_, henter, _⟩ := owns_iff.mp howner.owns
  rcases howner.apart _ hknot ⟨head, Or.inl rfl, howner.holds head howner.mem⟩ with
    hin | ⟨k, hk, hkout, hall⟩
  · -- the region would be entered past its head
    rcases henter e he (hin _ htargetRound) (ne_head_of_mem_loopBody htarget) with hs | hs
    · exact absurd hs hsource
    · exact absurd (by simp [← hs]) havoid
  · have hhead := howner.holds head howner.mem
    rcases hk with rfl | ⟨hk, _⟩
    · exact absurd hhead hkout
    · exact ⟨head, k, hall head hhead, hk, hreached⟩

/-- A snare of an accepted graph is made by an exit that returns or by loops that interlock. -/
theorem snare_cases (v : Validated) {id : Text} (h : v.graph.Snare id) :
    v.graph.ExitReturns ∨ v.graph.Interlocked := by
  obtain ⟨entry, hentry, path, first, cycle, hpath, hcycle, hport, hnodup⟩ := h
  rw [List.map_append, List.nodup_append] at hnodup
  obtain ⟨_, _, hdisjoint⟩ := hnodup
  have hreached : v.graph.Reached id := ⟨entry, hentry, hpath.reaches⟩
  obtain ⟨head, owned, howner⟩ := v.exists_owner (hcycle.knot (List.cons_ne_nil _ _))
  obtain ⟨hbody, henter, hexit⟩ := owns_iff.mp howner.owns
  have hhead : Reaches v.graph.edges id head := by
    obtain ⟨_, _, _, _, _, hbefore, _⟩ := hcycle.exists_cut howner.mem
    exact hbefore.reaches
  have hfirst : first ∈ v.graph.edges := hcycle.1
  obtain rfl : first.source = id := hcycle.2.1
  by_cases hid : first.source = head
  · -- the cycle leaves its owner by the exit
    subst hid
    have hexitPort := v.sourcePort_of_isLoop hfirst howner.isLoop hport
    by_cases hself : first.target = first.source
    · exact Or.inl ⟨first, hfirst, hexitPort, hself, hreached⟩
    · have hon : first.target ∈ (first :: cycle).map (·.source) :=
        (hcycle.target_mem List.mem_cons_self).resolve_right hself
      have hin := (hbody _ (howner.holds _ hon)).resolve_left hself
      have hregion : first.target ∈ reachableFromPort v.graph.edges first.source (some "exit") :=
        mem_reachableFromPort.mpr ⟨first, hfirst, rfl, hexitPort, hself, .refl⟩
      exact absurd hin (hexit _ hregion)
  · -- the path comes to the cycle past the owner
    right
    rcases List.eq_nil_or_concat path with rfl | ⟨init, last, rfl⟩
    · obtain rfl : entry = first.source := hpath
      exact absurd (.head' ⟨first, hfirst, rfl, rfl⟩ hcycle.2.2.reaches)
        (v.not_transGen_entry hentry)
    rw [List.concat_eq_append] at hpath hdisjoint
    obtain ⟨b, hinit, hlast, rfl, htarget⟩ := isPath_append.mp hpath
    have htarget : last.target = first.source := htarget
    have havoid : head ∉ (init ++ [last]).map (·.source) :=
      fun hmem => hdisjoint _ hmem _ howner.mem rfl
    have howned : last.target ∈ owned := by
      rw [htarget]
      exact howner.holds _ (by simp)
    have hsource : last.source ∈ loopBody v.graph.edges head := by
      rcases henter last hlast howned (htarget ▸ hid) with hs | hs
      · exact hs
      · exact absurd (by simp [hs]) havoid
    have hback : Reaches v.graph.edges last.source head :=
      .head ⟨last, hlast, rfl, htarget⟩ hhead
    have hreachedHead : v.graph.Reached head := by
      obtain ⟨s, hs, hpath⟩ := hreached
      exact ⟨s, hs, hpath.trans hhead⟩
    refine v.interlocked_of_enters howner hreachedHead hentry hinit hsource hback ?_
    exact fun hmem => havoid (by simpa using Or.inl (List.mem_map.mp hmem))

end Validated

end WorkflowCompiler
