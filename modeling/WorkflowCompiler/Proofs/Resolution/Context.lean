import Mathlib
import WorkflowCompiler.Proofs.Graph.Around
import WorkflowCompiler.Proofs.Resolution.Log
import WorkflowCompiler.Proofs.Resolution.Strands

/-! # Where a run stands

The active nodes are a way from an entry to the node with which a chain begins, so whatever is not
active can be avoided on the way there. The heads at which a chain stops are active, and the chain
stays in their own bodies.
-/
namespace WorkflowCompiler.Resolution

/-- Where a chain stands that is resolved while some nodes are active. -/
structure Context (g : Graph) (active : List Text) (c : Call) : Prop where
  /-- The merge point to which the chain belongs is active. -/
  owned : ∀ m, c.owner = some m → m ∈ active
  /-- The active nodes lead to the chain. -/
  leads : ∀ a ∈ active, Relation.TransGen (Graph.Leads g.edges) a c.start
  /-- No other node need be passed on the way to the chain. -/
  around : ∀ id ∉ active, id ≠ c.start → g.ReachedAround id c.start
  stops : ∀ head ∈ c.stop, head ∈ active
  /-- Below the head of a loop, its dominators are active, and the chain is in its own body. -/
  inside : ∀ head ∈ c.stop, (∀ id, ¬ g.ReachedAround id head → id ∈ active) ∧
    (c.start ∉ active → g.InOwnBody head c.start)

theorem context_entry {g : Graph} {c : Call} (hstart : c.start ∈ g.entryIds) (howner : c.owner = none)
    (hstop : c.stop = []) : Context g [] c where
  owned m hm := by
    rw [howner] at hm
    cases hm
  leads a ha := absurd ha List.not_mem_nil
  around id _ hne := Graph.reachedAround_entry hstart hne.symm
  stops head hh := by
    rw [hstop] at hh
    exact absurd hh List.not_mem_nil
  inside head hh := by
    rw [hstop] at hh
    exact absurd hh List.not_mem_nil

theorem Context.inherit {g : Graph} {active : List Text} {c : Call} (h : Context g active c)
    (hactive : c.start ∉ active) {owner : Option Text} (howner : owner = c.owner ∨ owner = some c.start)
    {e : Entry} {items : List Block} (he : e.Of (.ofGraph g) ⟨owner, c.stop, c.start, items⟩)
    {c' : Call} (hc : c' ∈ callsOf e.events) : Context g (c.start :: active) c' := by
  obtain ⟨s, hs, hstart, howner', hstop⟩ := he.call_strand hc
  have hid : e.node.id = c.start := he.node_id
  have hl : Graph.Leads g.edges c.start c'.start := he.leads hc
  obtain ⟨hsowner, hsstop⟩ := strand_context hs
  have hnew : ∀ id, ¬ g.ReachedAround id c.start → id ∈ c.start :: active := by
    intro id hnot
    by_contra hmem
    obtain ⟨hne, hmem⟩ := not_or.mp (mt List.mem_cons.mpr hmem)
    exact hnot (h.around id hmem hne)
  refine ⟨?_, ?_, ?_, ?_, ?_⟩
  · intro m hm
    rw [howner'] at hm
    rcases hsowner with hnone | hsame
    · rw [hnone] at hm
      cases hm
    · rw [hsame] at hm
      rcases howner with rfl | rfl
      · exact List.mem_cons_of_mem _ (h.owned m hm)
      · cases hm
        exact List.mem_cons_self
  · intro a ha
    rcases List.mem_cons.mp ha with rfl | ha
    · exact .single hl
    · exact (h.leads a ha).tail hl
  · intro id hmem hne
    obtain ⟨hne', hmem⟩ := not_or.mp (mt List.mem_cons.mpr hmem)
    exact (h.around id hmem hne').step hl hne.symm
  · intro head hh
    rw [hstop] at hh
    rcases hsstop with hsame | ⟨hmore, _⟩
    · exact List.mem_cons_of_mem _ (h.stops head (hsame ▸ hh))
    · rw [hmore, hid] at hh
      rcases List.mem_cons.mp hh with rfl | hh
      · exact List.mem_cons_self
      · exact List.mem_cons_of_mem _ (h.stops head hh)
  · intro head hh
    have hold : head ∈ c.stop → (∀ id, ¬ g.ReachedAround id head → id ∈ c.start :: active) ∧
        (c'.start ∉ c.start :: active → g.InOwnBody head c'.start) := by
      intro hh
      obtain ⟨hdom, hbody⟩ := h.inside head hh
      refine ⟨fun id hnot => List.mem_cons_of_mem _ (hdom id hnot), fun hmem => ?_⟩
      obtain ⟨x, hx, hxs, hxp, hxa, hp⟩ := hbody hactive
      refine ⟨x, hx, hxs, hxp, hxa, hp.tail ⟨hl, ?_⟩⟩
      by_contra hnot
      exact hmem (List.mem_cons_of_mem _ (hdom _ hnot))
    rw [hstop] at hh
    rcases hsstop with hsame | ⟨hmore, hloop⟩
    · exact hold (hsame ▸ hh)
    · rw [hmore, hid] at hh
      rcases List.mem_cons.mp hh with rfl | hh
      · refine ⟨hnew, fun hmem => ?_⟩
        rw [hloop] at hstart
        obtain ⟨x, hx, hxs, hxp, hxt⟩ := mem_targets_ofGraph.mp hstart
        have hxa : g.ReachedAround x.target c.start := by
          by_contra hnot
          exact hmem (hxt ▸ hnew _ hnot)
        exact ⟨x, hx, hxs.trans hid, hxp, hxa, hxt ▸ .refl⟩
      · exact hold hh

/-- What holds of every chain in its context follows from what one step keeps. -/
theorem Logs.induction_context {g : Graph} {motive : List Text → Logging}
    (step : ∀ {active c p made q}, Context g active c →
      Step (.ofGraph g) (fun active c p made q => Logs (.ofGraph g) active c p made q ∧
        Context g active c ∧ motive active c p made q) active c p made q →
      motive active c p made q)
    {active : List Text} {c : Call} {p q : Progress} {made : List Block}
    (h : Logs (.ofGraph g) active c p made q) (hc : Context g active c) :
    motive active c p made q := by
  refine Logs.induction
    (motive := fun active c p made q => Context g active c → motive active c p made q) ?_ h hc
  intro active c p made q hs hc
  apply step hc
  cases hs with
  | stopped hstop => exact .stopped hstop
  | known hstop hmerge howner hlookup => exact .known hstop hmerge howner hlookup
  | fresh e hstop hactive hmerge howner hlookup he hl =>
    refine .fresh e hstop hactive hmerge howner hlookup he (hl.mono_mem fun c' hc' _ _ _ hlog => ?_)
    have hctx := hc.inherit hactive (Or.inr rfl) he hc'
    exact ⟨hlog.1, hctx, hlog.2 hctx⟩
  | entered e hstop hactive hmerge he hl =>
    refine .entered e hstop hactive hmerge he (hl.mono_mem fun c' hc' _ _ _ hlog => ?_)
    have hctx := hc.inherit hactive (Or.inl rfl) he hc'
    exact ⟨hlog.1, hctx, hlog.2 hctx⟩

section Root
variable {g : Graph} {root : Block} {l : Laid} {made : List Block} {q : Progress}

theorem RootLog.starts (h : RootLog g root l made q) : l.calls.map (·.start) = g.entryIds := by
  rw [h.joins.starts, h.strand]

theorem RootLog.context (h : RootLog g root l made q) {c : Call} (hc : c ∈ l.calls) :
    Context g [] c := by
  obtain ⟨howner, hstop⟩ := h.joins.context c hc
  rw [h.strand] at howner hstop
  exact context_entry (h.starts ▸ List.mem_map_of_mem hc) howner hstop

theorem RootLog.logged_context (h : RootLog g root l made q) :
    Logged (fun c p made q => Logs (.ofGraph g) [] c p made q ∧ Context g [] c) {}
      (l.calls.map .call) made q :=
  h.logged.mono_mem fun c hc _ _ _ hlog => ⟨hlog, h.context (by rwa [callsOf_calls] at hc)⟩

end Root

end WorkflowCompiler.Resolution
