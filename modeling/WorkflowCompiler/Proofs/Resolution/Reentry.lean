import Mathlib
import WorkflowCompiler.Proofs.Resolution.Once
import WorkflowCompiler.Proofs.Resolution.Total
import WorkflowCompiler.Proofs.Validation.Snares

/-! # When resolution comes back to a node

An accepted graph is resolved unless a chain comes back to a node that is still active. A loop whose
exit leads straight back to it always causes this. Apart from that it takes two loops that lie in the
bodies of each other, and then it depends on the order of the edges.
-/
namespace WorkflowCompiler.Resolution

section Exit
variable {g : Graph}

/-- The merge points among the active nodes have no shared sequences yet. -/
def Unmade (g : Graph) (active : List Text) (p : Progress) : Prop :=
  ∀ a ∈ active, (Facts.ofGraph g).isMerge a → a ∉ p.keys

theorem Logs.unmade (hg : g.Sound) {active : List Text} {c : Call} {p q : Progress}
    {made : List Block} (h : Logs (.ofGraph g) active c p made q) (hp : Unmade g active p) :
    Unmade g active q := by
  intro a ha hmerge hkey
  rcases (h.complete hg).keys a hkey with hkey | hentered
  · exact hp a ha hmerge hkey
  · exact (h.entered_spec a hentered).1 ha

/-- The chain of a loop goes on with what the exit leads to, and stops where it did before. -/
theorem Entry.Of.exists_exit {e : Entry} {c : Call} (he : e.Of (.ofGraph g) c)
    (hk : e.node.kind = .loop) {t : Text} (ht : t ∈ (Facts.ofGraph g).targets c.start "exit") :
    ∃ c' ∈ callsOf e.events, c'.start = t ∧ c'.stop = c.stop := by
  have hmem : continuation (.ofGraph g) c.owner c.stop e.node ∈ e.laid.map Laid.strand := by
    rw [he.strands, Resolution.strands]
    exact List.mem_append_right _ (List.mem_singleton_self _)
  obtain ⟨l, hl, hstrand⟩ := List.mem_map.mp hmem
  have hj := he.joins l hl
  have hstart : t ∈ l.calls.map (·.start) := by
    rw [hj.starts, hstrand]
    simpa [continuation, nexts, hk, he.node_id] using ht
  obtain ⟨c', hc', hstart⟩ := List.mem_map.mp hstart
  refine ⟨c', he.calls ▸ List.mem_flatMap.mpr ⟨l, hl, hc'⟩, hstart, ?_⟩
  rw [(hj.context c' hc').2, hstrand]
  rfl

/-- A loop whose exit leads back to it is entered by no chain that is resolved: the chain would come
back to the loop while it is active. -/
theorem Logs.not_entered (hg : g.Sound) {head : Text} {node : Node}
    (hnode : g.node? head = some node) (hk : node.kind = .loop)
    (hexit : head ∈ (Facts.ofGraph g).targets head "exit") {active : List Text} {c : Call}
    {p q : Progress} {made : List Block} (h : Logs (.ofGraph g) active c p made q)
    (hc : Context g active c) (hp : Unmade g active p) : head ∉ entered made := by
  refine (Logs.induction_context (motive := fun active c p made _ => Unmade g active p →
    head ∉ entered made ∧ (c.start = head → head ∈ active → head ∈ c.stop)) ?_ h hc hp).1
  intro active c p made q hc hs hp
  have hentry : ∀ {e : Entry} {owner items p made q}, c.start ∉ c.stop →
      Unmade g (c.start :: active) p → e.Of (.ofGraph g) ⟨owner, c.stop, c.start, items⟩ →
      Logged (fun c' p made q => Logs (.ofGraph g) (c.start :: active) c' p made q ∧
        Context g (c.start :: active) c' ∧ (Unmade g (c.start :: active) p →
          head ∉ entered made ∧ (c'.start = head → head ∈ c.start :: active → head ∈ c'.stop)))
        p e.events made q → head ∉ entered made := by
    intro e owner items p made q hstop hp he hl hentered
    have hl := hl.with_kept (fun hlog hp => hlog.1.unmade hg hp) (fun _ hp => hp) hp
    rcases he.mem_entered hl hentered with rfl | ⟨c', _, p', made', q', hlog, hentered⟩
    · have hloop : e.node.kind = .loop := by
        obtain rfl : node = e.node := Option.some.inj (hnode.symm.trans he.node)
        exact hk
      obtain ⟨c', hc', hstart, hsame⟩ := he.exists_exit hloop hexit
      obtain ⟨p', made', q', ⟨_, _, hback⟩, hp'⟩ := hl.exists_of_call hc'
      have hin := (hback hp').2 hstart List.mem_cons_self
      exact hstop (hsame ▸ hin)
    · exact (hlog.1.2.2 hlog.2).1 hentered
  cases hs with
  | stopped hstop => exact ⟨by simp, fun hstart _ => hstart ▸ hstop⟩
  | known _ hmerge _ hlookup =>
    refine ⟨by simp, ?_⟩
    rintro rfl hactive
    exact absurd (List.mem_map.mpr ⟨_, mem_of_lookup hlookup, rfl⟩) (hp _ hactive hmerge)
  | @fresh owner stop id items _ r made e hstop hactive hmerge _ hlookup he hl =>
    have hp' : Unmade g (id :: active) (p.meet id) := by
      intro a ha ham
      rcases List.mem_cons.mp ha with rfl | ha
      · intro hkey
        obtain ⟨s, hs, hid⟩ := List.mem_map.mp hkey
        exact absurd hid.symm (by simpa using List.lookup_eq_none_iff.mp hlookup s hs)
      · exact hp a ha ham
    refine ⟨by simpa using hentry hstop hp' he hl, ?_⟩
    rintro rfl hin
    exact absurd hin hactive
  | entered e hstop hactive hown he hl =>
    have hp' : Unmade g (c.start :: active) p := by
      intro a ha ham
      rcases List.mem_cons.mp ha with rfl | ha
      · exact absurd (hc.owned _ (hown ham)) hactive
      · exact hp a ha ham
    refine ⟨hentry hstop hp' he hl, ?_⟩
    rintro rfl hin
    exact absurd hin hactive

/-- Where the exit of a loop leads straight back to it, nothing is resolved. -/
theorem RootLog.not_exitReturns {root : Block} {l : Laid} {made : List Block} {q : Progress}
    (hg : g.Sound) (h : RootLog g root l made q) : ¬ g.ExitReturns := by
  rintro ⟨e, he, hname, hself, hreached⟩
  obtain ⟨source, port, hsource, heffective, hmem⟩ := hg.leaves e he
  have hport : g.portOf? e = some ("exit" : Text) := by
    rw [Graph.portOf?_eq hsource, hname]
    rfl
  obtain rfl : "exit" = port := by
    rw [Graph.portOf?_eq hsource, heffective] at hport
    exact (Option.some.inj hport).symm
  have hk := kind_of_loop_port (Or.inr rfl) hmem
  have hexit : e.source ∈ (Facts.ofGraph g).targets e.source "exit" :=
    mem_targets_ofGraph.mpr ⟨e, he, rfl, hport, hself⟩
  obtain ⟨b, hb, hmain⟩ := List.mem_filterMap.mp ((h.mem_entered_iff hg).mpr hreached)
  have hlogged := h.logged_context.with_kept (I := Unmade g [])
    (fun hlog hp => hlog.1.unmade hg hp) (fun _ hp => hp) (by simp [Unmade])
  rcases hlogged.mem_made hb with hb | ⟨c, _, p', made', q', ⟨⟨hlog, hc⟩, hp⟩, hb⟩
  · simp [makesOf_calls] at hb
  · exact hlog.not_entered hg hsource hk hexit hc hp (List.mem_filterMap.mpr ⟨b, hb, hmain⟩)

end Exit

/-- An accepted graph whose choices are not empty texts is resolved, or resolution comes back to a
node that it is still at, and then a snare leads there. It never comes back if no exit returns to its
loop and no two loops interlock, and always if an exit returns. -/
theorem resolves_or_reenters (v : Validated)
    (hgiven : ∀ n ∈ v.graph.nodes, ∀ field ∈ (["loopType", "joinStrategy"] : List Text),
      n.config.get field ≠ .str []) :
    ((∃ root, (resolve v).block = .ok root) ∨
      ∃ id, (resolve v).block = .error (.reentered id) ∧ v.graph.Snare id) ∧
    (¬ v.graph.ExitReturns → ¬ v.graph.Interlocked → ∃ root, (resolve v).block = .ok root) ∧
    (v.graph.ExitReturns → ∀ root, (resolve v).block ≠ .ok root) := by
  have hends := exists_block_or_snare v fun node hn => Settled.of_given v hgiven hn
  refine ⟨hends, ?_, ?_⟩
  · intro hexit hinter
    refine hends.resolve_right ?_
    rintro ⟨id, _, hsnare⟩
    exact (v.snare_cases hsnare).elim hexit hinter
  · intro hexit root hroot
    obtain ⟨l, made, q, hlog⟩ := exists_rootLog hroot
    exact hlog.not_exitReturns v.sound hexit

/-- A loop without a body whose exit leads back to it. -/
def returningExit : Graph where
  nodes := [⟨"i", .input, [], none⟩, ⟨"h", .loop, [("loopCount", .int 2)], none⟩]
  edges := [⟨"e1", "i", "h", none, none⟩, ⟨"e2", "h", "h", some "exit", none⟩]

theorem validate_returningExit : validate returningExit = .ok [] :=
  Validation.validate_eq_nil rfl rfl rfl (by cbv) (by cbv) rfl

/-- The graph is accepted and no choice is an empty text, yet resolution comes back to a node. -/
theorem reenters_returningExit :
    (∀ n ∈ returningExit.nodes, ∀ field ∈ (["loopType", "joinStrategy"] : List Text),
      n.config.get field ≠ .str []) ∧
    ∃ id, (resolve ⟨returningExit, [], validate_returningExit, rfl⟩).block =
      .error (.reentered id) ∧ returningExit.Snare id := by
  have hgiven : ∀ n ∈ returningExit.nodes, ∀ field ∈ (["loopType", "joinStrategy"] : List Text),
      n.config.get field ≠ .str [] := by
    simp only [returningExit, List.forall_mem_cons, List.not_mem_nil, false_imp_iff,
      implies_true, and_true]
    exact ⟨⟨nofun, nofun⟩, nofun, nofun⟩
  have hentry : ("i" : Text) ∈ returningExit.entryIds := by
    rw [show returningExit.entryIds = ["i"] by cbv]
    exact List.mem_singleton_self _
  have hexit : returningExit.ExitReturns := by
    refine ⟨⟨"e2", "h", "h", some "exit", none⟩, by simp [returningExit], rfl, rfl, ?_⟩
    exact ⟨"i", hentry, .single ⟨⟨"e1", "i", "h", none, none⟩, by simp [returningExit], rfl, rfl⟩⟩
  obtain ⟨hends, _, hfails⟩ :=
    resolves_or_reenters ⟨returningExit, [], validate_returningExit, rfl⟩ hgiven
  refine ⟨hgiven, hends.resolve_left ?_⟩
  rintro ⟨root, hroot⟩
  exact hfails hexit root hroot

/-- Two loops in the bodies of each other: the second one is around a split that leads back to either
of them, and the first one leads to the split past the second. -/
def interlocking : Graph where
  nodes := [⟨"i", .input, [], none⟩, ⟨"a", .loop, [("loopCount", .int 2)], none⟩,
    ⟨"p", .debug, [], none⟩, ⟨"q", .debug, [], none⟩, ⟨"b", .loop, [("loopCount", .int 2)], none⟩,
    ⟨"c", .conditional, [("condition", .str "k")], none⟩]
  edges := [⟨"e1", "i", "a", none, none⟩, ⟨"e2", "a", "q", some "loop", none⟩,
    ⟨"e3", "a", "p", some "loop", none⟩, ⟨"e4", "q", "c", none, none⟩,
    ⟨"e5", "p", "b", none, none⟩, ⟨"e6", "b", "c", some "loop", none⟩,
    ⟨"e7", "c", "b", some "true", none⟩, ⟨"e8", "c", "a", some "false", none⟩]

theorem validate_interlocking : validate interlocking = .ok [] :=
  Validation.validate_eq_nil rfl rfl rfl (by cbv) (by cbv) rfl

example : (resolve ⟨interlocking, [], validate_interlocking, rfl⟩).block =
    .error (.reentered "c") := by
  cbv

end WorkflowCompiler.Resolution
