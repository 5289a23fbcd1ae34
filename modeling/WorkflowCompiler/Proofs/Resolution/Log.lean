import Mathlib
import WorkflowCompiler.Proofs.Resolution.Run
import WorkflowCompiler.Proofs.Value.Members

/-! # Logs of runs

Every block that a resolution makes goes into a log, which says what a run does beyond its result.
What holds of all runs is proved by one induction: a chain ends at the head of a loop around it, or
is a shared sequence that is known, or is a shared sequence made from what its merge point leads to,
or is what its node leads to.
-/
namespace WorkflowCompiler.Resolution

/-- What a kind of call does: it leads from one state of progress to another one, and makes the
blocks of a log. -/
abbrev Logging := Call → Progress → List Block → Progress → Prop

/-- Events lead from one state of progress to another one and make the blocks of a log. -/
inductive Logged (logs : Logging) : Progress → List Event → List Block → Progress → Prop
  | nil {p : Progress} : Logged logs p [] [] p
  | call {p q r : Progress} {c : Call} {events : List Event} {made more : List Block} :
    logs c p made q → Logged logs q events more r →
      Logged logs p (.call c :: events) (made ++ more) r
  | make {p r : Progress} {b : Block} {events : List Event} {more : List Block} :
    b.serial = p.next → Logged logs p.advance events more r →
      Logged logs p (.make b :: events) (b :: more) r

theorem Logged.mono_mem {logs logs' : Logging} {p q : Progress} {events : List Event}
    {made : List Block} (hl : Logged logs p events made q)
    (h : ∀ c ∈ callsOf events, ∀ p made q, logs c p made q → logs' c p made q) :
    Logged logs' p events made q := by
  induction hl with
  | nil => exact .nil
  | call hc _ ih =>
    exact .call (h _ List.mem_cons_self _ _ _ hc) (ih fun c hc => h c (List.mem_cons_of_mem _ hc))
  | make hb _ ih => exact .make hb (ih h)

theorem Logged.mono {logs logs' : Logging} (h : ∀ {c p made q}, logs c p made q → logs' c p made q)
    {p q : Progress} {events : List Event} {made : List Block} (hl : Logged logs p events made q) :
    Logged logs' p events made q := hl.mono_mem fun _ _ _ _ _ hc => h hc

theorem Traces.exists_log {logs : Logging} {p q : Progress} {events : List Event}
    (h : Traces (fun c p q => ∃ made, logs c p made q) p events q) :
    ∃ made, Logged logs p events made q := by
  induction h with
  | nil => exact ⟨[], .nil⟩
  | call hc _ ih =>
    obtain ⟨made, hc⟩ := hc
    obtain ⟨more, ih⟩ := ih
    exact ⟨made ++ more, .call hc ih⟩
  | make hb _ ih =>
    obtain ⟨more, ih⟩ := ih
    exact ⟨_ :: more, .make hb ih⟩

/-- What every chain keeps is kept along events, and holds of the chains among them. -/
theorem Logged.keep {logs : Logging} {I : Progress → Prop} {P : Call → Prop}
    (hcall : ∀ {c p made q}, logs c p made q → I p → I q ∧ P c)
    (hmake : ∀ p, I p → I p.advance) {p q : Progress} {events : List Event}
    {made : List Block} (h : Logged logs p events made q) (hp : I p) :
    I q ∧ ∀ c ∈ callsOf events, P c := by
  induction h with
  | nil => exact ⟨hp, by simp⟩
  | call hc _ ih =>
    obtain ⟨hq, hP⟩ := hcall hc hp
    obtain ⟨hr, hrest⟩ := ih hq
    refine ⟨hr, ?_⟩
    intro c' hc'
    rcases List.mem_cons.mp hc' with rfl | hc'
    · exact hP
    · exact hrest c' hc'
  | make _ _ ih => exact ih (hmake _ hp)

/-- What every chain keeps holds whenever one of the chains among some events begins. -/
theorem Logged.with_kept {logs : Logging} {I : Progress → Prop}
    (hcall : ∀ {c p made q}, logs c p made q → I p → I q) (hmake : ∀ p, I p → I p.advance)
    {p q : Progress} {events : List Event} {made : List Block} (h : Logged logs p events made q)
    (hp : I p) : Logged (fun c p made q => logs c p made q ∧ I p) p events made q := by
  induction h with
  | nil => exact .nil
  | call hc _ ih => exact .call ⟨hc, hp⟩ (ih (hcall hc hp))
  | make hb _ ih => exact .make hb (ih (hmake _ hp))

theorem Logged.exists_of_call {logs : Logging} {p q : Progress} {events : List Event}
    {made : List Block} (h : Logged logs p events made q) {c : Call} (hc : c ∈ callsOf events) :
    ∃ p' made' q', logs c p' made' q' := by
  induction h with
  | nil => exact absurd hc List.not_mem_nil
  | @call p q r _ events made more hlog _ ih =>
    rcases List.mem_cons.mp hc with rfl | hc
    · exact ⟨p, made, q, hlog⟩
    · exact ih hc
  | make _ _ ih => exact ih hc

/-- The progress once the shared sequence of a merge point has been made. -/
def Progress.share (p : Progress) (id : Text) (items : List Block) : Progress :=
  { p with next := p.next + 1, shared := (id, .sequence p.next items none (some id)) :: p.shared }

/-- The progress once a merge point has been come upon. -/
def Progress.meet (p : Progress) (id : Text) : Progress := { p with merges := id :: p.merges }

/-- How a chain is resolved, given what the chains do that it leads to. Nodes that are entered are
active from then on. -/
inductive Step (facts : Facts) (logs : List Text → Logging) (active : List Text) : Logging
  | stopped {owner : Option Text} {stop : List Text} {id : Text} {p : Progress} :
    id ∈ stop → Step facts logs active ⟨owner, stop, id, []⟩ p [] p
  | known {owner : Option Text} {stop : List Text} {id : Text} {b : Block} {p : Progress} :
    id ∉ stop → facts.isMerge id → owner ≠ some id → p.shared.lookup id = some b →
    Step facts logs active ⟨owner, stop, id, [b]⟩ p [] p
  | fresh {owner : Option Text} {stop : List Text} {id : Text} {items : List Block}
    {p q : Progress} {made : List Block} (e : Entry) :
    id ∉ stop → id ∉ active → facts.isMerge id → owner ≠ some id → p.shared.lookup id = none →
    e.Of facts ⟨some id, stop, id, items⟩ →
    Logged (logs (id :: active)) (p.meet id) e.events made q →
    Step facts logs active ⟨owner, stop, id, [.sequence q.next items none (some id)]⟩ p
      (made ++ [.sequence q.next items none (some id)]) (q.share id items)
  | entered {c : Call} {p q : Progress} {made : List Block} (e : Entry) :
    c.start ∉ c.stop → c.start ∉ active → (facts.isMerge c.start → c.owner = some c.start) →
    e.Of facts c → Logged (logs (c.start :: active)) p e.events made q →
    Step facts logs active c p made q

/-- The depth bounds how many nodes are entered one inside the other. -/
def LogsWithin (facts : Facts) : (depth : Nat) → List Text → Logging
  | 0 => fun _ _ _ _ _ => False
  | depth + 1 => Step facts (LogsWithin facts depth)

/-- A chain is resolved while some nodes are active, and the blocks of a log are made for it. -/
def Logs (facts : Facts) (active : List Text) : Logging :=
  fun c p made q => ∃ depth, LogsWithin facts depth active c p made q

theorem Step.mono {facts : Facts} {logs logs' : List Text → Logging}
    (h : ∀ {active c p made q}, logs active c p made q → logs' active c p made q)
    {active : List Text} {c : Call} {p q : Progress} {made : List Block}
    (hs : Step facts logs active c p made q) : Step facts logs' active c p made q := by
  cases hs with
  | stopped hstop => exact .stopped hstop
  | known hstop hmerge howner hlookup => exact .known hstop hmerge howner hlookup
  | fresh e hstop hactive hmerge howner hlookup he hl =>
    exact .fresh e hstop hactive hmerge howner hlookup he (hl.mono h)
  | entered e hstop hactive hmerge he hl => exact .entered e hstop hactive hmerge he (hl.mono h)

/-- What holds of every chain that is resolved follows from what one step keeps. -/
theorem Logs.induction {facts : Facts} {motive : List Text → Logging}
    (step : ∀ {active c p made q}, Step facts (fun active c p made q =>
      Logs facts active c p made q ∧ motive active c p made q) active c p made q →
      motive active c p made q)
    {active : List Text} {c : Call} {p q : Progress} {made : List Block}
    (h : Logs facts active c p made q) : motive active c p made q := by
  obtain ⟨depth, h⟩ := h
  induction depth generalizing active c p made q with
  | zero => exact h.elim
  | succ depth ih => exact step (Step.mono (fun hc => ⟨⟨depth, hc⟩, ih hc⟩) h)

theorem exists_log_of_runs {facts : Facts} {depth : Nat} {active : List Text} {c : Call}
    {p q : Progress} (h : Runs (chain facts depth c.owner active c.stop c.start) p c.result q) :
    ∃ made, LogsWithin facts depth active c p made q := by
  induction depth generalizing active c p q with
  | zero => exact absurd h not_runs_throw
  | succ depth ih =>
    obtain ⟨owner, stop, id, items⟩ := c
    have henter : ∀ {owner p items q},
        Runs (enter facts (fun owner => chain facts depth owner (id :: active)) owner active stop
          id) p items q → id ∉ active ∧ ∃ (e : Entry) (made : List Block),
            e.Of facts ⟨owner, stop, id, items⟩ ∧
            Logged (LogsWithin facts depth (id :: active)) p e.events made q := by
      intro owner p items q h
      obtain ⟨hactive, e, he, ht⟩ := enter_runs h
      obtain ⟨made, hl⟩ := (ht.mono fun c p q hc => ih hc).exists_log
      exact ⟨hactive, e, made, he, hl⟩
    simp only [chain] at h
    split at h
    next hstop =>
      simp only [runs_pure] at h
      obtain ⟨rfl, rfl⟩ := h
      exact ⟨[], .stopped (by simpa using hstop)⟩
    next hstop =>
    replace hstop : id ∉ stop := by simpa using hstop
    split at h
    next hmerge =>
      obtain ⟨hmerge, howner⟩ : facts.isMerge id ∧ owner ≠ some id := by simpa using hmerge
      simp only [sharedSequence, runs_bind, runs_get] at h
      obtain ⟨b, r, ⟨_, _, ⟨rfl, rfl⟩, h⟩, hb⟩ := h
      obtain ⟨rfl, rfl⟩ := runs_pure.mp hb
      split at h
      next known hknown =>
        obtain ⟨rfl, rfl⟩ := runs_pure.mp h
        exact ⟨[], .known hstop hmerge howner hknown⟩
      next hunknown =>
        simp only [runs_bind, runs_modify, runs_newSequence, runs_pure] at h
        obtain ⟨_, _, rfl, items, r, h, _, _, ⟨rfl, rfl⟩, _, _, rfl, rfl, rfl⟩ := h
        obtain ⟨hactive, e, made, he, hl⟩ := henter h
        exact ⟨_, .fresh e hstop hactive hmerge howner hunknown he hl⟩
    next hmerge =>
      obtain ⟨hactive, e, made, he, hl⟩ := henter h
      refine ⟨made, .entered e hstop hactive ?_ he hl⟩
      intro hm
      simpa [hm] using hmerge

/-- A property that the blocks of a chain have because the chains of its strands have it, wherever
they stand, holds of all chains and of all shared sequences. -/
theorem Logs.keep {facts : Facts} {P : Text → List Block → Prop} (nil : ∀ id, P id [])
    (share : ∀ n id items, P id items → P id [.sequence n items none (some id)])
    (enter : ∀ (e : Entry) (c : Call), e.Of facts c →
      (∀ l ∈ e.laid, ∀ c ∈ l.calls, P c.start c.result) → P c.start c.result)
    {active : List Text} {c : Call} {p q : Progress} {made : List Block}
    (h : Logs facts active c p made q) (hp : ∀ s ∈ p.shared, P s.1 [s.2]) :
    (∀ s ∈ q.shared, P s.1 [s.2]) ∧ P c.start c.result := by
  refine Logs.induction (motive := fun _ c p _ q => (∀ s ∈ p.shared, P s.1 [s.2]) →
    (∀ s ∈ q.shared, P s.1 [s.2]) ∧ P c.start c.result) ?_ h hp
  intro active c p made q hs hp
  cases hs with
  | stopped _ => exact ⟨hp, nil _⟩
  | known _ _ _ hlookup => exact ⟨hp, hp _ (mem_of_lookup hlookup)⟩
  | @fresh owner stop id items _ q made e _ _ _ _ _ he hl =>
    obtain ⟨hq, hcs⟩ := hl.keep (fun hc hp => hc.2 hp) (fun p hp => hp) hp
    have hitems := enter e _ he fun l hl c hc =>
      hcs c (he.calls ▸ List.mem_flatMap.mpr ⟨l, hl, hc⟩)
    refine ⟨?_, share _ _ _ hitems⟩
    intro s hs
    rcases List.mem_cons.mp hs with rfl | hs
    · exact share _ _ _ hitems
    · exact hq s hs
  | entered e _ _ _ he hl =>
    obtain ⟨hq, hcs⟩ := hl.keep (fun hc hp => hc.2 hp) (fun p hp => hp) hp
    exact ⟨hq, enter e _ he fun l hl c hc =>
      hcs c (he.calls ▸ List.mem_flatMap.mpr ⟨l, hl, hc⟩)⟩

/-- The block of a graph joins the chains of all entries into one sequence, which is made last. -/
structure RootLog (g : Graph) (root : Block) (l : Laid) (made : List Block) (q : Progress) :
    Prop where
  strand : l.strand = ⟨[], none, [], g.entryIds⟩
  joins : l.Joins
  plain : l.made = []
  root : root = .sequence q.next l.content none none
  logged : Logged (Logs (.ofGraph g) []) {} (l.calls.map .call) made q

theorem exists_rootLog {v : Validated} {root : Block} (h : (resolve v).block = .ok root) :
    ∃ l made q, RootLog v.graph root l made q := by
  have hroot : ∃ q, Runs (Resolution.root (.ofGraph v.graph)) {} root q := by
    unfold resolve at h
    split at h
    next b q hrun =>
      cases h
      exact ⟨q, hrun⟩
    · cases h
  obtain ⟨_, hroot⟩ := hroot
  simp only [Resolution.root, runs_bind, runs_newSequence] at hroot
  obtain ⟨items, r, hr, rfl, rfl⟩ := hroot
  have hjoined := @joined_runs (fun owner => chain (.ofGraph v.graph) (v.graph.size + 1) owner [])
  obtain ⟨l, hs, hj, rfl, hmade, ht⟩ := hjoined [] hr
  have hlogs : Traces (fun c p q => ∃ made, Logs (.ofGraph v.graph) [] c p made q) {} l.events r := by
    refine ht.mono fun c p q hc => ?_
    obtain ⟨made, hlog⟩ := exists_log_of_runs hc
    exact ⟨made, _, hlog⟩
  obtain ⟨made, hl⟩ := hlogs.exists_log
  exact ⟨l, made, r, hs, hj, hmade, rfl, by simpa [Laid.events, hmade] using hl⟩

end WorkflowCompiler.Resolution
