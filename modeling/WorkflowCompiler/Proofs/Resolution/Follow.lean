import Mathlib
import WorkflowCompiler.Proofs.Block.Placement
import WorkflowCompiler.Proofs.Resolution.Nested

/-! # What follows what

Where a node is the only successor of another one, and that one its only producer, the two stand
side by side wherever the later one stands. A merge point follows nothing: it begins the sequence
that its producers share.
-/
namespace WorkflowCompiler

namespace Graph

/-- The edge goes on from a step, from a step whose failure leads nowhere, or from a loop by its
exit. It leads to the only target of its port, and no other edge leads there from a node that can be
reached. -/
structure Continues (g : Graph) (e : Edge) : Prop where
  mem : e ∈ g.edges
  reached : g.Reached e.source
  kind : ∃ node, g.node? e.source = some node ∧
    (node.kind.isContainer = false ∧ (∀ success failure,
        node.kind.outcomePorts? = some (success, failure) → ¬ g.wired node.id failure) ∨
      node.kind = .loop ∧ g.portOf? e = some "exit")
  only : ∀ e' ∈ g.edges, e'.source = e.source → g.portOf? e' = g.portOf? e → e'.target = e.target
  single : ∀ e' ∈ g.edges, e'.target = e.target → g.Reached e'.source → e' = e

theorem exists_two_of_mem_merges {g : Graph} (hnodup : (g.edges.map (·.id)).Nodup) {id : Text}
    (h : id ∈ g.merges) : ∃ e ∈ g.forwardEdges, ∃ e' ∈ g.forwardEdges,
      e ≠ e' ∧ e.target = id ∧ e'.target = id := by
  simp only [merges, List.mem_filter, decide_eq_true_eq] at h
  have hcount := h.2
  rw [List.count_eq_countP, List.countP_map, List.countP_eq_length_filter] at hcount
  have hfiltered := (hnodup.of_map.filter (p := fun e => !(g.backEdges.map (·.id)).contains e.id &&
    (reachable g.edges (g.entries.map (·.id))).contains e.source)).filter
      ((fun x => x == id) ∘ Edge.target)
  rcases hedges : g.forwardEdges.filter ((fun x => x == id) ∘ Edge.target) with
    _ | ⟨e, _ | ⟨e', rest⟩⟩
  · rw [hedges] at hcount
    exact absurd hcount (by simp)
  · rw [hedges] at hcount
    exact absurd hcount (by simp)
  · have hmem : ∀ x ∈ [e, e'], x ∈ g.forwardEdges ∧ x.target = id := by
      intro x hx
      have hx : x ∈ g.forwardEdges.filter ((fun x => x == id) ∘ Edge.target) := by
        rw [hedges]
        exact List.mem_of_mem_take (i := 2) hx
      simpa using List.mem_filter.mp hx
    obtain ⟨he, ht⟩ := hmem e (by simp)
    obtain ⟨he', ht'⟩ := hmem e' (by simp)
    refine ⟨e, he, e', he', ?_, ht, ht'⟩
    have hne : (e :: e' :: rest).Nodup := hedges ▸ hfiltered
    exact fun heq => (List.nodup_cons.mp hne).1 (heq ▸ List.mem_cons_self)

theorem Continues.not_merge {g : Graph} (hg : g.Sound) {e : Edge} (h : g.Continues e) :
    e.target ∉ g.merges := by
  intro hmerge
  obtain ⟨x, hx, y, hy, hne, hxt, hyt⟩ := exists_two_of_mem_merges hg.edges_nodup hmerge
  obtain ⟨hx, _, hxs⟩ := (mem_forwardEdges hg.edges_nodup).mp hx
  obtain ⟨hy, _, hys⟩ := (mem_forwardEdges hg.edges_nodup).mp hy
  exact hne ((h.single x hx hxt hxs).trans (h.single y hy hyt hys).symm)

/-- The node that a block for the node may follow. -/
structure Fits (g : Graph) (previous : Option Block) (id : Text) : Prop where
  merge : id ∈ g.merges → previous = none
  continued : ∀ e, g.Continues e → e.target = id →
    ∃ b, previous = some b ∧ b.mainId? = some e.source

end Graph

namespace Resolution
open Block

section Continues
variable {g : Graph} {e : Edge} {node : Node}

theorem eq_singleton_of_nodup {ids : List Text} {id : Text} (hn : ids.Nodup) (hmem : id ∈ ids)
    (h : ∀ x ∈ ids, x = id) : ids = [id] := by
  have hle : ids.length ≤ 1 := by
    have hsub : ids ⊆ [id] := fun x hx => List.mem_singleton.mpr (h x hx)
    exact (List.subperm_of_subset hn hsub).length_le
  match ids with
  | [x] => rw [h x List.mem_cons_self]
  | [] => cases hmem

theorem targets_eq_of_continues (h : g.Continues e) {port : Text}
    (hport : g.portOf? e = some port) :
    (Facts.ofGraph g).targets e.source port = [e.target] := by
  refine eq_singleton_of_nodup (nodup_eraseDups _)
    (mem_targets_ofGraph.mpr ⟨e, h.mem, rfl, hport, rfl⟩) fun t ht => ?_
  obtain ⟨e', he', hs, hp, rfl⟩ := mem_targets_ofGraph.mp ht
  exact h.only e' he' hs (hp.trans hport.symm)

theorem limbs_eq_nil (hk : node.kind.isContainer = false) (hfailure : ∀ success failure,
    node.kind.outcomePorts? = some (success, failure) → ¬ g.wired node.id failure)
    (stop : List Text) : limbs (.ofGraph g) stop node = [] ∧
      ∃ port, nexts (.ofGraph g) node = (Facts.ofGraph g).targets node.id port := by
  rw [limbs_step _ _ hk, nexts_step _ hk]
  cases hports : node.kind.outcomePorts? with
  | none => exact ⟨rfl, defaultPort, rfl⟩
  | some ports =>
    obtain ⟨success, failure⟩ := ports
    have hempty : ((Facts.ofGraph g).targets node.id failure).isEmpty = true := by
      simpa [isEmpty_targets_ofGraph] using hfailure success failure hports
    simp only [hempty, if_true, true_and]
    exact ⟨success, rfl⟩

variable (h : g.Continues e) (hnode : g.node? e.source = some node)
include h hnode

theorem nexts_of_continues (hg : g.Sound) : nexts (.ofGraph g) node = [e.target] := by
  have hid : node.id = e.source := (Graph.node?_eq_some hnode).2
  obtain ⟨source, hsource, hkind⟩ := h.kind
  obtain rfl : node = source := Option.some.inj (hnode.symm.trans hsource)
  rcases hkind with ⟨hk, hfailure⟩ | ⟨hk, hport⟩
  · obtain ⟨hlimbs, port, hnexts⟩ := limbs_eq_nil hk hfailure []
    obtain ⟨s, hs, htarget, _⟩ :=
      exists_strand_of_edge hg (hid ▸ hnode) h.mem hid.symm none []
    rw [strands, hlimbs, List.nil_append, List.mem_singleton] at hs
    rw [hs, continuation, hnexts] at htarget
    obtain ⟨e', he', hs', hp', ht'⟩ := mem_targets_ofGraph.mp htarget
    obtain rfl : e' = e := h.single e' he' ht' (hs'.trans hid ▸ h.reached)
    rw [hnexts, hid]
    exact targets_eq_of_continues h hp'
  · have hnexts : nexts (.ofGraph g) node = (Facts.ofGraph g).targets node.id "exit" := by
      simp [nexts, hk]
    rw [hnexts, hid]
    exact targets_eq_of_continues h hport

theorem not_mem_limbs_of_continues {stop : List Text} {s : Strand}
    (hs : s ∈ limbs (.ofGraph g) stop node) : e.target ∉ s.starts := by
  have hid : node.id = e.source := (Graph.node?_eq_some hnode).2
  obtain ⟨source, hsource, hkind⟩ := h.kind
  obtain rfl : node = source := Option.some.inj (hnode.symm.trans hsource)
  rcases hkind with ⟨hk, hfailure⟩ | ⟨hk, hport⟩
  · rw [(limbs_eq_nil hk hfailure stop).1] at hs
    cases hs
  · simp only [limbs, hk, List.mem_singleton] at hs
    intro htarget
    rw [hs] at htarget
    obtain ⟨e', he', hs', hp', ht'⟩ := mem_targets_ofGraph.mp htarget
    obtain rfl : e' = e := h.single e' he' ht' (hs'.trans hid ▸ h.reached)
    rw [hport] at hp'
    exact absurd (Option.some.inj hp') (by decide)

end Continues

/-! ## The blocks of one node -/

section Assembled
variable {node : Node} {heads items : List Block} {laid : List Laid}

/-- The main block of a node comes first, and alone unless the outcome of a step is provided for. -/
theorem Assembled.heads_eq (h : Assembled node heads laid items) :
    ∃ b more, heads = b :: more ∧ b.mainId? = some node.id ∧ (∀ x ∈ more, x.mainId? = none) ∧
      (more = [] ∨ laid.length = 3 ∧ node.kind.outcomePorts?.isSome) := by
  have halone : ∀ {b : Block}, b.mainId? = some node.id → ∃ b' more, [b] = b' :: more ∧
      b'.mainId? = some node.id ∧ (∀ x ∈ more, x.mainId? = none) ∧
      (more = [] ∨ laid.length = 3 ∧ node.kind.outcomePorts?.isSome) :=
    fun hb => ⟨_, [], rfl, hb, fun _ hx => absurd hx List.not_mem_nil, Or.inl rfl⟩
  cases h with
  | outcome hports _ _ _ _ _ =>
    exact ⟨_, _, rfl, rfl, List.forall_mem_singleton.mpr rfl, Or.inr ⟨rfl, by rw [hports]; rfl⟩⟩
  | step _ _ | sequential _ _ _ | parallel _ _ _ _ _ | conditional _ _ _ _ _ _ _ | switch _ _ _ _
  | loop _ _ _ _ _ _ => exact halone rfl

theorem MemberBlocks.exists_wraps {ls : List Laid} {bs : List Block} (h : MemberBlocks ls bs)
    {b : Block} (hb : b ∈ bs) : ∃ l ∈ ls, l.Wraps b := by
  induction h with
  | nil => cases hb
  | skip _ _ _ ih =>
    obtain ⟨l, hl, hw⟩ := ih hb
    exact ⟨l, List.mem_cons_of_mem _ hl, hw⟩
  | @cons l rest c members hw _ ih =>
    rcases List.mem_cons.mp hb with rfl | hb
    · exact ⟨l, List.mem_cons_self, hw.wraps⟩
    · obtain ⟨l, hl, hw⟩ := ih hb
      exact ⟨l, List.mem_cons_of_mem _ hl, hw⟩

theorem exists_wraps_route {R : Laid → Exit × Block → Prop} (hR : ∀ l r, R l r → l.Wraps r.2)
    {ls : List Laid} {routes : List (Exit × Block)} (h : List.Forall₂ R ls routes)
    {r : Exit × Block} (hr : r ∈ routes) : ∃ l ∈ ls, l.Wraps r.2 := by
  obtain ⟨l, hl, hw⟩ := exists_of_forall₂ h hr
  exact ⟨l, hl, hR l r hw⟩

/-- What stands directly inside the blocks of a node: the content of a limb, one block after the
other, or a block that stands for all of it and follows nothing. -/
theorem Assembled.placements (h : Assembled node heads laid items) :
    ∃ inner rest, laid = inner ++ [rest] ∧ ∀ b ∈ heads, ∀ p ∈ b.placements,
      ∃ l ∈ inner, p ∈ successive none l.content ∨ p.1 = none ∧ l.Wraps p.2 := by
  have hnone : ∀ {p : Option Block × Block} {cs : List Block}, p ∈ cs.map (fun c => (none, c)) →
      p.1 = none ∧ p.2 ∈ cs := by
    rintro p cs hp
    obtain ⟨c, hc, rfl⟩ := List.mem_map.mp hp
    exact ⟨rfl, hc⟩
  cases h with
  | @step n rest _ _ => exact ⟨[], rest, rfl, List.forall_mem_singleton.mpr fun p hp => by cases hp⟩
  | @sequential n inner rest _ _ _ =>
    exact ⟨[inner], rest, rfl, List.forall_mem_singleton.mpr fun p hp =>
      ⟨inner, List.mem_cons_self, Or.inl hp⟩⟩
  | @parallel n inner members join rest _ _ hm _ _ =>
    refine ⟨inner, rest, rfl, List.forall_mem_singleton.mpr fun p hp => ?_⟩
    obtain ⟨hp, hmem⟩ := hnone hp
    obtain ⟨l, hl, hw⟩ := hm.exists_wraps hmem
    exact ⟨l, hl, Or.inr ⟨hp, hw⟩⟩
  | @conditional n condition onTrue onFalse a b rest _ _ ha hb _ _ _ =>
    refine ⟨[a, b], rest, rfl, List.forall_mem_singleton.mpr fun p hp => ?_⟩
    obtain ⟨hp, hmem⟩ := hnone hp
    rcases List.mem_pair.mp hmem with heq | heq
    · exact ⟨a, by simp, Or.inr ⟨hp, heq ▸ ha.wraps⟩⟩
    · exact ⟨b, by simp, Or.inr ⟨hp, heq ▸ hb.wraps⟩⟩
  | @outcome m n success failure onTrue onFalse a b rest _ ha hb _ _ _ =>
    refine ⟨[a, b], rest, rfl, List.forall_mem_cons.mpr ⟨fun p hp => (by cases hp),
      List.forall_mem_singleton.mpr fun p hp => ?_⟩⟩
    obtain ⟨hp, hmem⟩ := hnone hp
    rcases List.mem_pair.mp hmem with heq | heq
    · exact ⟨a, by simp, Or.inr ⟨hp, heq ▸ ha.wraps⟩⟩
    · exact ⟨b, by simp, Or.inr ⟨hp, heq ▸ hb.wraps⟩⟩
  | @switch n inner routes rest _ _ hf _ =>
    refine ⟨inner, rest, rfl, List.forall_mem_singleton.mpr fun p hp => ?_⟩
    obtain ⟨hp, hmem⟩ := hnone hp
    obtain ⟨r, hr, heq⟩ := List.mem_map.mp hmem
    obtain ⟨l, hl, hw⟩ := exists_wraps_route (fun _ _ h => h.1.wraps) hf hr
    exact ⟨l, hl, Or.inr ⟨hp, heq ▸ hw⟩⟩
  | @loop n body kind params inner rest _ _ _ hw _ _ =>
    refine ⟨[inner], rest, rfl, List.forall_mem_singleton.mpr fun p hp => ?_⟩
    obtain ⟨hp, hmem⟩ := hnone hp
    exact ⟨inner, List.mem_cons_self, Or.inr ⟨hp, List.mem_singleton.mp hmem ▸ hw.wraps⟩⟩

end Assembled

/-! ## Chains -/

/-- Blocks that are not shared, then shared ones. -/
def Tailed (items : List Block) : Prop :=
  ∃ own shared, items = own ++ shared ∧ (∀ b ∈ own, b.sharedKey? = none) ∧
    ∀ b ∈ shared, b.sharedKey?.isSome

/-- A placement of the main block of a node fits the graph. -/
def Fitting (g : Graph) (p : Option Block × Block) : Prop :=
  ∀ id, p.2.mainId? = some id → g.Fits p.1 id

/-- Blocks one after the other in which every placement fits, wherever they are put, provided that
the first block may stand there. -/
structure Opens (g : Graph) (allowed : Option Block → Prop) (items : List Block) : Prop where
  inside : ∀ b ∈ items, ∀ previous c, Placed b previous c → Fitting g (previous, c)
  fits : ∀ previous, allowed previous → ∀ p ∈ successive previous items, Fitting g p
  shared : ∀ b ∈ items, b.sharedKey?.isSome → b.mainId? = none
  tailed : Tailed items

theorem fitting_of_none {g : Graph} {p : Option Block × Block} (h : p.2.mainId? = none) :
    Fitting g p := by
  intro id hid
  rw [h] at hid
  cases hid

section Joins
variable {g : Graph} {allowed : Call → Option Block → Prop}

/-- What one chain has for itself, in front of blocks that fit everywhere. -/
theorem Opens.fitting_own {allowed : Option Block → Prop} {items : List Block}
    (h : Opens g allowed items) {previous : Option Block} (hallowed : allowed previous)
    {rest : List Block} (hrest : ∀ o, ∀ p ∈ successive o rest, Fitting g p) :
    ∀ p ∈ successive previous (items.filter (·.sharedKey?.isNone) ++ rest), Fitting g p := by
  obtain ⟨own, shared, rfl, hown, hshared⟩ := h.tailed
  have hfilter : (own ++ shared).filter (·.sharedKey?.isNone) = own := by
    rw [List.filter_append, List.filter_eq_self.mpr fun b hb => by rw [hown b hb]; rfl,
      List.filter_eq_nil_iff.mpr, List.append_nil]
    intro b hb
    rw [Option.isNone_iff_eq_none]
    exact Option.isSome_iff_ne_none.mp (hshared b hb)
  rw [hfilter]
  intro p hp
  rcases mem_successive_append hp with hp | ⟨o, hp⟩
  · exact h.fits previous hallowed p (successive_subset_append hp)
  · exact hrest o p hp

/-- Chains one after the other: what comes before a chain does not matter. -/
theorem fitting_chains {calls : List Call} (hopens : ∀ c ∈ calls, Opens g (allowed c) c.result)
    (hall : ∀ c ∈ calls, ∀ o, allowed c o) {rest : List Block}
    (hrest : ∀ o, ∀ p ∈ successive o rest, Fitting g p) (previous : Option Block) :
    ∀ p ∈ successive previous
      ((calls.map (·.result)).flatten.filter (·.sharedKey?.isNone) ++ rest), Fitting g p := by
  induction calls generalizing previous with
  | nil => exact hrest previous
  | cons c others ih =>
    obtain ⟨hc, hothers⟩ := List.forall_mem_cons.mp hopens
    obtain ⟨hallowed, hall⟩ := List.forall_mem_cons.mp hall
    rw [List.map_cons, List.flatten_cons, List.filter_append, List.append_assoc]
    exact hc.fitting_own (hallowed previous) fun o => ih hothers hall o

variable {l : Laid} (hj : l.Joins) (hopens : ∀ c ∈ l.calls, Opens g (allowed c) c.result)
include hj hopens

theorem Laid.Joins.fitting {previous : Option Block}
    (h : (∀ c ∈ l.calls, ∀ o, allowed c o) ∨ ∃ c, l.calls = [c] ∧ allowed c previous) :
    ∀ p ∈ successive previous l.content, Fitting g p := by
  rcases hj.content with hcontent | hcontent
  · obtain ⟨held, hsplice, hheld⟩ := exists_splice (l.calls.map (·.result))
    have hlast : ∀ o, ∀ p ∈ successive o held, Fitting g p := by
      intro o p hp
      have hmem := mem_of_mem_successive hp
      have hresult : p.2 ∈ l.content := by
        rw [hcontent, hsplice]
        exact List.mem_append_right _ hmem
      obtain ⟨c, hc, hresult⟩ := hj.mem_result hresult
      exact fitting_of_none ((hopens c hc).shared p.2 hresult (hheld p.2 hmem))
    rw [hcontent, hsplice]
    rcases h with hall | ⟨c, hc, hallowed⟩
    · exact fitting_chains hopens hall hlast previous
    · rw [hc, List.map_singleton, List.flatten_singleton]
      exact (hopens c (hc ▸ List.mem_cons_self)).fitting_own hallowed hlast
  · obtain ⟨c, hc, hresult⟩ := List.map_eq_singleton_iff.mp hcontent
    have hallowed : allowed c previous := by
      rcases h with hall | ⟨c', hc', hallowed⟩
      · exact hall c (hc ▸ List.mem_cons_self) previous
      · rw [hc, List.cons.injEq] at hc'
        exact hc'.1 ▸ hallowed
    rw [← hresult]
    exact (hopens c (hc ▸ List.mem_cons_self)).fits previous hallowed

theorem Laid.Joins.tailed : Tailed l.content := by
  rcases hj.content with hcontent | hcontent
  · obtain ⟨held, hsplice, hheld⟩ := exists_splice (l.calls.map (·.result))
    refine ⟨_, held, hcontent.trans hsplice, fun b hb => ?_, hheld⟩
    simpa using (List.mem_filter.mp hb).2
  · obtain ⟨c, hc, hresult⟩ := List.map_eq_singleton_iff.mp hcontent
    rw [← hresult]
    exact (hopens c (hc ▸ List.mem_cons_self)).tailed

theorem Laid.Joins.inside {b : Block} (hb : b ∈ l.content) :
    ∀ previous c, Placed b previous c → Fitting g (previous, c) := by
  obtain ⟨c, hc, hb⟩ := hj.mem_result hb
  exact (hopens c hc).inside b hb

end Joins

/-! ## One step -/

section Entry
variable {g : Graph} (hg : g.Sound)

/-- Behind what a chain from a node may stand: a merge point may stand behind anything, since it
begins a shared sequence. -/
def Allowed (g : Graph) (id : Text) (previous : Option Block) : Prop :=
  id ∉ g.merges → g.Fits previous id

theorem allowed_of_not_continued {id : Text} (h : ∀ e, g.Continues e → e.target ≠ id)
    (previous : Option Block) : Allowed g id previous :=
  fun hmerge => ⟨fun hid => absurd hid hmerge, fun e he ht => absurd ht (h e he)⟩

theorem source_of_continues {e : Edge} (h : g.Continues e) {a : Text} (ha : g.Reached a)
    (hl : Graph.Leads g.edges a e.target) : e.source = a := by
  obtain ⟨e', he', rfl, ht⟩ := hl
  rw [h.single e' he' ht ha]

/-- Where the chain of a node goes on with a single node, the main block of the node comes last. -/
theorem Entry.Of.alone_of_continued {e : Entry} {c : Call} (he : e.Of (.ofGraph g) c)
    {more : List Block}
    (h : more = [] ∨ e.laid.length = 3 ∧ e.node.kind.outcomePorts?.isSome)
    (hcontinued : ∃ x, g.Continues x ∧ x.source = c.start) : more = [] := by
  refine h.resolve_right fun ⟨hlength, hports⟩ => ?_
  obtain ⟨x, hx, hsource⟩ := hcontinued
  obtain ⟨node, hnode, hkind⟩ := hx.kind
  obtain rfl : e.node = node := Option.some.inj (he.node.symm.trans (hsource ▸ hnode))
  rcases hkind with ⟨hk, hfailure⟩ | ⟨hk, _⟩
  · have hstrands := congrArg List.length he.strands
    rw [List.length_map, hlength, Resolution.strands, (limbs_eq_nil hk hfailure c.stop).1]
      at hstrands
    exact absurd hstrands (by simp)
  · rw [hk] at hports
    cases hports

/-- The limbs of an entry and the strand with which its chain goes on, together with what stands
inside its blocks. -/
theorem Entry.Of.exists_limbs {e : Entry} {c : Call} (he : e.Of (.ofGraph g) c) :
    ∃ inner rest slots, Shape e.node e.heads e.laid c.result inner rest slots ∧
      (∀ l ∈ inner, l ∈ e.laid ∧ l.strand ∈ limbs (.ofGraph g) c.stop e.node) ∧
      (rest ∈ e.laid ∧ rest.strand = continuation (.ofGraph g) c.owner c.stop e.node) ∧
      ∀ b ∈ e.heads, ∀ p ∈ b.placements,
        ∃ l ∈ inner, p ∈ successive none l.content ∨ p.1 = none ∧ l.Wraps p.2 := by
  obtain ⟨inner, rest, slots, hs⟩ := he.assembled.shape
  obtain ⟨inner', rest', hlaid, hplaced⟩ := he.assembled.placements
  obtain ⟨rfl, _⟩ := List.append_inj' (hlaid.symm.trans hs.laid) rfl
  have hstrands := he.strands
  rw [hs.laid, List.map_append, List.map_singleton, Resolution.strands] at hstrands
  obtain ⟨hlimbs, hcontinuation⟩ := List.append_inj' hstrands rfl
  refine ⟨inner', rest, slots, hs, fun l hl => ?_, ⟨?_, List.singleton_inj.mp hcontinuation⟩,
    hplaced⟩
  · exact ⟨hs.laid ▸ List.mem_append_left _ hl, hlimbs ▸ List.mem_map_of_mem hl⟩
  · exact hs.laid ▸ List.mem_append_right _ List.mem_cons_self

variable {e : Entry} {c : Call} (he : e.Of (.ofGraph g) c) (hreached : g.Reached c.start)
include he hreached

theorem allowed_limb {l : Laid} (hl : l ∈ e.laid)
    (hs : l.strand ∈ limbs (.ofGraph g) c.stop e.node) {c' : Call} (hc : c' ∈ l.calls)
    (previous : Option Block) : Allowed g c'.start previous := by
  refine allowed_of_not_continued (fun x hx ht => ?_) previous
  have hleads : Graph.Leads g.edges c.start x.target :=
    ht ▸ he.leads (he.calls ▸ List.mem_flatMap.mpr ⟨l, hl, hc⟩)
  have hnode : g.node? x.source = some e.node := source_of_continues hx hreached hleads ▸ he.node
  refine not_mem_limbs_of_continues hx hnode hs ?_
  rw [ht, ← (he.joins l hl).starts]
  exact List.mem_map_of_mem hc

include hg in
/-- The chain goes on with a single node that is continued to, which then follows the main block of
the node, or with nodes that may stand behind anything. -/
theorem allowed_continuation {rest : Laid} (hl : rest ∈ e.laid)
    (hs : rest.strand = continuation (.ofGraph g) c.owner c.stop e.node) {last : Block}
    (hlast : (∃ x, g.Continues x ∧ x.source = c.start) → last.mainId? = some c.start) :
    (∀ c' ∈ rest.calls, ∀ o, Allowed g c'.start o) ∨
      ∃ c', rest.calls = [c'] ∧ Allowed g c'.start (some last) := by
  by_cases hcontinued : ∃ x, g.Continues x ∧ x.source = c.start
  · obtain ⟨x, hx, hsource⟩ := hcontinued
    have hstarts : rest.calls.map (·.start) = [x.target] := by
      rw [(he.joins rest hl).starts, hs]
      exact nexts_of_continues hx (hsource ▸ he.node) hg
    obtain ⟨c', hc', hstart⟩ := List.map_eq_singleton_iff.mp hstarts
    refine Or.inr ⟨c', hc', fun hmerge => ⟨fun hid => absurd hid hmerge, fun y hy ht => ?_⟩⟩
    have heq : y = x := hx.single y hy.mem (ht.trans hstart) hy.reached
    refine ⟨last, rfl, ?_⟩
    rw [heq, hsource]
    exact hlast ⟨x, hx, hsource⟩
  · refine Or.inl fun c' hc' o => allowed_of_not_continued (fun x hx ht => hcontinued ⟨x, hx, ?_⟩) o
    have hleads : Graph.Leads g.edges c.start x.target :=
      ht ▸ he.leads (he.calls ▸ List.mem_flatMap.mpr ⟨rest, hl, hc'⟩)
    exact source_of_continues hx hreached hleads

section Opens
variable (hcalls : ∀ c' ∈ callsOf e.events, Opens g (Allowed g c'.start) c'.result)
include hcalls

omit hreached in
theorem opens_of_mem_laid {l : Laid} (hl : l ∈ e.laid) :
    ∀ c' ∈ l.calls, Opens g (Allowed g c'.start) c'.result :=
  fun c' hc' => hcalls c' (he.calls ▸ List.mem_flatMap.mpr ⟨l, hl, hc'⟩)

theorem fitting_heads {b : Block} (hb : b ∈ e.heads) {previous : Option Block} {x : Block}
    (hx : Placed b previous x) : Fitting g (previous, x) := by
  obtain ⟨inner, rest, slots, hs, hlimbs, _, hplaced⟩ := he.exists_limbs
  have hinner : ∀ l ∈ inner, ∀ p ∈ successive none l.content, Fitting g p := by
    intro l hl
    obtain ⟨hlaid, hlimb⟩ := hlimbs l hl
    exact (he.joins l hlaid).fitting (opens_of_mem_laid he hcalls hlaid)
      (Or.inl fun c' hc' o => allowed_limb he hreached hlaid hlimb hc' o)
  have hcontent : ∀ l ∈ inner, ∀ y ∈ l.content, Placed y previous x → Fitting g (previous, x) := by
    intro l hl y hy
    have hlaid := (hlimbs l hl).1
    exact (he.joins l hlaid).inside (opens_of_mem_laid he hcalls hlaid) hy previous x
  rcases placed_iff.mp hx with hx | ⟨y, hy, hx⟩
  · obtain ⟨l, hl, hin | ⟨rfl, hwraps⟩⟩ := hplaced b hb _ hx
    · exact hinner l hl _ hin
    · rcases hwraps with ⟨hsingle, _⟩ | ⟨n, rfl, _⟩
      · refine hinner l hl _ ?_
        rw [hsingle]
        exact List.mem_cons_self
      · exact fitting_of_none rfl
  · rcases hs.children b hb with hnone | hchildren
    · rw [hnone] at hy
      cases hy
    · obtain ⟨l, hl, hmade | hy⟩ := hs.covers.origin y (hchildren ▸ hy)
      · obtain ⟨n, rfl⟩ := hs.covers.plain l hl y hmade
        rcases placed_iff.mp hx with hx | ⟨z, hz, hx⟩
        · exact hinner l hl _ hx
        · exact hcontent l hl z hz hx
      · exact hcontent l hl y hy hx

include hg in
/-- The blocks of a chain fit, because those of the chains that it leads to do. -/
theorem Entry.Of.opens : Opens g (fun o => g.Fits o c.start) c.result := by
  obtain ⟨inner, rest, slots, hs, _, ⟨hrest, hstrand⟩, _⟩ := he.exists_limbs
  have hopens := opens_of_mem_laid he hcalls hrest
  have hj := he.joins rest hrest
  obtain ⟨main, more, hmain, hid, hmore, halone⟩ := he.assembled.heads_eq
  obtain ⟨before, last, hlast⟩ : ∃ before last, e.heads = before ++ [last] := by
    rcases List.eq_nil_or_concat e.heads with hnil | ⟨before, last, hlast⟩
    · rw [hmain] at hnil
      cases hnil
    · exact ⟨before, last, by rw [hlast, List.concat_eq_append]⟩
  have hstart : (∃ x, g.Continues x ∧ x.source = c.start) → last.mainId? = some c.start := by
    intro hcontinued
    rw [hmain, he.alone_of_continued halone hcontinued, ← List.nil_append [main]] at hlast
    obtain ⟨_, hlast⟩ := List.append_inj' hlast rfl
    rw [← List.singleton_inj.mp hlast, hid, he.node_id]
  have hnext := allowed_continuation hg he hreached hrest hstrand hstart
  refine ⟨?_, ?_, ?_, ?_⟩
  · intro b hb previous x hx
    rw [hs.items] at hb
    rcases List.mem_append.mp hb with hb | hb
    · exact fitting_heads he hreached hcalls hb hx
    · exact hj.inside hopens hb previous x hx
  · intro previous hfits p hp
    rw [hs.items, hlast, List.append_assoc, List.singleton_append] at hp
    rcases mem_successive_concat (hs.unshared last (by simp [hlast])) hp with hp | hp
    · rw [← hlast, hmain] at hp
      rcases List.mem_cons.mp hp with rfl | hp
      · intro id heq
        rw [hid, he.node_id] at heq
        exact Option.some.inj heq ▸ hfits
      · exact fitting_of_none (hmore p.2 (mem_of_mem_successive hp))
    · exact hj.fitting hopens hnext p hp
  · intro b hb hshared
    rw [hs.items] at hb
    rcases List.mem_append.mp hb with hb | hb
    · rw [hs.unshared b hb] at hshared
      cases hshared
    · obtain ⟨c', hc', hb⟩ := hj.mem_result hb
      exact (hopens c' hc').shared b hb hshared
  · obtain ⟨own, shared, hcontent, hown, hshared⟩ := hj.tailed hopens
    refine ⟨e.heads ++ own, shared, ?_, List.forall_mem_append.mpr ⟨hs.unshared, hown⟩, hshared⟩
    rw [hs.items, hcontent, List.append_assoc]

end Opens

end Entry

/-! ## The whole graph -/

section Root
variable {g : Graph} (hg : g.Sound) (ha : g.Acyclic)
include hg ha

theorem Logs.opens {table : List (Text × Block)} {active : List Text} {c : Call}
    {p q : Progress} {made : List Block} (h : Logs (.ofGraph g) active c p made q)
    (hc : Context g active c) :
    Keeps table (fun id items => g.Reached id → Opens g (Allowed g id) items) c p q := by
  refine Logs.keeps ha
    (E := fun id items => g.Reached id → Opens g (fun o => g.Fits o id) items) ?_ ?_ ?_ h hc
  · intro n id items hid hE hreached
    have hE := hE hreached
    have hfits : g.Fits none id :=
      ⟨fun _ => rfl, fun e he ht => absurd hid (ht ▸ he.not_merge hg)⟩
    refine ⟨List.forall_mem_singleton.mpr fun previous x hx => ?_, ?_, ?_, ?_⟩
    · rcases placed_iff.mp hx with hx | ⟨y, hy, hx⟩
      · exact hE.fits none hfits _ hx
      · exact hE.inside y hy previous x hx
    · exact fun previous _ => List.forall_mem_singleton.mpr (fitting_of_none rfl)
    · exact List.forall_mem_singleton.mpr fun _ => rfl
    · cases hkey : (Block.sequence n items none (some id)).sharedKey? with
      | none => exact ⟨_, [], rfl, List.forall_mem_singleton.mpr hkey, by simp⟩
      | some key => exact ⟨[], _, rfl, by simp, List.forall_mem_singleton.mpr (by rw [hkey]; rfl)⟩
  · intro id items hid hE hreached
    have hE := hE hreached
    exact ⟨hE.inside, fun previous h => hE.fits previous (h hid), hE.shared, hE.tailed⟩
  · intro e c q he _ _ _ hcalls hreached
    exact he.opens hg hreached fun c' hc' => (hcalls c' hc').1 (hreached.step (he.leads hc'))

/-- Wherever the main block of a node stands in what a graph is resolved to, it follows what the
graph asks for. -/
theorem RootLog.fits {root : Block} {l : Laid} {made : List Block} {q : Progress}
    (h : RootLog g root l made q) {previous : Option Block} {b : Block}
    (hb : Placed root previous b) {id : Text} (hid : b.mainId? = some id) :
    g.Fits previous id := by
  obtain ⟨_, hcalls⟩ := h.keeps (fun hlog hc => hlog.opens hg ha hc) fun s hs => hs
  have hentry : ∀ c ∈ l.calls, c.start ∈ g.entryIds :=
    fun c hc => h.starts ▸ List.mem_map_of_mem hc
  have hopens : ∀ c ∈ l.calls, Opens g (Allowed g c.start) c.result :=
    fun c hc => hcalls c hc ⟨c.start, hentry c hc, .refl⟩
  have hallowed : ∀ c ∈ l.calls, ∀ o, Allowed g c.start o := fun c hc o =>
    allowed_of_not_continued (fun e he ht => hg.not_enters_entry he.mem (ht ▸ hentry c hc)) o
  refine (?_ : Fitting g (previous, b)) id hid
  rw [h.root] at hb
  rcases placed_iff.mp hb with hb | ⟨y, hy, hb⟩
  · exact h.joins.fitting hopens (Or.inl hallowed) _ hb
  · exact h.joins.inside hopens hy previous b hb

end Root

end Resolution

end WorkflowCompiler
