import Mathlib
import WorkflowCompiler.Proofs.Resolution.Nested
import WorkflowCompiler.Proofs.Resolution.Outline

/-! # What runs come to

Without cycles, every chain that a run resolves comes to the outline of its node, whichever state of
progress it is resolved from. The induction is over the log of the run. A shared sequence that is
known already was made for the same node, and so has the outline that a new one would have.
-/
namespace WorkflowCompiler.Resolution
open Block Relation

section Laid
variable {l : Laid} {b : Block}

theorem Laid.WrapsArm.outline (h : l.WrapsArm b) :
    b.outline = armOutline (l.content.map Block.outline) := by
  rcases h with ⟨hcontent, _, hshared⟩ | ⟨hplain, n, rfl, _⟩
  · rw [hcontent, List.map_singleton, armOutline, sharedKey?_outline, if_pos hshared]
  · rw [outline_sequence]
    match hcontent : l.content with
    | [item] =>
      rw [List.map_singleton, armOutline, sharedKey?_outline, hplain item hcontent]
      rfl
    | [] | _ :: _ :: _ => rfl

theorem Laid.WrapsMember.outline (h : l.WrapsMember b) :
    memberOutline (l.content.map Block.outline) = [b.outline] := by
  rcases h with ⟨hcontent, _⟩ | ⟨hlength, n, rfl, _⟩
  · rw [hcontent]
    rfl
  · rw [outline_sequence]
    match hcontent : l.content with
    | [] | [_] =>
      rw [hcontent] at hlength
      exact absurd hlength (by simp)
    | _ :: _ :: _ => rfl

theorem MemberBlocks.outline {ls : List Laid} {bs : List Block} (h : MemberBlocks ls bs) :
    bs.map Block.outline = ls.flatMap fun l => memberOutline (l.content.map Block.outline) := by
  induction h with
  | nil => rfl
  | skip hcontent _ _ ih =>
    rw [List.flatMap_cons, hcontent, ih]
    rfl
  | cons hw _ ih =>
    rw [List.flatMap_cons, hw.outline, List.map_cons, ih]
    rfl

theorem outline_routes {R : Laid → Exit × Block → Prop} (hR : ∀ l r, R l r → l.WrapsArm r.2)
    {ls : List Laid} {routes : List (Exit × Block)} (h : List.Forall₂ R ls routes) :
    outlineRoutes routes =
      (routes.map (·.1)).zip (ls.map fun l => armOutline (l.content.map Block.outline)) := by
  induction h with
  | nil => rfl
  | cons hr _ ih =>
    rw [outlineRoutes, ih, (hR _ _ hr).outline]
    rfl

end Laid

theorem Assembled.settled {node : Node} {heads items : List Block} {laid : List Laid}
    (h : Assembled node heads laid items) : Settled node := by
  cases h with
  | step hk _ => constructor <;> intro hkind <;> simp [hkind, NodeKind.isContainer] at hk
  | outcome hports _ _ _ _ _ =>
    constructor <;> intro hkind <;> simp [hkind, NodeKind.outcomePorts?] at hports
  | parallel hk hjoin _ _ _ => exact ⟨fun _ => ⟨_, hjoin⟩, by simp [hk]⟩
  | loop hk hkind _ _ _ _ => exact ⟨by simp [hk], fun _ => ⟨_, hkind⟩⟩
  | sequential hk _ _ | conditional hk _ _ _ _ _ _ | switch hk _ _ _ =>
    constructor <;> simp [hk]

/-- The members of a parallel container are sorted as the nodes that its chains start from are. -/
theorem MemberBlocks.sorted {chains : Text → List Block} {starts : List Text} {ls : List Laid}
    {bs : List Block} (h : MemberBlocks ls bs)
    (hls : ls.map (fun l => l.content.map Block.outline) = starts.map chains)
    (hmember : ∀ t ∈ starts, ∃ b, memberOutline (chains t) = [b] ∧ b.headId = t) :
    sortByHead (bs.map Block.outline) =
      (Text.sort starts).flatMap fun t => memberOutline (chains t) := by
  have hchoice : ∀ t, ∃ b, t ∈ starts → memberOutline (chains t) = [b] ∧ b.headId = t := by
    intro t
    by_cases ht : t ∈ starts
    · obtain ⟨b, hb⟩ := hmember t ht
      exact ⟨b, fun _ => hb⟩
    · exact ⟨.absent, fun h => absurd h ht⟩
  choose m hm using hchoice
  have hflat : ∀ ts : List Text, ts ⊆ starts →
      (ts.flatMap fun t => memberOutline (chains t)) = ts.map m := by
    intro ts hts
    rw [List.map_eq_flatMap]
    exact List.flatMap_congr fun t ht => (hm t (hts ht)).1
  have hmembers : bs.map Block.outline = starts.map m := by
    rw [h.outline, ← hflat starts (List.Subset.refl _), ← List.flatMap_map, hls, List.flatMap_map]
  have hsort : Text.sort starts ⊆ starts := fun t => List.mem_mergeSort.mp
  rw [hmembers, hflat _ hsort, sortByHead_map m id starts fun t ht => (hm t ht).2]
  rfl

section Assembled
variable {g : Graph} {chains : Text → List Block} {node : Node} {heads items : List Block}
  (hmember : ∀ t ∈ (Facts.ofGraph g).allTargets node.id, joinOutlines g [chains t] = chains t ∧
    ∃ b, memberOutline (chains t) = [b] ∧ b.headId = t)
include hmember

theorem Assembled.outline_heads {inner : List Laid} {rest : Laid}
    (h : Assembled node heads (inner ++ [rest]) items) {stop : List Text}
    (hlimbs : inner.map Laid.strand = limbs (.ofGraph g) stop node)
    (hlaid : ∀ l ∈ inner,
      l.content.map Block.outline = joinOutlines g (l.strand.starts.map chains)) :
    heads.map Block.outline = headOutlines g chains node := by
  have harm : ∀ {l : Laid} {b : Block}, l ∈ inner → l.WrapsArm b →
      b.outline = armOutline (joinOutlines g (l.strand.starts.map chains)) := by
    intro l b hl hw
    rw [hw.outline, hlaid l hl]
  have hstarts : ∀ {α : Type} (f : List Text → α),
      (inner.map Laid.strand).map (fun s => f s.starts) = inner.map fun l => f l.strand.starts :=
    fun f => List.map_map
  have hsplit : ∀ {before : List Laid} {last : Laid}, inner ++ [rest] = before ++ [last] →
      inner = before := fun heq => (List.append_inj' heq rfl).1
  generalize hall : inner ++ [rest] = laid at h
  cases h with
  | @step n _ hk _ =>
    obtain rfl := @hsplit [] _ hall
    rw [limbs_step _ _ hk] at hlimbs
    rw [headOutlines_step _ hk]
    cases hports : node.kind.outcomePorts? with
    | none => rfl
    | some ports =>
      rw [hports] at hlimbs
      dsimp only at hlimbs ⊢
      split at hlimbs
      next hempty =>
        rw [if_pos hempty]
        rfl
      next => cases hlimbs
  | @sequential n body _ hk _ _ =>
    obtain rfl := @hsplit [body] _ hall
    simp only [limbs, hk, List.map_singleton, List.singleton_inj] at hlimbs
    simp only [headOutlines, hk, List.map_singleton, outline_sequence]
    rw [hlaid body List.mem_cons_self, hlimbs]
  | @parallel n _ members join _ hk hjoin hmembers _ _ =>
    obtain rfl := hsplit hall
    simp only [limbs, hk] at hlimbs
    have hcontents : inner.map (fun l => l.content.map Block.outline) =
        ((Facts.ofGraph g).allTargets node.id).map chains := by
      rw [List.map_congr_left hlaid, ← hstarts fun starts => joinOutlines g (starts.map chains),
        hlimbs, List.map_map]
      exact List.map_congr_left fun t ht => (hmember t ht).1
    simp only [headOutlines, hk, hjoin, List.map_singleton, Block.outline, outlineAll_eq]
    rw [hmembers.sorted hcontents fun t ht => (hmember t ht).2]
  | @conditional n _ onTrue onFalse a b _ hk hcondition hw hw' _ _ _ =>
    obtain rfl := @hsplit [a, b] _ hall
    simp only [limbs, hk, List.map_cons, List.map_nil, List.cons.injEq, and_true] at hlimbs
    simp only [headOutlines, hk, List.map_singleton, Block.outline, hcondition]
    rw [harm (by simp) hw, harm (by simp) hw', hlimbs.1, hlimbs.2]
  | @outcome m n success failure onTrue onFalse a b _ hports hw hw' _ _ _ =>
    obtain rfl := @hsplit [a, b] _ hall
    have hk : node.kind.isContainer = false := by
      cases hkind : node.kind <;> simp [hkind, NodeKind.outcomePorts?] at hports <;> rfl
    rw [limbs_step _ _ hk, hports] at hlimbs
    rw [headOutlines_step _ hk, hports]
    dsimp only at hlimbs ⊢
    split at hlimbs
    next => cases hlimbs
    next hempty =>
      simp only [List.map_cons, List.map_nil, List.cons.injEq, and_true] at hlimbs
      rw [if_neg hempty, List.map_cons, List.map_singleton, Block.outline, Block.outline,
        harm (by simp) hw, harm (by simp) hw', hlimbs.1, hlimbs.2]
  | @switch n _ routes _ hk hexits hf _ =>
    obtain rfl := hsplit hall
    simp only [limbs, hk] at hlimbs
    have harms : inner.map (fun l => armOutline (l.content.map Block.outline)) =
        (routeLabels node.config).map fun label =>
          armOutline (joinOutlines g (((Facts.ofGraph g).targets node.id label.1).map chains)) := by
      rw [List.map_congr_left fun l hl => congrArg armOutline (hlaid l hl),
        ← hstarts fun starts => armOutline (joinOutlines g (starts.map chains)), hlimbs,
        List.map_map]
      rfl
    simp only [headOutlines, hk, List.map_singleton, Block.outline]
    rw [outline_routes (fun _ _ h => h.1) hf, hexits, harms, List.zip_map']
  | @loop n body kind params l _ hk hkind hparams hw _ _ =>
    obtain rfl := @hsplit [l] _ hall
    simp only [limbs, hk, List.map_singleton, List.singleton_inj] at hlimbs
    simp only [headOutlines, hk, hkind, List.map_singleton, Block.outline, hparams]
    rw [harm (by simp) hw, hlimbs]

theorem Assembled.outline {laid : List Laid} (h : Assembled node heads laid items)
    {owner : Option Text} {stop : List Text}
    (hstrands : laid.map Laid.strand = strands (.ofGraph g) owner stop node)
    (hlaid : ∀ l ∈ laid,
      l.content.map Block.outline = joinOutlines g (l.strand.starts.map chains)) :
    items.map Block.outline = entryOutline g chains node := by
  obtain ⟨inner, rest, rfl, rfl, _⟩ := h.resume
  rw [List.map_append, strands] at hstrands
  obtain ⟨hlimbs, hrest⟩ := List.append_inj' hstrands rfl
  have hheads : heads.map Block.outline = headOutlines g chains node :=
    h.outline_heads hmember hlimbs fun l hl => hlaid l (List.mem_append_left _ hl)
  rw [List.map_append, hheads, hlaid rest (by simp), List.singleton_inj.mp hrest]
  rfl

end Assembled

theorem exists_chains {g : Graph} {P : Text → Prop} (h : ∀ t, P t → ∃ items, Outlines g t items) :
    ∃ chains : Text → List Block,
      (∀ t, ¬ P t → chains t = []) ∧ ∀ t, P t → Outlines g t (chains t) := by
  have hchoice : ∀ t, ∃ items, (¬ P t → items = []) ∧ (P t → Outlines g t items) := by
    intro t
    by_cases ht : P t
    · obtain ⟨items, hitems⟩ := h t ht
      exact ⟨items, fun hn => absurd ht hn, fun _ => hitems⟩
    · exact ⟨[], fun _ => rfl, fun h => absurd h ht⟩
  choose chains hnone hchains using hchoice
  exact ⟨chains, hnone, hchains⟩

/-- Shared sequences stand inside one another as their merge points stand behind one another. -/
def TableNests (g : Graph) (table : List (Text × Block)) : Prop :=
  ∀ a ∈ table, ∀ b ∈ table, b.2.sharedKey? = some b.1 →
    (b.1 ∈ nestedKeys a.2 ↔ b.1 ∈ behind g a.1)

theorem TableNests.splice_eq {g : Graph} {table : List (Text × Block)} (h : TableNests g table)
    {p : Progress} (hp : ∀ s ∈ p.shared, s ∈ table) {chains : List (List Block)}
    (hin : ∀ chain ∈ chains, SharedIn p chain) : splice chains = joinOutlines g chains := by
  have hheld := held_heldBack chains.flatten
  have htable : ∀ a ∈ heldBack chains.flatten, a ∈ table := by
    intro a ha
    obtain ⟨hmem, hkey⟩ := hheld.shared a ha
    obtain ⟨chain, hchain, hmem⟩ := List.mem_flatten.mp hmem
    exact hp a (hin chain hchain a.2 hmem a.2 (.refl _) a.1 hkey)
  refine splice_eq_joinOutlines fun a ha b hb => ?_
  exact h a (htable a ha) b (htable b hb) (hheld.shared b hb).2

theorem Laid.Joins.outlines {g : Graph} (ha : g.Acyclic) {table : List (Text × Block)}
    (hnests : TableNests g table) {l : Laid} (h : l.Joins) {q : Progress}
    (hq : ∀ s ∈ q.shared, s ∈ table)
    (hcalls : ∀ c ∈ l.calls,
      Outlines g c.start (c.result.map Block.outline) ∧ SharedIn q c.result)
    {chains : Text → List Block} (hchains : ∀ c ∈ l.calls, Outlines g c.start (chains c.start)) :
    l.content.map Block.outline = joinOutlines g (l.strand.starts.map chains) := by
  have hresult : ∀ c ∈ l.calls, c.result.map Block.outline = chains c.start :=
    fun c hc => (hcalls c hc).1.unique (hchains c hc)
  rcases h.content with hcontent | hcontent
  · have hresults : (l.calls.map (·.result)).map (List.map Block.outline) =
        l.strand.starts.map chains := by
      rw [← h.starts, List.map_map, List.map_map]
      exact List.map_congr_left hresult
    rw [hcontent, hnests.splice_eq hq (List.forall_mem_map.mpr fun c hc => (hcalls c hc).2),
      ← joinOutlines_map sharedKey?_outline, hresults]
  · obtain ⟨c, hc, hsingle⟩ := List.map_eq_singleton_iff.mp hcontent
    have hmem : c ∈ l.calls := by simp [hc]
    rw [← h.starts, hc, List.map_singleton, List.map_singleton, (hchains c hmem).joined ha,
      ← hresult c hmem, hsingle]

/-- A node that is entered has an outline: the chains behind it have theirs, and these come to the
blocks of the node. -/
def EntryOutlines (g : Graph) (id : Text) (items : List Block) : Prop :=
  ∃ node chains, g.node? id = some node ∧ Settled node ∧
    (∀ t, ¬ Graph.Leads g.edges id t → chains t = []) ∧
    (∀ t, Graph.Leads g.edges id t → Outlines g t (chains t)) ∧ items = entryOutline g chains node

section Graph
variable {g : Graph} (hg : g.Sound) (ha : g.Acyclic)
include hg ha

theorem Entry.Of.outlines {table : List (Text × Block)} (hnests : TableNests g table) {e : Entry}
    {c : Call} (he : e.Of (.ofGraph g) c) {q : Progress} (hq : ∀ s ∈ q.shared, s ∈ table)
    (hcalls : ∀ c' ∈ callsOf e.events,
      Outlines g c'.start (c'.result.map Block.outline) ∧ SharedIn q c'.result) :
    EntryOutlines g c.start (c.result.map Block.outline) := by
  have hbehind : ∀ t, Graph.Leads g.edges c.start t → ∃ items, Outlines g t items := by
    intro t ht
    obtain ⟨c', hc', rfl, _⟩ := he.exists_call hg ht
    exact ⟨_, (hcalls c' hc').1⟩
  obtain ⟨chains, hnone, hchains⟩ := exists_chains hbehind
  refine ⟨e.node, chains, he.node, he.assembled.settled, hnone, hchains, ?_⟩
  refine he.assembled.outline (fun t ht => ?_) he.strands fun l hl => ?_
  · have hleads : Graph.Leads g.edges c.start t := he.node_id ▸ mem_allTargets_ofGraph.mp ht
    exact ⟨(hchains t hleads).joined ha, (hchains t hleads).member⟩
  · have hmem : ∀ c' ∈ l.calls, c' ∈ callsOf e.events := fun c' hc' =>
      he.calls ▸ List.mem_flatMap.mpr ⟨l, hl, hc'⟩
    exact (he.joins l hl).outlines ha hnests hq (fun c' hc' => hcalls c' (hmem c' hc'))
      fun c' hc' => hchains _ (he.leads (hmem c' hc'))

theorem Logs.outlines {table : List (Text × Block)} (hnests : TableNests g table)
    {active : List Text} {c : Call} {p q : Progress} {made : List Block}
    (h : Logs (.ofGraph g) active c p made q) (hc : Context g active c) :
    Keeps table (fun id items => Outlines g id (items.map Block.outline)) c p q := by
  refine @Logs.keeps g ha table _ (fun id items => EntryOutlines g id (items.map Block.outline))
    ?_ ?_ ?_ active c p q made h hc
  · rintro n id items hid ⟨node, chains, hnode, hsettled, hnone, hchains, hitems⟩
    have houtline := Outlines.intro hnode hsettled hnone hchains
    rwa [chainOutline, if_pos (List.contains_iff_mem.mpr hid), ← hitems, ← outline_sequence n] at houtline
  · rintro id items hid ⟨node, chains, hnode, hsettled, hnone, hchains, hitems⟩
    have houtline := Outlines.intro hnode hsettled hnone hchains
    rwa [chainOutline, if_neg (mt List.contains_iff_mem.mp hid), ← hitems] at houtline
  · exact fun he _ hq _ hcalls => he.outlines hg ha hnests hq hcalls

theorem RootLog.nests {root : Block} {l : Laid} {made : List Block} {q : Progress}
    (h : RootLog g root l made q) : TableNests g q.shared := by
  intro a hmem b hmem' hkey
  obtain ⟨hshared, _⟩ := h.keeps (fun hlog hc => hlog.holdsShared hg ha hc) fun s hs => hs
  have hshares : g.Shares b.1 := ((hshared b hmem' b.1).mp
    ⟨b.2, List.mem_singleton_self _, b.2, .refl _, hkey⟩).1
  rw [h.mem_nestedKeys hg ha hmem, mem_behind]
  exact and_iff_right hshares

/-- The block of a graph joins the outlines of the chains from the entries. -/
theorem RootLog.outlines {root : Block} {l : Laid} {made : List Block} {q : Progress}
    (h : RootLog g root l made q) : ∃ chains : Text → List Block,
      (∀ id ∈ g.entryIds, Outlines g id (chains id)) ∧
      root.outline = .sequence 0 (joinOutlines g (g.entryIds.map chains)) none none := by
  have hnests := h.nests hg ha
  obtain ⟨_, hcalls⟩ := h.keeps (fun hlog hc => hlog.outlines hg ha hnests hc) fun s hs => hs
  have hstarts : l.calls.map (·.start) = g.entryIds := h.joins.starts.trans (by rw [h.strand])
  have hentries : ∀ t, t ∈ g.entryIds → ∃ items, Outlines g t items := by
    intro t ht
    obtain ⟨c, hc, rfl⟩ := List.mem_map.mp (hstarts ▸ ht)
    exact ⟨_, hcalls c hc⟩
  obtain ⟨chains, _, hchains⟩ := exists_chains hentries
  obtain ⟨_, _, hshared⟩ := (h.logged.mono fun hc => hc.tabled).tabled tableSound_start
  rw [callsOf_calls] at hshared
  refine ⟨chains, hchains, ?_⟩
  rw [h.root, outline_sequence, h.joins.outlines ha hnests (fun s hs => hs)
    (fun c hc => ⟨hcalls c hc, hshared c hc⟩)
    fun c hc => hchains _ (hstarts ▸ List.mem_map_of_mem hc), h.strand]

end Graph

/-- A graph without cycles is resolved just if the choices of all nodes that can be reached are
known. -/
theorem exists_block_iff_settled (v : Validated) (ha : v.graph.Acyclic) :
    (∃ root, (resolve v).block = .ok root) ↔
      ∀ node ∈ v.graph.nodes, v.graph.Reached node.id → Settled node := by
  refine ⟨?_, exists_block_of_reached v ha⟩
  rintro ⟨root, hroot⟩ node hnode ⟨s, hs, hreach⟩
  obtain ⟨l, made, q, hlog⟩ := exists_rootLog hroot
  obtain ⟨chains, hchains, _⟩ := hlog.outlines v.sound ha
  obtain ⟨items, hitems⟩ := (hchains s hs).reaches hreach
  obtain ⟨node', hnode', hsettled⟩ := hitems.node
  rw [v.sound.node?_id hnode] at hnode'
  exact Option.some.inj hnode' ▸ hsettled

end WorkflowCompiler.Resolution
