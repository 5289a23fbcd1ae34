import Mathlib
import WorkflowCompiler.Proofs.Block.Unfolding
import WorkflowCompiler.Proofs.Resolution.Nested
import WorkflowCompiler.Proofs.Resolution.Total
import WorkflowCompiler.Proofs.Resolution.Unguarded
import WorkflowCompiler.Proofs.Resolution.Walked

/-! # The order of steps

Without cycles, every step of a workflow is followed by all steps to which an edge leads from it,
wherever it stands. Joining puts shared sequences behind everything else, and one that it drops
stands inside another one there. So the last occurrences of the steps are in the order of the edges.
-/
namespace WorkflowCompiler

/-- The nodes that can be reached, each once and before all to which an edge leads from it. -/
structure Graph.IsOrder (g : Graph) (order : List Text) : Prop where
  nodup : order.Nodup
  complete : ∀ id, id ∈ order ↔ g.Reached id
  forward : ∀ e ∈ g.edges, g.Reached e.source → order.idxOf e.source < order.idxOf e.target

namespace Resolution
open Block Relation

def unfolded (items : List Block) : List Text := items.flatMap unfolding

@[simp] theorem unfolded_append (xs ys : List Block) :
    unfolded (xs ++ ys) = unfolded xs ++ unfolded ys := List.flatMap_append

@[simp] theorem unfolded_cons (b : Block) (rest : List Block) :
    unfolded (b :: rest) = b.unfolding ++ unfolded rest := rfl

@[simp] theorem unfolded_nil : unfolded [] = [] := rfl

theorem unfolded_flatten (chains : List (List Block)) :
    unfolded chains.flatten = chains.flatMap unfolded := by
  induction chains with
  | nil => rfl
  | cons items rest ih => rw [List.flatten_cons, unfolded_append, ih, List.flatMap_cons]

theorem mem_unfolded {items : List Block} {id : Text} :
    id ∈ unfolded items ↔ ∃ b ∈ items, id ∈ b.unfolding := List.mem_flatMap

section Assembly

theorem Laid.Wraps.unfolding_eq {l : Laid} {b : Block} (h : l.Wraps b) :
    b.unfolding = unfolded l.content := by
  rcases h with ⟨hcontent, _⟩ | ⟨n, rfl, _⟩
  · simp [hcontent]
  · exact unfolding_plain _ _ _

theorem MemberBlocks.unfolded_eq {ls : List Laid} {bs : List Block} (h : MemberBlocks ls bs) :
    unfolded bs = ls.flatMap fun l => unfolded l.content := by
  induction h with
  | nil => rfl
  | skip hcontent _ _ ih => simp [ih, hcontent]
  | cons hw _ ih => simp [ih, hw.wraps.unfolding_eq]

theorem unfolded_routes {R : Laid → Exit × Block → Prop} (hR : ∀ l r, R l r → l.Wraps r.2)
    {ls : List Laid} {routes : List (Exit × Block)} (h : List.Forall₂ R ls routes) :
    unfolded (routes.map (·.2)) = ls.flatMap fun l => unfolded l.content := by
  induction h with
  | nil => rfl
  | cons hl _ ih => simp [ih, (hR _ _ hl).unfolding_eq]

/-- A node comes first in its blocks, and then what its strands give, one after the other. -/
theorem Assembled.unfolded_eq {node : Node} {heads items : List Block} {laid : List Laid}
    (h : Assembled node heads laid items) : ∃ k, unfolded items =
      List.replicate (k + 1) node.id ++ laid.flatMap fun l => unfolded l.content := by
  cases h with
  | step _ _ => exact ⟨0, by simp [unfolding]⟩
  | sequential _ _ _ =>
    refine ⟨0, ?_⟩
    simp [unfolding_eq, node?, children, unfolded]
  | parallel _ _ hm _ _ =>
    refine ⟨0, ?_⟩
    have hmembers := hm.unfolded_eq
    simp only [unfolded] at hmembers
    simp [unfolding_eq, node?, children, unfolded, hmembers]
  | conditional _ _ ha hb _ _ _ =>
    exact ⟨0, by simp [unfolding, ha.wraps.unfolding_eq, hb.wraps.unfolding_eq]⟩
  | outcome _ ha hb _ _ _ =>
    exact ⟨1, by simp [unfolding, ha.wraps.unfolding_eq, hb.wraps.unfolding_eq, List.replicate]⟩
  | switch _ _ hf _ =>
    refine ⟨0, ?_⟩
    have hroutes := unfolded_routes (fun _ _ h => h.1.wraps) hf
    simp only [unfolded] at hroutes
    simp [unfolding_eq, node?, children, unfolded, hroutes]
  | loop _ _ _ hw _ _ => exact ⟨0, by simp [unfolding, hw.wraps.unfolding_eq]⟩

end Assembly

section Joining

/-- Of a chain, joining leaves the blocks that are not shared in their place. The rest of the chain
is among what comes later. -/
theorem followedWithin_unshared {later : List Text} {u v : Text} {items : List Block}
    (h : FollowedBy (unfolded items) u v)
    (hlater : ∀ b ∈ items, b.sharedKey?.isSome → ∀ x ∈ b.unfolding, x ∈ later) :
    FollowedWithin later (unfolded (items.filter (·.sharedKey?.isNone))) u v := by
  rw [followedBy_iff] at h
  induction items with
  | nil => exact followedWithin_nil
  | cons b rest ih =>
    rw [unfolded_cons] at h
    have hrest := ih h.of_append_right fun x hx => hlater x (List.mem_cons_of_mem _ hx)
    by_cases hkey : b.sharedKey?.isNone
    · rw [List.filter_cons, if_pos hkey, unfolded_cons]
      refine FollowedWithin.append (h.of_append_left.mono ?_) hrest
      intro x hx
      rw [List.append_nil] at hx
      obtain ⟨y, hy, hxy⟩ := mem_unfolded.mp hx
      rw [List.mem_append]
      by_cases hkey' : y.sharedKey?.isNone
      · exact Or.inl (mem_unfolded.mpr ⟨y, List.mem_filter.mpr ⟨hy, hkey'⟩, hxy⟩)
      · have hsome : y.sharedKey?.isSome := by
          rw [Option.isNone_iff_eq_none] at hkey'
          exact Option.isSome_iff_ne_none.mpr hkey'
        exact Or.inr (hlater y (List.mem_cons_of_mem _ hy) hsome x hxy)
    · rwa [List.filter_cons, if_neg hkey]

/-- Joining keeps what follows what, if this holds inside every shared sequence. -/
theorem followedBy_splice {p : Progress} (hp : TableSound p) {chains : List (List Block)}
    (hin : SharedIn p chains.flatten) {u v : Text}
    (hchains : ∀ items ∈ chains, FollowedBy (unfolded items) u v)
    (hshared : ∀ s ∈ p.shared, FollowedBy s.2.unfolding u v) :
    FollowedBy (unfolded (splice chains)) u v := by
  obtain ⟨held, hsplice, hheld⟩ := exists_splice chains
  have hkept : ∀ b ∈ held, FollowedBy b.unfolding u v := by
    intro b hb
    obtain ⟨key, hkey⟩ := Option.isSome_iff_exists.mp (hheld b hb)
    have hmem : b ∈ chains.flatten :=
      mem_flatten_of_mem_splice (hsplice ▸ List.mem_append_right _ hb)
    exact hshared _ (hin b hmem b (.refl b) key hkey)
  -- a shared sequence is held, or it stands inside one that is
  have hlater : ∀ b ∈ chains.flatten, b.sharedKey?.isSome → ∀ x ∈ b.unfolding,
      x ∈ unfolded held := by
    intro b hb hsome x hx
    obtain ⟨key, hkey⟩ := Option.isSome_iff_exists.mp hsome
    obtain ⟨item, hitem, hitemKey, hw⟩ := splice_holds_shared hp hin hb hkey
    rw [hsplice] at hitem
    rcases List.mem_append.mp hitem with hitem | hitem
    · have hnone := (List.mem_filter.mp hitem).2
      rw [Option.isNone_iff_eq_none.mp hnone] at hitemKey
      cases hitemKey
    · exact mem_unfolded.mpr ⟨item, hitem, hw.unfolding_subset hx⟩
  rw [followedBy_iff, hsplice, unfolded_append]
  refine FollowedWithin.append ?_ (followedWithin_flatMap fun b hb => followedBy_iff.mp (hkept b hb))
  have hflat : unfolded (chains.flatten.filter (·.sharedKey?.isNone)) =
      chains.flatMap fun items => unfolded (items.filter (·.sharedKey?.isNone)) := by
    rw [List.filter_flatten, unfolded_flatten, List.flatMap_map]
  rw [hflat]
  refine followedWithin_flatMap fun items hitems => ?_
  refine followedWithin_unshared (hchains items hitems) fun b hb hsome x hx => ?_
  exact List.mem_append_left _
    (hlater b (List.mem_flatten.mpr ⟨items, hitems, hb⟩) hsome x hx)

end Joining

/-- Every node in some blocks is followed by those to which an edge leads from it. -/
def Respects (g : Graph) (items : List Block) : Prop :=
  ∀ e ∈ g.edges, FollowedBy (unfolded items) e.source e.target

/-- A chain begins with its node somewhere, and respects the edges. -/
def Ordered (g : Graph) (start : Text) (items : List Block) : Prop :=
  start ∈ unfolded items ∧ Respects g items

/-- The chains of a strand keep their order when they are joined, and none is lost. -/
theorem Laid.Joins.ordered {g : Graph} {l : Laid} (h : l.Joins) {q : Progress} (hq : TableSound q)
    (htable : ∀ s ∈ q.shared, Ordered g s.1 [s.2])
    (hcalls : ∀ c ∈ l.calls, Ordered g c.start c.result ∧ SharedIn q c.result) :
    (∀ c ∈ l.calls, c.start ∈ unfolded l.content) ∧ Respects g l.content := by
  constructor
  · intro c hc
    obtain ⟨b, hb, hstart⟩ := mem_unfolded.mp (hcalls c hc).1.1
    obtain ⟨item, hitem, hw⟩ := h.holds hq (fun c hc => (hcalls c hc).2) hc hb
    exact mem_unfolded.mpr ⟨item, hitem, hw.unfolding_subset hstart⟩
  · intro e he
    have hresults : ∀ items ∈ l.calls.map (·.result), FollowedBy (unfolded items) e.source e.target
        ∧ SharedIn q items := by
      intro items hitems
      obtain ⟨c, hc, rfl⟩ := List.mem_map.mp hitems
      exact ⟨(hcalls c hc).1.2 e he, (hcalls c hc).2⟩
    rcases h.content with hcontent | hcontent
    · rw [hcontent]
      refine followedBy_splice hq ?_ (fun items hitems => (hresults items hitems).1) ?_
      · intro b hb
        obtain ⟨items, hitems, hb⟩ := List.mem_flatten.mp hb
        exact (hresults items hitems).2 b hb
      · intro s hs
        simpa using (htable s hs).2 e he
    · exact (hresults l.content (by simp [hcontent])).1

/-- A node comes before what its strands give, and an edge from it leads to a chain of one of them. -/
theorem Entry.Of.ordered {g : Graph} (hg : g.Sound) {e : Entry} {c : Call}
    (he : e.Of (.ofGraph g) c) {q : Progress} (hq : TableSound q)
    (htable : ∀ s ∈ q.shared, Ordered g s.1 [s.2])
    (hcalls : ∀ c' ∈ callsOf e.events, Ordered g c'.start c'.result ∧ SharedIn q c'.result) :
    Ordered g c.start c.result := by
  rw [he.calls] at hcalls
  have hlaid : ∀ l ∈ e.laid, (∀ c ∈ l.calls, c.start ∈ unfolded l.content) ∧
      Respects g l.content := fun l hl =>
    (he.joins l hl).ordered hq htable fun c' hc' => hcalls c' (List.mem_flatMap.mpr ⟨l, hl, hc'⟩)
  obtain ⟨k, hk⟩ := he.assembled.unfolded_eq
  rw [he.node_id] at hk
  refine ⟨by simp [hk], ?_⟩
  intro edge hedge
  rw [followedBy_iff, hk]
  refine FollowedWithin.append ?_ (followedWithin_flatMap fun l hl =>
    followedBy_iff.mp ((hlaid l hl).2 edge hedge))
  by_cases hsource : edge.source = c.start
  · obtain ⟨c', hc', hstart, _⟩ := he.exists_call hg ⟨edge, hedge, hsource, rfl⟩
    rw [he.calls] at hc'
    obtain ⟨l, hl, hc'⟩ := List.mem_flatMap.mp hc'
    apply followedWithin_of_mem
    rw [List.append_nil]
    exact List.mem_flatMap.mpr ⟨l, hl, hstart ▸ (hlaid l hl).1 c' hc'⟩
  · apply followedWithin_of_not_mem
    intro hmem
    exact hsource (List.eq_of_mem_replicate hmem)

theorem Logs.ordered {g : Graph} (hg : g.Sound) (ha : g.Acyclic) {table : List (Text × Block)}
    {active : List Text} {c : Call} {p q : Progress} {made : List Block}
    (h : Logs (.ofGraph g) active c p made q) (hc : Context g active c) :
    Keeps table (Ordered g) c p q := by
  refine Logs.keeps ha (E := Ordered g) ?_ ?_ ?_ h hc
  · intro n id items _ hE
    have hsame : unfolded [.sequence n items none (some id)] = unfolded items := by
      simp [unfolded]
    exact ⟨hsame ▸ hE.1, fun e he => hsame ▸ hE.2 e he⟩
  · intro id items _ hE
    exact hE
  · intro e c q he hq _ htable hcalls
    exact he.ordered hg hq htable hcalls

theorem RootLog.followedBy {g : Graph} (hg : g.Sound) (ha : g.Acyclic) {root : Block} {l : Laid}
    {made : List Block} {q : Progress} (h : RootLog g root l made q) {e : Edge} (he : e ∈ g.edges) :
    FollowedBy root.unfolding e.source e.target := by
  obtain ⟨hq, _, hin⟩ := (h.logged.mono fun hc => hc.tabled).tabled tableSound_start
  rw [callsOf_calls] at hin
  obtain ⟨htable, hcalls⟩ := h.keeps (fun hlog hc => hlog.ordered hg ha hc) (fun s hs => hs)
  have hcontent := (h.joins.ordered hq htable fun c hc => ⟨hcalls c hc, hin c hc⟩).2 e he
  rw [h.root, unfolding_plain]
  exact hcontent

theorem RootLog.mem_unfolding_iff {g : Graph} (hg : g.Sound) {root : Block} {l : Laid}
    {made : List Block} {q : Progress} (h : RootLog g root l made q) {id : Text} :
    id ∈ root.unfolding ↔ g.Reached id := by
  rw [← h.mem_walkedIds hg, mem_unfolding, walkedIds, List.mem_map]
  simp only [List.mem_filterMap, mem_walk h.coherent]
  constructor
  · rintro ⟨x, hx, node, hnode, hid⟩
    exact ⟨node, ⟨x, hx, hnode⟩, hid⟩
  · rintro ⟨node, ⟨x, hx, hnode⟩, hid⟩
    exact ⟨x, hx, node, hnode, hid⟩

/-- An accepted workflow without cycles is resolved so that every occurrence of a node is followed by
one of every node to which an edge leads from it. The last occurrences are in the order of the
edges. -/
theorem followedBy_resolve (v : Validated) (ha : v.graph.Acyclic)
    (hgiven : ∀ n ∈ v.graph.nodes, ∀ field ∈ (["loopType", "joinStrategy"] : List Text),
      n.config.get field ≠ .str []) :
    ∃ root, (resolve v).block = .ok root ∧
      (∀ e ∈ v.graph.edges, v.graph.Reached e.source →
        e.source ∈ root.unfolding ∧ FollowedBy root.unfolding e.source e.target) ∧
      v.graph.IsOrder root.unfolding.dedup := by
  obtain ⟨root, hroot⟩ := exists_block v ha fun _ => Settled.of_given v hgiven
  obtain ⟨l, made, q, hlog⟩ := exists_rootLog hroot
  have hg := v.sound
  have hmem : ∀ id, id ∈ root.unfolding ↔ v.graph.Reached id := fun _ => hlog.mem_unfolding_iff hg
  refine ⟨root, hroot, fun e he hs => ⟨(hmem _).mpr hs, hlog.followedBy hg ha he⟩,
    List.nodup_dedup _, fun id => List.mem_dedup.trans (hmem id), fun e he hs => ?_⟩
  exact (hlog.followedBy hg ha he).idxOf_dedup_lt ((hmem _).mpr hs)

theorem given_overtaking : ∀ n ∈ overtaking.nodes,
    ∀ field ∈ (["loopType", "joinStrategy"] : List Text), n.config.get field ≠ .str [] := by
  intro n hn field hfield
  simp only [overtaking, List.mem_cons, List.not_mem_nil, or_false] at hn hfield
  rcases hn with rfl | rfl | rfl | rfl | rfl | rfl <;> rcases hfield with rfl | rfl <;>
    rintro ⟨⟩

/-- A step that stands only inside the shared sequence of a later one still comes after all steps
that lead to it. -/
theorem followedBy_overtaking :
    (resolve ⟨overtaking, [], validate_overtaking, rfl⟩).block = .ok overtakingBlock ∧
    FollowedBy overtakingBlock.unfolding "i" "m" ∧
    overtaking.IsOrder ["i", "x", "y", "c", "m", "n"] := by
  have hresolve : (resolve ⟨overtaking, [], validate_overtaking, rfl⟩).block =
      .ok overtakingBlock := by
    cbv
  obtain ⟨root, hroot, hfollowed, horder⟩ := followedBy_resolve
    ⟨overtaking, [], validate_overtaking, rfl⟩ acyclic_overtaking given_overtaking
  obtain rfl : overtakingBlock = root := Except.ok.inj (hresolve.symm.trans hroot)
  have hentry : ("i" : Text) ∈ overtaking.entryIds := by
    rw [show overtaking.entryIds = ["i"] by cbv]
    exact List.mem_singleton_self _
  refine ⟨hresolve, ?_, horder⟩
  exact (hfollowed ⟨"e3", "i", "m", none, none⟩ (by simp [overtaking])
    ⟨"i", hentry, .refl⟩).2

end Resolution

end WorkflowCompiler
