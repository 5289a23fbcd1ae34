import Mathlib
import WorkflowCompiler.Proofs.Compilation.Complete
import WorkflowCompiler.Proofs.Resolution.Nested
import WorkflowCompiler.Proofs.Resolution.Walked
import WorkflowCompiler.Proofs.Validation.Unterminated

/-! # The arms of splits

Without cycles no chain comes back to a node, so every chain gives a block. An arm is therefore an
empty sequence if and only if no edge leaves by its port, and the arms that are empty without being
listed as terminated are those with a warning.
-/
namespace WorkflowCompiler

namespace Block

def arms : Block → List (Exit × Block)
  | .branch _ _ _ onTrue onFalse none =>
    [(⟨"true", "true"⟩, onTrue), (⟨"false", "false"⟩, onFalse)]
  | .switch _ _ routes => routes
  | _ => []

def isNoOp : Block → Bool
  | .sequence _ items _ _ => items.isEmpty
  | _ => false

end Block

def Node.exits (node : Node) : List Exit :=
  (Validation.branchPorts node).map fun port => ⟨port.2, port.1⟩

namespace Resolution
open Block

/-- A split has one arm for each exit of its node, and an arm is empty if no edge leaves by the port
of its exit. -/
def ArmsFit (g : Graph) (b : Block) : Prop :=
  ∀ node, b.node? = some node → node.Splits → b.arms.map (·.1) = node.exits ∧
    ∀ r ∈ b.arms, r.2.isNoOp = true ↔ ¬ g.LeavesBy node r.1.port

/-- What a chain gives: some block, no shared sequence that is empty, and splits whose arms fit. -/
structure Fills (g : Graph) (items : List Block) : Prop where
  nonempty : items ≠ []
  shared : ∀ b ∈ items, b.sharedKey?.isSome = true → b.isNoOp = false
  fits : ∀ b ∈ items, ∀ x : Block, x.Within b → ArmsFit g x

section Strands
variable {g : Graph} {node : Node} {port : Text}

theorem starts_of_guard {owner : Option Text} {stop : List Text} {s : Strand}
    (hs : s ∈ strands (.ofGraph g) owner stop node) (hguard : s.guards = [(node.id, port)]) :
    s.starts = (Facts.ofGraph g).targets node.id port := by
  have hmem : (s.guards, s.starts) ∈
      (strands (.ofGraph g) owner stop node).map (fun s => (s.guards, s.starts)) :=
    List.mem_map_of_mem hs
  rw [hguard] at hmem
  by_cases hk : node.kind = .parallel
  · rw [strands_eq_members hk] at hmem
    simp at hmem
  · obtain ⟨extra, hextra, heq⟩ := strands_eq_ports (g := g) hk owner stop
    rw [heq] at hmem
    rcases List.mem_append.mp hmem with hmem | hmem
    · obtain ⟨port', -, heq⟩ := List.mem_map.mp hmem
      obtain ⟨hguards, hstarts⟩ := Prod.mk.inj heq
      rw [Graph.guardsOf] at hguards
      split at hguards
      · obtain rfl : port' = port := (Prod.mk.inj (List.head_eq_of_cons_eq hguards)).2
        exact hstarts.symm
      · cases hguards
    · cases (Prod.mk.inj (hextra _ hmem)).1

theorem targets_eq_nil_iff (hnode : g.node? node.id = some node) :
    (Facts.ofGraph g).targets node.id port = [] ↔ ¬ g.LeavesBy node port := by
  rw [List.eq_nil_iff_forall_not_mem]
  simp only [mem_targets_ofGraph]
  constructor
  · rintro hnone ⟨e, he, hsource, hport⟩
    refine hnone e.target ⟨e, he, hsource, ?_, rfl⟩
    rw [Graph.portOf?_eq (hsource ▸ hnode), hport]
  · rintro hnot t ⟨e, he, hsource, hport, -⟩
    rw [Graph.portOf?_eq (hsource ▸ hnode)] at hport
    exact hnot ⟨e, he, hsource, hport⟩

end Strands

section Laid
variable {l : Laid} {q : Progress}

theorem Laid.Joins.content_eq_nil_iff (h : l.Joins) (hq : TableSound q)
    (hcalls : ∀ c ∈ l.calls, c.result ≠ [] ∧ SharedIn q c.result) :
    l.content = [] ↔ l.strand.starts = [] := by
  rw [← h.starts, List.map_eq_nil_iff]
  constructor
  · intro hcontent
    by_contra hne
    obtain ⟨c, hc⟩ := List.exists_mem_of_ne_nil _ hne
    obtain ⟨b, hb⟩ := List.exists_mem_of_ne_nil _ (hcalls c hc).1
    obtain ⟨item, hitem, -⟩ := h.holds hq (fun c hc => (hcalls c hc).2) hc hb
    rw [hcontent] at hitem
    exact absurd hitem List.not_mem_nil
  · intro hnone
    rcases h.content with hcontent | hcontent
    · rw [hcontent, hnone]
      rfl
    · rw [hnone] at hcontent
      cases hcontent

theorem Laid.WrapsArm.isNoOp_iff {g : Graph} {b : Block} (hw : l.WrapsArm b) (h : l.Joins)
    (hq : TableSound q) (hcalls : ∀ c ∈ l.calls, Fills g c.result ∧ SharedIn q c.result) :
    b.isNoOp = true ↔ l.strand.starts = [] := by
  rw [← h.content_eq_nil_iff hq fun c hc => ⟨(hcalls c hc).1.nonempty, (hcalls c hc).2⟩]
  rcases hw with ⟨hcontent, -, hshared⟩ | ⟨-, n, rfl, -⟩
  · have hmem : b ∈ l.content := by simp [hcontent]
    obtain ⟨c, hc, hb⟩ := h.mem_result hmem
    rw [(hcalls c hc).1.shared b hb hshared, hcontent]
    simp
  · simp [isNoOp]

end Laid

/-- The blocks of a split have one arm for each of its exits, and each arm stands for the content of
the strand of its port. -/
theorem Assembled.arms {node : Node} {heads items : List Block} {laid : List Laid}
    (h : Assembled node heads laid items) (hsplits : node.Splits) {b : Block} (hb : b ∈ heads) :
    b.arms.map (·.1) = node.exits ∧
      ∀ r ∈ b.arms, ∃ l ∈ laid, l.WrapsArm r.2 ∧ l.strand.guards = [(node.id, r.1.port)] := by
  cases h with
  | conditional hk _ ha hb' hga hgb _ =>
    obtain rfl := List.mem_singleton.mp hb
    refine ⟨by simp [Block.arms, Node.exits, Validation.branchPorts, hk], ?_⟩
    intro r hr
    rcases List.mem_pair.mp hr with rfl | rfl
    · exact ⟨_, by simp, ha, hga⟩
    · exact ⟨_, by simp, hb', hgb⟩
  | @switch n inner routes rest hk hexits hf _ =>
    obtain rfl := List.mem_singleton.mp hb
    refine ⟨by simp [Block.arms, Node.exits, Validation.branchPorts, hk, hexits], ?_⟩
    intro r hr
    obtain ⟨l, hl, hw⟩ := exists_of_forall₂ hf hr
    exact ⟨l, List.mem_append_left _ hl, hw⟩
  | step hk _ | sequential hk _ _ | parallel hk _ _ _ _ | loop hk _ _ _ _ _ | outcome hk _ _ _ _ _ =>
    rcases hsplits with hsplits | hsplits <;>
      simp [hsplits, NodeKind.isContainer, NodeKind.outcomePorts?] at hk

section Entry
variable {g : Graph} {e : Entry} {c : Call} (he : e.Of (.ofGraph g) c) {q : Progress}
  (hq : TableSound q)
  (hcalls : ∀ c' ∈ callsOf e.events, Fills g c'.result ∧ SharedIn q c'.result)
include he hq hcalls

/-- An arm of a node that is entered is empty if no edge leaves by its port. -/
theorem Entry.Of.isNoOp_iff {l : Laid} (hl : l ∈ e.laid) {b : Block} (hw : l.WrapsArm b)
    {port : Text} (hguard : l.strand.guards = [(e.node.id, port)]) :
    b.isNoOp = true ↔ ¬ g.LeavesBy e.node port := by
  have hnode : g.node? e.node.id = some e.node := he.node_id ▸ he.node
  rw [← targets_eq_nil_iff hnode, ← starts_of_guard (he.strand_mem hl) hguard]
  refine hw.isNoOp_iff (he.joins l hl) hq fun c hc => hcalls c ?_
  rw [he.calls]
  exact List.mem_flatMap.mpr ⟨l, hl, hc⟩

theorem Entry.Of.armsFit_own {b : Block} (hb : b ∈ ownBlocks e.heads e.laid) : ArmsFit g b := by
  intro node hnode hsplits
  obtain rfl := he.assembled.node?_own hb hnode
  have hhead : b ∈ e.heads := by
    rcases mem_ownBlocks.mp hb with hb | ⟨l, hl, hb⟩
    · exact hb
    · obtain ⟨n, rfl⟩ := he.assembled.made_plain hl hb
      cases hnode
  obtain ⟨hexits, harms⟩ := he.assembled.arms hsplits hhead
  refine ⟨hexits, fun r hr => ?_⟩
  obtain ⟨l, hl, hw, hguard⟩ := harms r hr
  exact he.isNoOp_iff hq hcalls hl hw hguard

theorem Entry.Of.fills : Fills g c.result := by
  -- what a strand gives is from one of its chains
  have hcontent : ∀ l ∈ e.laid, ∀ b ∈ l.content, ∃ c' ∈ callsOf e.events, b ∈ c'.result := by
    intro l hl b hb
    obtain ⟨c', hc', hb⟩ := (he.joins l hl).mem_result hb
    exact ⟨c', he.calls ▸ List.mem_flatMap.mpr ⟨l, hl, hc'⟩, hb⟩
  refine ⟨?_, ?_, ?_⟩
  · obtain ⟨inner, rest, slots, hs⟩ := he.assembled.shape
    obtain ⟨head, hhead, -⟩ := hs.holder
    rw [hs.items]
    exact List.append_ne_nil_of_left_ne_nil (List.ne_nil_of_mem hhead) _
  · intro b hb hshared
    rcases he.assembled.item_origin hb with hown | ⟨l, hl, hb⟩
    · rw [he.assembled.unshared hown] at hshared
      cases hshared
    · obtain ⟨c', hc', hb⟩ := hcontent l hl b hb
      exact (hcalls c' hc').1.shared b hb hshared
  · intro b hb x hx
    rcases he.assembled.within_origin hb hx with hown | ⟨l, hl, y, hy, hw⟩
    · exact he.armsFit_own hq hcalls hown
    · obtain ⟨c', hc', hy⟩ := hcontent l hl y hy
      exact (hcalls c' hc').1.fits y hy x hw

end Entry

theorem armsFit_of_none {g : Graph} {b : Block} (h : b.node? = none) : ArmsFit g b := by
  intro node hnode
  rw [h] at hnode
  cases hnode

theorem Fills.share {g : Graph} {items : List Block} (h : Fills g items) (n : Nat) (id : Text) :
    Fills g [.sequence n items none (some id)] where
  nonempty := List.cons_ne_nil _ _
  shared b hb _ := by
    rw [List.mem_singleton.mp hb, isNoOp, List.isEmpty_eq_false_iff]
    exact h.nonempty
  fits b hb x hx := by
    rw [List.mem_singleton.mp hb] at hx
    rcases within_iff.mp hx with rfl | ⟨y, hy, hw⟩
    · exact armsFit_of_none rfl
    · exact h.fits y hy x hw

section Graph
variable {g : Graph} (ha : g.Acyclic)
include ha

theorem Logs.fills {table : List (Text × Block)} {active : List Text} {c : Call} {p q : Progress}
    {made : List Block} (h : Logs (.ofGraph g) active c p made q) (hc : Context g active c) :
    Keeps table (fun _ items => Fills g items) c p q := by
  apply Logs.keeps ha (E := fun _ items => Fills g items) _ _ _ h hc
  · intro n id items _ hfills
    exact hfills.share n id
  · intro id items _ hfills
    exact hfills
  · intro e c q he hq _ _ hcalls
    exact he.fills hq hcalls

theorem RootLog.armsFit {root : Block} {l : Laid} {made : List Block} {q : Progress}
    (h : RootLog g root l made q) {b : Block} (hb : b ∈ root.walk) : ArmsFit g b := by
  obtain ⟨-, hcalls⟩ := h.keeps (fun hlog hc => hlog.fills ha hc) fun s hs => hs
  have hw := within_of_mem_walk hb
  rw [h.root] at hw
  rcases Block.within_iff.mp hw with rfl | ⟨item, hitem, hw⟩
  · exact armsFit_of_none rfl
  · obtain ⟨c, hc, hitem⟩ := h.joins.mem_result hitem
    exact (hcalls c hc).fits item hitem b hw

end Graph

/-- Where no node is entered twice, no two blocks are main blocks of one node. -/
theorem eq_of_entered_nodup {made : List Block} (h : (entered made).Nodup) {a b : Block}
    (ha : a ∈ made) (hb : b ∈ made) {id : Text} (hida : a.mainId? = some id)
    (hidb : b.mainId? = some id) : a = b := by
  induction made with
  | nil => exact absurd ha List.not_mem_nil
  | cons x rest ih =>
    rw [entered_cons] at h
    obtain ⟨-, hrest, hdisjoint⟩ := List.nodup_append.mp h
    have hfirst : x.mainId? = some id → ∀ y ∈ rest, y.mainId? ≠ some id := by
      intro hx y hy hid
      have hxs : id ∈ entered [x] := List.mem_filterMap.mpr ⟨x, List.mem_singleton_self x, hx⟩
      have hys : id ∈ entered rest := List.mem_filterMap.mpr ⟨y, hy, hid⟩
      exact hdisjoint id hxs id hys rfl
    rcases List.mem_cons.mp ha with rfl | ha'
    · rcases List.mem_cons.mp hb with rfl | hb'
      · rfl
      · exact absurd hidb (hfirst hida b hb')
    · rcases List.mem_cons.mp hb with rfl | hb'
      · exact absurd hida (hfirst hidb a ha')
      · exact ih hrest ha' hb'

theorem routeLabels_ne_nil (config : Members) : routeLabels config ≠ [] := by
  have hcount : ∀ v, countOr defaultRouteCount v ≠ 0 := by
    intro v
    unfold countOr
    split
    · split
      · omega
      · decide
    · decide
  have hrules : ∀ rules : List Value, (if rules.isEmpty = true then
      countOr defaultRouteCount (config.get "routeCount") else rules.length) ≠ 0 := by
    intro rules
    cases rules with
    | nil => exact hcount _
    | cons _ _ => simp
  unfold routeLabels
  simp only [ne_eq, List.map_eq_nil_iff, List.range_eq_nil]
  exact hrules _

theorem exits_ne_nil {node : Node} (h : node.Splits) : node.exits ≠ [] := by
  unfold Node.exits Validation.branchPorts
  rcases h with h | h
  · rw [h]
    exact List.cons_ne_nil _ _
  · rw [h]
    simpa using routeLabels_ne_nil node.config

theorem ArmsFit.mainId? {g : Graph} {b : Block} (h : ArmsFit g b) {node : Node}
    (hnode : b.node? = some node) (hsplits : node.Splits) : b.mainId? = some node.id := by
  obtain ⟨hexits, -⟩ := h node hnode hsplits
  unfold Block.mainId?
  split
  · exact absurd hexits.symm (exits_ne_nil hsplits)
  · rw [hnode]
    rfl

end Resolution

section Arms
open Resolution Validation

/-- Every conditional or router that can be reached has one block, with one arm for each of its ports
in their order. An arm is empty if and only if no edge leaves by its port, and there is one warning
about the port if and only if the arm is empty and the port is not listed as terminated. -/
theorem Validated.exists_arms (v : Validated) (ha : v.graph.Acyclic)
    (hgiven : ∀ n ∈ v.graph.nodes, ∀ field ∈ (["loopType", "joinStrategy"] : List Text),
      n.config.get field ≠ .str [])
    {node : Node} (hn : node ∈ v.graph.nodes) (hsplits : node.Splits)
    (hreached : v.graph.Reached node.id) :
    ∃ root, (resolve v).block = .ok root ∧ ∃ b ∈ root.walk, b.node? = some node ∧
      (∀ other ∈ root.walk, other.node? = some node → other = b) ∧
      b.arms.map (·.1.port) = node.kind.outputNames node.config ∧
      ∀ arm ∈ b.arms,
        (arm.2.isNoOp = true ↔ ¬ v.graph.LeavesBy node arm.1.port) ∧
        v.warnings.count (unterminatedBranch node arm.1.port arm.1.label) ≤ 1 ∧
        (v.warnings.count (unterminatedBranch node arm.1.port arm.1.label) = 1 ↔
          arm.2.isNoOp = true ∧ ¬ node.Terminates arm.1.port) := by
  obtain ⟨root, hroot⟩ := exists_block v ha fun n hn => Settled.of_given v hgiven hn
  obtain ⟨l, made, q, hlog⟩ := exists_rootLog hroot
  have hwalk : ∀ b, b ∈ root.walk ↔ b ∈ made ++ [root] := fun b => hlog.walk_perm.mem_iff
  have hmade : ∀ b ∈ root.walk, b.node? = some node → b ∈ made ∧ b.mainId? = some node.id := by
    intro b hb hnode
    refine ⟨?_, (hlog.armsFit ha hb).mainId? hnode hsplits⟩
    rcases List.mem_append.mp ((hwalk b).mp hb) with hb | hb
    · exact hb
    · rw [List.mem_singleton.mp hb, hlog.root] at hnode
      cases hnode
  obtain ⟨b, hb, hmain⟩ := List.mem_filterMap.mp ((hlog.mem_entered_iff v.sound).mpr hreached)
  replace hb : b ∈ root.walk := (hwalk b).mpr (List.mem_append_left _ hb)
  have hnode : b.node? = some node := by
    obtain ⟨other, hother, hid⟩ := exists_node_of_mainId? hmain
    have hfound := hlog.names b (Block.within_of_mem_walk hb) other hother
    rw [hid, v.sound.node?_id hn] at hfound
    rw [hother, Option.some.inj hfound]
  obtain ⟨hexits, harms⟩ := hlog.armsFit ha hb node hnode hsplits
  refine ⟨root, hroot, b, hb, hnode, ?_, ?_, ?_⟩
  · intro other hother hsame
    obtain ⟨hothermade, hotherid⟩ := hmade other hother hsame
    obtain ⟨hbmade, hbid⟩ := hmade b hb hnode
    exact eq_of_entered_nodup (hlog.entered_nodup v.sound ha) hothermade hbmade hotherid hbid
  · have hports := congrArg (List.map Exit.port) hexits
    rw [List.map_map, Node.exits, List.map_map] at hports
    rw [← map_fst_branchPorts hsplits]
    exact hports
  · intro arm harm
    have hexit : arm.1 ∈ node.exits := hexits ▸ List.mem_map_of_mem harm
    obtain ⟨port, hport, hlabel⟩ := List.mem_map.mp hexit
    have hcount : v.warnings.count (unterminatedBranch node arm.1.port arm.1.label) =
        if isOpen v.graph node arm.1.port then 1 else 0 := by
      rw [← hlabel]
      exact v.count_unterminatedBranch hn hport
    have hopen : isOpen v.graph node arm.1.port = true ↔
        arm.2.isNoOp = true ∧ ¬ node.Terminates arm.1.port := by
      rw [harms arm harm, ← isUsed_iff, ← isTerminated_iff, isOpen]
      simp
    rw [← hopen, hcount]
    refine ⟨harms arm harm, ?_⟩
    by_cases h : isOpen v.graph node arm.1.port = true
    · simp [h]
    · simp [h]

/-- A router with three routes, one of which is listed as terminated. -/
def triageRouter : Node :=
  ⟨"r", .router, [("routeCount", .int 3), ("terminatedPorts", .list [.str "route1"])], none⟩

def triage : Graph where
  nodes := [⟨"i", .input, [], none⟩, triageRouter, ⟨"d", .debug, [], none⟩]
  edges := [⟨"e1", "i", "r", none, none⟩, ⟨"e2", "r", "d", some "route0", none⟩]

def triageWarning : Diagnostic := unterminatedBranch triageRouter "route2" "route2"

theorem validate_triage : validate triage = .ok [triageWarning] := by
  have hreach : checkReachability triage = [] := by cbv
  have hbranches : checkBranches triage = .ok [triageWarning] := by cbv
  rw [validate_eq_warnings rfl rfl rfl (by cbv) hbranches, hreach]
  rfl

theorem acyclic_triage : triage.Acyclic :=
  Graph.acyclic_of_rank ((["i", "r", "d"] : List Text).idxOf ·) (by decide)

/-- The route in use is the only one with something in its arm, and of the other ones the terminated
one has no warning. -/
theorem exists_arms_triage :
    triageRouter ∈ triage.nodes ∧ triageRouter.Splits ∧ triage.Reached triageRouter.id ∧
      ∃ root, (resolve ⟨triage, [triageWarning], validate_triage, rfl⟩).block = .ok root ∧
        ∃ b ∈ root.walk, b.node? = some triageRouter ∧
          b.arms.map (·.1.port) = ["route0", "route1", "route2"] ∧
          ∀ arm ∈ b.arms, (arm.2.isNoOp = true ↔ arm.1.port ≠ "route0") ∧
            ([triageWarning].count (unterminatedBranch triageRouter arm.1.port arm.1.label) = 1 ↔
              arm.1.port ≠ "route0" ∧ arm.1.port ≠ "route1") := by
  let v : Validated := ⟨triage, [triageWarning], validate_triage, rfl⟩
  have hn : triageRouter ∈ v.graph.nodes := List.mem_cons_of_mem _ List.mem_cons_self
  have hsplits : triageRouter.Splits := .inr rfl
  have hreached : v.graph.Reached triageRouter.id := by
    have hentries : triage.entryIds = ["i"] := by cbv
    refine ⟨"i", hentries ▸ List.mem_cons_self, .single ⟨_, List.mem_cons_self, rfl, rfl⟩⟩
  have hgiven : ∀ n ∈ v.graph.nodes, ∀ field ∈ (["loopType", "joinStrategy"] : List Text),
      n.config.get field ≠ .str [] := by
    intro n hn field hfield
    simp only [v, triage, List.mem_cons, List.not_mem_nil, or_false] at hn hfield
    rcases hn with rfl | rfl | rfl <;> rcases hfield with rfl | rfl <;> rintro ⟨⟩
  have hleaves : ∀ port, triage.LeavesBy triageRouter port ↔ port = "route0" := by
    intro port
    constructor
    · rintro ⟨e, he, hsource, hport⟩
      rcases List.mem_pair.mp he with rfl | rfl
      · exact absurd hsource (by decide)
      · exact (Option.some.inj hport).symm
    · rintro rfl
      exact ⟨_, List.mem_cons_of_mem _ List.mem_cons_self, rfl, rfl⟩
  have hterminates : ∀ port, triageRouter.Terminates port ↔ port = "route1" := by
    intro port
    constructor
    · rintro ⟨items, hitems, hport⟩
      obtain rfl : [.str "route1"] = items := Value.list.inj hitems
      exact Value.str.inj (List.mem_singleton.mp hport)
    · rintro rfl
      exact ⟨_, rfl, List.mem_singleton_self _⟩
  obtain ⟨root, hroot, b, hb, hnode, -, hports, harms⟩ :=
    v.exists_arms acyclic_triage hgiven hn hsplits hreached
  refine ⟨hn, hsplits, hreached, root, hroot, b, hb, hnode, hports.trans (by decide), ?_⟩
  intro arm harm
  obtain ⟨hnoop, -, hcount⟩ := harms arm harm
  rw [hterminates, hnoop] at hcount
  rw [hleaves] at hnoop hcount
  exact ⟨hnoop, hcount⟩

end Arms

end WorkflowCompiler
