import Mathlib
import WorkflowCompiler.Proofs.Resolution.Arms
import WorkflowCompiler.Proofs.Resolution.Entered

/-! # How often a node is resolved

A merge point is resolved once. Any other node is resolved as often as the nodes from which arms
lead to it around itself. So every node that can be reached is resolved exactly once, unless several
arms lead to the head of a loop that is not a merge point.
-/
namespace WorkflowCompiler

def Block.mainCount (root : Block) (id : Text) : Nat := (root.walk.filterMap mainId?).count id

namespace Resolution

section Upper
variable {g : Graph} {id : Text}

/-- Chains at a node are begun by a single arm of one node, or by none. -/
def BegunBy (g : Graph) (id : Text) (source : Option Text) : Prop :=
  ∀ node, g.node? node.id = some node → g.ReachedAround id node.id → ∀ owner stop,
    ((strands (.ofGraph g) owner stop node).flatMap (·.starts)).count id ≤
      [node.id].countP (some · == source)

/-- A bound on how often a chain enters a node, by how often it enters the one before. -/
def BoundedBy (id : Text) (source : Option Text) (c : Call) (made : List Block) : Prop :=
  (entered made).count id ≤ [c.start].count id + (entered made).countP (some · == source)

theorem Logged.bounded {logs : Logging} {source : Option Text}
    (hcall : ∀ {c p made q}, logs c p made q → BoundedBy id source c made) {p q : Progress}
    {events : List Event} {made : List Block} (h : Logged logs p events made q) :
    (entered made).count id + (entered (makesOf events)).countP (some · == source) ≤
      (entered (makesOf events)).count id + ((callsOf events).map (·.start)).count id +
        (entered made).countP (some · == source) := by
  induction h with
  | nil => simp
  | @call p q r c events made more hc _ ih =>
    have hc := hcall hc
    unfold BoundedBy at hc
    have hstart : ((c :: callsOf events).map (·.start)).count id =
        [c.start].count id + ((callsOf events).map (·.start)).count id := by
      rw [← List.count_append]
      rfl
    rw [entered_append, List.count_append, List.countP_append, callsOf_cons_call,
      makesOf_cons_call, hstart]
    omega
  | @make p r b events more _ _ ih =>
    have hsource : ∀ rest : List Block, (entered (b :: rest)).countP (some · == source) =
        (entered [b]).countP (some · == source) + (entered rest).countP (some · == source) := by
      intro rest
      rw [entered_cons, List.countP_append]
    rw [makesOf_cons_make, callsOf_cons_make, count_entered_cons,
      count_entered_cons b (makesOf events), hsource more, hsource (makesOf events)]
    omega

theorem Logs.count_active {active : List Text} {c : Call} {p q : Progress} {made : List Block}
    (h : Logs (.ofGraph g) active c p made q) (hid : id ∈ active) : (entered made).count id = 0 :=
  List.count_eq_zero.mpr fun hmem => (h.entered_spec id hmem).1 hid

/-- The chain of an entry is bounded when the chains are that it resolves. -/
theorem Entry.Of.bounded {source : Option Text} (hb : BegunBy g id source) {active : List Text}
    {c : Call} (hc : Context g active c) {e : Entry} {owner : Option Text} {items : List Block}
    (he : e.Of (.ofGraph g) ⟨owner, c.stop, c.start, items⟩) {p q : Progress} {made : List Block}
    (hl : Logged (fun c' p made q => Logs (.ofGraph g) (c.start :: active) c' p made q ∧
      BoundedBy id source c' made) p e.events made q) : BoundedBy id source c made := by
  have hmakes := he.entered_makes
  unfold BoundedBy
  by_cases hid : id ∈ c.start :: active
  · -- the chains behind the node do not come back to what is active
    have hcount := hl.count_entered (fun _ => 0) (fun hc => hc.1.count_active hid) fun _ => rfl
    rw [hmakes.count_eq] at hcount
    simp only [Nat.add_zero] at hcount
    rw [hcount]
    exact Nat.le_add_right _ _
  · obtain ⟨hne, hnot⟩ := not_or.mp (mt List.mem_cons.mpr hid)
    have hbound := hl.bounded fun hc => hc.2
    rw [hmakes.count_eq, hmakes.countP_eq, he.starts] at hbound
    have hnode : g.node? e.node.id = some e.node := he.node_id ▸ he.node
    have hbegun := hb e.node hnode (he.node_id ▸ hc.around id hnot hne) owner c.stop
    rw [he.node_id] at hbegun
    dsimp only at hbound hbegun
    have hzero : [c.start].count id = 0 := by
      rw [List.count_eq_zero, List.mem_singleton]
      exact hne
    omega

/-- A chain enters a node that is no merge point as often as it enters the node before it. -/
theorem Logs.bounded {source : Option Text} (hb : BegunBy g id source)
    {active : List Text} {c : Call} {p q : Progress} {made : List Block}
    (h : Logs (.ofGraph g) active c p made q) (hc : Context g active c) :
    BoundedBy id source c made := by
  refine Logs.induction_context (motive := fun _ c _ made _ => BoundedBy id source c made) ?_ h hc
  intro active c p made q hc hs
  cases hs with
  | stopped _ => simp [BoundedBy]
  | known _ _ _ _ => simp [BoundedBy]
  | fresh e _ _ _ _ _ he hl =>
    have := he.bounded hb hc (hl.mono fun h => ⟨h.1, h.2.2⟩)
    simpa [BoundedBy] using this
  | entered e _ _ _ he hl => exact he.bounded hb hc (hl.mono fun h => ⟨h.1, h.2.2⟩)

end Upper

section Lower
variable {g : Graph}

theorem Logs.inOwnBody {active : List Text} {c : Call} {p q : Progress} {made : List Block}
    (h : Logs (.ofGraph g) active c p made q) (hc : Context g active c) {head : Text}
    (hhead : head ∈ c.stop) : ∀ x ∈ entered made, g.InOwnBody head x := by
  refine Logs.induction_context (motive := fun _ c _ made _ =>
    head ∈ c.stop → ∀ x ∈ entered made, g.InOwnBody head x) ?_ h hc hhead
  intro active c p made q hc hs hhead
  have hentry : ∀ {e : Entry} {owner items p made q}, c.start ∉ active →
      e.Of (.ofGraph g) ⟨owner, c.stop, c.start, items⟩ →
      Logged (fun c' p made q => Logs (.ofGraph g) (c.start :: active) c' p made q ∧
        Context g (c.start :: active) c' ∧
        (head ∈ c'.stop → ∀ x ∈ entered made, g.InOwnBody head x)) p e.events made q →
      ∀ x ∈ entered made, g.InOwnBody head x := by
    intro e owner items p made q hactive he hl x hx
    rcases he.mem_entered hl hx with rfl | ⟨c', hc', p', made', q', hlog, hx⟩
    · exact (hc.inside head hhead).2 hactive
    · refine hlog.2.2 ?_ x hx
      obtain ⟨s, hs, _, _, hstop⟩ := he.call_strand hc'
      rw [hstop]
      rcases (strand_context hs).2 with hsame | ⟨hmore, _⟩
      · exact hsame ▸ hhead
      · exact hmore ▸ List.mem_cons_of_mem _ hhead
  cases hs with
  | stopped _ => simp
  | known _ _ _ _ => simp
  | fresh e _ hactive _ _ _ he hl => simpa using hentry hactive he hl
  | entered e _ hactive _ he hl => exact hentry hactive he hl

def Call.begins (id : Text) (c : Call) : Bool := c.start == id && !c.stop.contains id

/-- A chain enters a node at least as often as it enters two sources of arms to it. -/
def Exceeds (id a b : Text) (c : Call) (made : List Block) : Prop :=
  (entered made).count a + (entered made).count b + [c].countP (Call.begins id) ≤
    (entered made).count id

theorem Logged.exceeds {logs : Logging} {id a b : Text}
    (hcall : ∀ {c p made q}, logs c p made q → Exceeds id a b c made) {p q : Progress}
    {events : List Event} {made : List Block} (h : Logged logs p events made q) :
    (entered made).count a + (entered made).count b + (callsOf events).countP (Call.begins id) +
        (entered (makesOf events)).count id ≤
      (entered made).count id + (entered (makesOf events)).count a +
        (entered (makesOf events)).count b := by
  induction h with
  | nil => simp
  | @call p q r c events made more hc _ ih =>
    have hc := hcall hc
    unfold Exceeds at hc
    have hstart : (c :: callsOf events).countP (Call.begins id) =
        [c].countP (Call.begins id) + (callsOf events).countP (Call.begins id) := by
      rw [← List.countP_append]
      rfl
    simp only [entered_append, List.count_append, callsOf_cons_call, makesOf_cons_call, hstart]
    omega
  | @make p r x events more _ _ ih =>
    simp only [makesOf_cons_make, callsOf_cons_make, count_entered_cons x more,
      count_entered_cons x (makesOf events)]
    omega

/-- An entry of a source begins as many chains at the node as it has arms there. -/
theorem Entry.Of.count_begins (hg : g.Sound) {e : Entry} {c : Call} (he : e.Of (.ofGraph g) c)
    {x y : Edge} (hx : x ∈ g.edges) (hy : y ∈ g.edges) (ht : y.target = x.target)
    (harm : g.arm x ≠ g.arm y) (hxs : x.source ≠ x.target) (hys : y.source ≠ x.target)
    (hstop : x.target ∉ c.stop) :
    [c.start].count x.source + [c.start].count y.source ≤
      (callsOf e.events).countP (Call.begins x.target) := by
  by_cases hid : c.start = x.target
  · have hzero : ∀ s, s ≠ x.target → [c.start].count s = 0 := by
      intro s hs
      rw [List.count_eq_zero, List.mem_singleton, hid]
      exact hs
    rw [hzero _ hxs, hzero _ hys]
    exact Nat.zero_le _
  have hbegins : (callsOf e.events).countP (Call.begins x.target) =
      ((Resolution.strands (.ofGraph g) c.owner c.stop e.node).flatMap (·.starts)).count
        x.target := by
    rw [← he.starts, List.count, List.countP_map]
    apply List.countP_congr
    intro c' hc'
    obtain ⟨s, hs, _, _, hs'⟩ := he.call_strand hc'
    have hnot : x.target ∉ c'.stop := by
      rw [hs']
      rcases (strand_context hs).2 with hsame | ⟨hmore, _⟩
      · rwa [hsame]
      · rw [hmore, he.node_id, List.mem_cons, not_or]
        exact ⟨fun h => hid h.symm, hstop⟩
    simp [Call.begins, hnot]
  have hnode : g.node? e.node.id = some e.node := he.node_id ▸ he.node
  have hnid := he.node_id
  rw [hbegins]
  simp only [List.count_singleton, beq_iff_eq]
  split
  next hsx =>
    split
    next hsy =>
      exact two_le_count_starts hg hnode hx hy (by rw [hnid, hsx]) (by rw [hnid, hsy]) ht harm _ _
    next =>
      exact count_starts_pos hg hnode ⟨x, hx, by rw [hnid, hsx], rfl⟩ _ _
  next =>
    split
    next hsy => exact count_starts_pos hg hnode ⟨y, hy, by rw [hnid, hsy], ht⟩ _ _
    next => exact Nat.zero_le _

/-- Two arms that lead to a node from outside its own body. -/
structure TwoArms (g : Graph) (x y : Edge) : Prop where
  left : x ∈ g.edges
  right : y ∈ g.edges
  meet : y.target = x.target
  arms : g.arm x ≠ g.arm y
  unmerged : x.target ∉ g.merges
  outside : ∀ e ∈ [x, y], e.source ≠ x.target ∧ ¬ g.InOwnBody x.target e.source

theorem exceeds_of_stop {x y : Edge} (ha : TwoArms g x y) {active : List Text} {c : Call}
    {p q : Progress} {made : List Block} (h : Logs (.ofGraph g) active c p made q)
    (hc : Context g active c) (hstop : x.target ∈ c.stop) :
    Exceeds x.target x.source y.source c made := by
  have hzero : ∀ e ∈ [x, y], (entered made).count e.source = 0 := by
    intro e he
    rw [List.count_eq_zero]
    exact fun hmem => (ha.outside e he).2 (h.inOwnBody hc hstop _ hmem)
  have hnone : [c].countP (Call.begins x.target) = 0 := by
    simp [Call.begins, hstop]
  unfold Exceeds
  rw [hzero x (by simp), hzero y (by simp), hnone]
  exact Nat.zero_le _

theorem Logs.exceeds (hg : g.Sound) {x y : Edge} (ha : TwoArms g x y) {active : List Text}
    {c : Call} {p q : Progress} {made : List Block} (h : Logs (.ofGraph g) active c p made q)
    (hc : Context g active c) : Exceeds x.target x.source y.source c made := by
  by_cases hstop : x.target ∈ c.stop
  · exact exceeds_of_stop ha h hc hstop
  refine Logs.induction_context (motive := fun _ c _ made _ =>
    x.target ∉ c.stop → Exceeds x.target x.source y.source c made) ?_ h hc hstop
  intro active c p made q hc hs hstop
  have hentry : ∀ {e : Entry} {owner items p made q},
      e.Of (.ofGraph g) ⟨owner, c.stop, c.start, items⟩ →
      Logged (fun c' p made q => Logs (.ofGraph g) (c.start :: active) c' p made q ∧
        Context g (c.start :: active) c' ∧
        (x.target ∉ c'.stop → Exceeds x.target x.source y.source c' made)) p e.events made q →
      Exceeds x.target x.source y.source c made := by
    intro e owner items p made q he hl
    have hcalls : Logged (fun c' _ made _ => Exceeds x.target x.source y.source c' made)
        p e.events made q := by
      refine hl.mono fun {c' p' made' q'} hlog => ?_
      by_cases hstop' : x.target ∈ c'.stop
      · exact exceeds_of_stop ha hlog.1 hlog.2.1 hstop'
      · exact hlog.2.2 hstop'
    have hsum := hcalls.exceeds fun hc => hc
    have hbegins := he.count_begins hg ha.left ha.right ha.meet ha.arms
      (ha.outside x (by simp)).1 (ha.outside y (by simp)).1 hstop
    have hmakes := he.entered_makes
    rw [hmakes.count_eq, hmakes.count_eq, hmakes.count_eq] at hsum
    have hself : [c].countP (Call.begins x.target) = [c.start].count x.target := by
      simp [Call.begins, hstop, List.count, List.countP_singleton]
    unfold Exceeds
    dsimp only at hsum hbegins
    omega
  have hmerge : (Facts.ofGraph g).isMerge c.start → [c].countP (Call.begins x.target) = 0 := by
    intro hm
    have hne : c.start ≠ x.target := by
      intro heq
      exact ha.unmerged (heq ▸ List.contains_iff_mem.mp hm)
    simp [Call.begins, hne]
  cases hs with
  | @stopped owner stop start p hmem =>
    have hne : start ≠ x.target := fun heq => hstop (heq ▸ hmem)
    simp [Exceeds, Call.begins, hne]
  | known _ hm _ _ => simp [Exceeds, hmerge hm]
  | fresh e _ _ _ _ _ he hl => simpa [Exceeds] using hentry he hl
  | entered e _ _ _ he hl => exact hentry he hl

end Lower

section Root
variable {g : Graph} {root : Block} {l : Laid} {made : List Block} {q : Progress}

theorem RootLog.mainCount_eq (h : RootLog g root l made q) (id : Text) :
    root.mainCount id = (entered made).count id := by
  have hperm := (h.walk_perm.filterMap Block.mainId?).count_eq id
  have hroot : entered [root] = [] := by
    rw [h.root, entered_sequence]
  change root.mainCount id = (entered (made ++ [root])).count id at hperm
  rw [hperm, entered_append, hroot, List.append_nil]

theorem RootLog.mem_entered_iff (hg : g.Sound) (h : RootLog g root l made q) {id : Text} :
    id ∈ entered made ↔ g.Reached id := by
  constructor
  · intro hid
    obtain ⟨b, hb, hmain⟩ := List.mem_filterMap.mp hid
    rcases h.logged.mem_made hb with hb | ⟨c, hc, p', made', q', hlog, hb⟩
    · simp [makesOf_calls] at hb
    · rw [callsOf_calls] at hc
      refine ⟨c.start, h.starts ▸ List.mem_map_of_mem hc, ?_⟩
      exact (hlog.entered_spec id (List.mem_filterMap.mpr ⟨b, hb, hmain⟩)).2
  · rintro ⟨s, hs, hp⟩
    have hc := (h.logged.mono fun hlog => hlog.complete hg).complete
    -- nothing is in the table before the run, and no loop is around it
    have hprovided : ∀ c ∈ l.calls, ∀ x, Provided {} made c.stop x → x ∈ entered made := by
      rintro c hc x (hx | hx | hx)
      · rw [(h.joins.context c hc).2, h.strand] at hx
        exact absurd hx List.not_mem_nil
      · exact absurd hx List.not_mem_nil
      · exact hx
    induction hp with
    | refl =>
      rw [← h.starts] at hs
      obtain ⟨c, hmem, rfl⟩ := List.mem_map.mp hs
      exact hprovided c hmem _ (hc.starts c (by rwa [callsOf_calls]))
    | tail _ hl ih =>
      rcases hc.next _ ih with hm | ⟨c, hmem, hnext⟩
      · simp [makesOf_calls] at hm
      · exact hprovided c (by rwa [callsOf_calls] at hmem) _ (hnext _ hl)

theorem RootLog.count_merge_le (h : RootLog g root l made q) {id : Text} (hid : id ∈ g.merges) :
    (entered made).count id ≤ 1 := by
  have hmerge : (Facts.ofGraph g).isMerge id := List.contains_iff_mem.mpr hid
  have hcount := h.logged_context.count_entered (fun p => p.keys.count id)
    (fun hc => hc.1.count_merge hc.2 hmerge) fun _ => rfl
  obtain ⟨hq, _, _⟩ := (h.logged.mono fun hc => hc.tabled).tabled tableSound_start
  have hnodup := List.nodup_iff_count_le_one.mp hq.nodup id
  rw [makesOf_calls] at hcount
  simp only [Progress.keys, List.map_nil, List.count_nil, entered_nil] at hcount
  omega

theorem RootLog.count_le (h : RootLog g root l made q) {id : Text} {source : Option Text}
    (hb : BegunBy g id source) : (entered made).count id ≤
      g.entryIds.count id + (entered made).countP (some · == source) := by
  have hbound := h.logged_context.bounded fun hc => hc.1.bounded hb hc.2
  rw [makesOf_calls, callsOf_calls, h.starts] at hbound
  simp only [entered_nil, List.countP_nil, List.count_nil] at hbound
  omega

theorem count_starts_eq_zero {id : Text} {node : Node} (hnode : g.node? node.id = some node)
    (h : ∀ e ∈ g.edges, e.source = node.id → e.target ≠ id) (owner : Option Text)
    (stop : List Text) :
    ((strands (.ofGraph g) owner stop node).flatMap (·.starts)).count id = 0 := by
  rw [List.count_eq_zero]
  intro hmem
  obtain ⟨s, hs, hstart⟩ := List.mem_flatMap.mp hmem
  obtain ⟨e, he, hsource, htarget, _⟩ := exists_edge_of_mem_strands hnode hs hstart
  exact h e he hsource htarget

theorem begunBy_entry (hg : g.Sound) {id : Text} (hid : id ∈ g.entryIds) : BegunBy g id none := by
  intro node hnode _ owner stop
  rw [count_starts_eq_zero hnode]
  · exact Nat.zero_le _
  · rintro e he _ rfl
    exact hg.not_enters_entry he hid

/-- A node that is neither a merge point nor a hidden one is begun by one arm. -/
theorem begunBy_edge {id : Text} (hmerge : id ∉ g.merges) (hhidden : ¬ g.HiddenMerge id) {e : Edge}
    (he : e ∈ g.edges) (ht : e.target = id) (hs : g.ReachedAround id e.source) :
    BegunBy g id (some e.source) := by
  have hsame : ∀ x ∈ g.edges, x.target = id → g.ReachedAround id x.source → g.arm x = g.arm e := by
    intro x hx hxt hxs
    by_contra hne
    exact hhidden ⟨hmerge, x, hx, e, he, hxt, ht, hne, hxs, hs⟩
  intro node hnode haround owner stop
  by_cases hid : node.id = e.source
  · rw [hid, List.countP_singleton, if_pos (by simp)]
    refine count_starts_le_one hnode ?_ owner stop
    intro x hx x' hx' hxs hxs' hxt hxt'
    rw [hsame x hx hxt (hxs ▸ haround), hsame x' hx' hxt' (hxs' ▸ haround)]
  · rw [count_starts_eq_zero hnode]
    · exact Nat.zero_le _
    · intro x hx hxs hxt
      have harm := hsame x hx hxt (hxs ▸ haround)
      exact hid (hxs ▸ congrArg Prod.fst harm)

/-- Behind every node that is entered twice there is a hidden merge point that is entered twice. The
induction is on the number of edges that lead to the node. -/
theorem RootLog.exists_hiddenMerge (hg : g.Sound) (h : RootLog g root l made q) {n : Nat} {id : Text}
    (hn : g.ReachedIn n id) (htwo : 2 ≤ (entered made).count id) :
    ∃ head, g.HiddenMerge head ∧ 2 ≤ (entered made).count head ∧
      Graph.Reaches g.edges head id := by
  induction n using Nat.strong_induction_on generalizing id with
  | h n ih =>
    by_cases hshort : ∃ k < n, g.ReachedIn k id
    · obtain ⟨k, hk, hreach⟩ := hshort
      exact ih k hk hreach htwo
    by_cases hhidden : g.HiddenMerge id
    · exact ⟨id, hhidden, htwo, .refl⟩
    have hmerge : id ∉ g.merges := by
      intro hmem
      have := h.count_merge_le hmem
      omega
    cases hn with
    | entry hid =>
      have hle := h.count_le (begunBy_entry hg hid)
      have hone := List.nodup_iff_count_le_one.mp g.entryIds_nodup id
      simp at hle
      omega
    | @step n a _ ha hl =>
      obtain ⟨e, he, rfl, rfl⟩ := hl
      have haround : g.ReachedAround e.target e.source :=
        ha.around fun k hk hreach => hshort ⟨k, by omega, hreach⟩
      have hle := h.count_le (begunBy_edge hmerge hhidden he rfl haround)
      have hzero : g.entryIds.count e.target = 0 :=
        List.count_eq_zero.mpr (hg.not_enters_entry he)
      have hcount : (entered made).countP (some · == some e.source) =
          (entered made).count e.source := by
        simp [List.count]
      obtain ⟨head, hhead, htwo', hreach⟩ := ih n (by omega) ha (by omega)
      exact ⟨head, hhead, htwo', hreach.tail ⟨e, he, rfl, rfl⟩⟩

/-- The head of a loop that two arms lead to from outside its own body is entered twice. -/
theorem RootLog.two_le_count (hg : g.Sound) (h : RootLog g root l made q) {head : Text}
    (hsplit : g.SplitEntry head) : 2 ≤ (entered made).count head := by
  obtain ⟨hmerge, x, hx, y, hy, rfl, ht, harm, hout⟩ := hsplit
  have ha : TwoArms g x y := ⟨hx, hy, ht, harm, hmerge, fun e he => (hout e he).2⟩
  have hsum := h.logged_context.exceeds fun hc => hc.1.exceeds hg ha hc.2
  rw [makesOf_calls] at hsum
  have hpos : ∀ e ∈ [x, y], 1 ≤ (entered made).count e.source := fun e he =>
    List.count_pos_iff.mpr ((h.mem_entered_iff hg).mpr (hout e he).1)
  have hpx := hpos x (by simp)
  have hpy := hpos y (by simp)
  simp only [entered_nil, List.count_nil] at hsum
  omega

end Root

/-- Every node that can be reached has a main block in a workflow, and only such nodes have one. A
node with two of them lies behind a loop with two, whose head several arms lead to although it is no
merge point. A loop has two as soon as two of the arms come from outside its own body; so where own
bodies are entered through their heads only, every node has one main block just when there is no such
loop. -/
theorem mainCount_resolve (v : Validated) {root : Block} (h : (resolve v).block = .ok root) :
    (∀ id, 1 ≤ root.mainCount id ↔ v.graph.Reached id) ∧
    (∀ id, 2 ≤ root.mainCount id → ∃ head node, v.graph.HiddenMerge head ∧
      v.graph.node? head = some node ∧ node.kind = .loop ∧ 2 ≤ root.mainCount head ∧
      Graph.Reaches v.graph.edges head id) ∧
    (∀ head, v.graph.SplitEntry head → 2 ≤ root.mainCount head) ∧
    ((∀ id, v.graph.Reached id → root.mainCount id = 1) ↔
      ∀ head, v.graph.HiddenMerge head → root.mainCount head = 1) ∧
    ((∀ head id, v.graph.InOwnBody head id → ¬ v.graph.ReachedAround head id) →
      ((∀ id, v.graph.Reached id → root.mainCount id = 1) ↔
        ∀ head, ¬ v.graph.HiddenMerge head)) := by
  obtain ⟨l, made, q, hlog⟩ := exists_rootLog h
  have hg := v.sound
  have hone : ∀ id, 1 ≤ root.mainCount id ↔ v.graph.Reached id := by
    intro id
    rw [hlog.mainCount_eq, ← hlog.mem_entered_iff hg]
    exact List.count_pos_iff
  have htwo : ∀ id, 2 ≤ root.mainCount id → ∃ head, v.graph.HiddenMerge head ∧
      2 ≤ root.mainCount head ∧ Graph.Reaches v.graph.edges head id := by
    intro id hid
    obtain ⟨n, hn⟩ := ((hone id).mp (by omega)).exists_in
    simp only [hlog.mainCount_eq] at hid ⊢
    exact hlog.exists_hiddenMerge hg hn hid
  have hsplit : ∀ head, v.graph.SplitEntry head → 2 ≤ root.mainCount head := by
    intro head hhead
    rw [hlog.mainCount_eq]
    exact hlog.two_le_count hg hhead
  have hall : (∀ id, v.graph.Reached id → root.mainCount id = 1) ↔
      ∀ head, v.graph.HiddenMerge head → root.mainCount head = 1 := by
    refine ⟨fun hall head hhead => hall head hhead.reached, fun hall id hid => ?_⟩
    have hpos := (hone id).mpr hid
    by_contra hne
    obtain ⟨head, hhidden, hcount, _⟩ := htwo id (by omega)
    have := hall head hhidden
    omega
  refine ⟨hone, ?_, hsplit, hall, ?_⟩
  · intro id hid
    obtain ⟨head, hhidden, hcount, hreach⟩ := htwo id hid
    obtain ⟨node, hnode, hkind⟩ := hhidden.isLoop hg
    exact ⟨head, node, hhidden, hnode, hkind, hcount, hreach⟩
  · intro hbody
    rw [hall]
    refine ⟨fun hall head hhead => ?_, fun hnone head hhead => absurd hhead (hnone head)⟩
    have hcount := hsplit head (hhead.split (hbody head))
    have := hall head hhead
    omega

/-- A loop that goes straight back to the loop around it. Both ways into it count as ways back. -/
def returningLoop : Graph where
  nodes := [⟨"i", .input, [], none⟩, ⟨"a", .loop, [("loopCount", .int 2)], none⟩,
    ⟨"p", .debug, [], none⟩, ⟨"b", .loop, [("loopCount", .int 2)], none⟩]
  edges := [⟨"e1", "i", "a", none, none⟩, ⟨"e2", "a", "b", some "loop", none⟩,
    ⟨"e3", "a", "p", some "loop", none⟩, ⟨"e4", "p", "b", none, none⟩,
    ⟨"e5", "b", "a", some "loop", none⟩]

theorem validate_returningLoop : validate returningLoop = .ok [] :=
  Validation.validate_eq_nil rfl rfl rfl (by cbv) (by cbv) rfl

/-- The block of the inner loop, which has nothing in its body. -/
def innerLoop (n : Nat) : Block :=
  .loop (n + 1) ⟨"b", .loop, [("loopCount", .int 2)], none⟩ (.sequence n [] none none) .fixedCount
    [("count", .int 2)]

def returningBlock : Block :=
  .sequence 9 [.leaf 1 ⟨"i", .input, [], none⟩,
    .loop 8 ⟨"a", .loop, [("loopCount", .int 2)], none⟩
      (.sequence 7 [innerLoop 2, .leaf 4 ⟨"p", .debug, [], none⟩, innerLoop 5] none none)
      .fixedCount [("count", .int 2)]] none none

/-- The inner loop is resolved for both of its producers, so some hidden merge point is. -/
theorem mainCount_returningLoop :
    (resolve ⟨returningLoop, [], validate_returningLoop, rfl⟩).block = .ok returningBlock ∧
    returningBlock.mainCount "b" = 2 ∧
    ∃ head node, returningLoop.HiddenMerge head ∧ returningLoop.node? head = some node ∧
      node.kind = .loop ∧ 2 ≤ returningBlock.mainCount head ∧
      Graph.Reaches returningLoop.edges head "b" := by
  have hresolve : (resolve ⟨returningLoop, [], validate_returningLoop, rfl⟩).block =
      .ok returningBlock := by
    cbv
  have hcount : returningBlock.mainCount "b" = 2 := by cbv
  exact ⟨hresolve, hcount, (mainCount_resolve _ hresolve).2.1 "b" hcount.ge⟩

end Resolution

end WorkflowCompiler
