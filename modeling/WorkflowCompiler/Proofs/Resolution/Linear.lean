import Mathlib
import WorkflowCompiler.Proofs.Block.Subject
import WorkflowCompiler.Proofs.Resolution.Entered
import WorkflowCompiler.Proofs.Resolution.Formed
import WorkflowCompiler.Proofs.Resolution.Strands

/-! # No block is used twice

Every block of a node that a run makes ends up in one place: in the result of the run, or in a shared
sequence of the table. So what is owned by a workflow and by its shared sequences together is one
subject for every entered node, and a second one for every outcome that is provided for.
-/
namespace WorkflowCompiler

/-- The constructs that a node asks for: its own, and the split by its outcome if the failure is
provided for. -/
def Graph.subjects (g : Graph) (node : Node) : List Subject :=
  .node node :: if node.kind.outcomePorts?.any fun ports => g.wired node.id ports.2
    then [.outcome node] else []

/-- The constructs that the node with an id asks for. -/
def Graph.subjectsAt (g : Graph) (id : Text) : List Subject :=
  (g.node? id).toList.flatMap g.subjects

namespace Resolution
open Block

theorem ownAll_filter (bs : List Block) : ownAll (bs.filter (·.sharedKey?.isNone)) = ownAll bs := by
  induction bs with
  | nil => rfl
  | cons b rest ih =>
    cases hb : b.sharedKey? with
    | none => rw [List.filter_cons_of_pos (by simp [hb]), ownAll_cons, ownAll_cons, ih]
    | some key =>
      rw [List.filter_cons_of_neg (by simp [hb]), ownAll_cons, own_of_shared (by simp [hb]), ih,
        List.nil_append]

theorem ownAll_of_shared {bs : List Block} (h : ∀ b ∈ bs, b.sharedKey?.isSome) : ownAll bs = [] :=
  List.flatMap_eq_nil_iff.mpr fun b hb => own_of_shared (h b hb)

theorem ownAll_splice (chains : List (List Block)) :
    ownAll (splice chains) = ownAll chains.flatten := by
  obtain ⟨held, hsplice, hshared⟩ := exists_splice chains
  rw [hsplice, ownAll_append, ownAll_filter, ownAll_of_shared hshared, List.append_nil]

theorem ownAll_flatten (chains : List (List Block)) :
    ownAll chains.flatten = chains.flatMap ownAll := by
  induction chains with
  | nil => rfl
  | cons items rest ih => rw [List.flatten_cons, ownAll_append, ih, List.flatMap_cons]

theorem Laid.Joins.ownAll_content {l : Laid} (h : l.Joins) :
    ownAll l.content = l.calls.flatMap fun c => ownAll c.result := by
  have hresults : ownAll l.content = ownAll (l.calls.map (·.result)).flatten := by
    rcases h.content with hcontent | hcontent
    · rw [hcontent, ownAll_splice]
    · simp [hcontent]
  rw [hresults, ownAll_flatten, List.flatMap_map]

theorem own_plain (n : Nat) (items : List Block) :
    (Block.sequence n items none none).own = ownAll items := own_of_unshared rfl

theorem Laid.Wraps.own {l : Laid} {b : Block} (h : l.Wraps b) : b.own = ownAll l.content := by
  rcases h with ⟨hcontent, _⟩ | ⟨n, rfl, _⟩
  · simp [hcontent]
  · exact own_plain n l.content

theorem MemberBlocks.ownAll {ls : List Laid} {members : List Block} (h : MemberBlocks ls members) :
    ownAll members = ls.flatMap fun l => Block.ownAll l.content := by
  induction h with
  | nil => rfl
  | skip hcontent _ _ ih => rw [List.flatMap_cons, hcontent, ownAll_nil, List.nil_append, ih]
  | cons hw _ ih => rw [List.flatMap_cons, ownAll_cons, hw.wraps.own, ih]

theorem ownAll_routes {R : Laid → Exit × Block → Prop} (hR : ∀ l r, R l r → l.Wraps r.2)
    {ls : List Laid} {routes : List (Exit × Block)} (h : List.Forall₂ R ls routes) :
    ownAll (routes.map (·.2)) = ls.flatMap fun l => ownAll l.content := by
  induction h with
  | nil => rfl
  | cons hw _ ih => rw [List.flatMap_cons, List.map_cons, ownAll_cons, (hR _ _ hw).own, ih]

theorem ownAll_of_unshared {b : Block} (hb : b.sharedKey? = none) (rest : List Block) :
    ownAll (b :: rest) = b.subject?.toList ++ (ownAll b.children ++ ownAll rest) := by
  rw [ownAll_cons, own_of_unshared hb, List.append_assoc]

theorem Assembled.ownAll {node : Node} {heads items : List Block} {laid : List Laid}
    (h : Assembled node heads laid items) :
    ownAll items = heads.filterMap subject? ++ laid.flatMap fun l => Block.ownAll l.content := by
  cases h with
  | @step n rest _ _ =>
    rw [ownAll_of_unshared rfl]
    simp [children, subject?]
  | @sequential n inner rest _ _ _ =>
    rw [ownAll_of_unshared rfl]
    simp [children, subject?]
  | @parallel n inner members join rest _ _ hm _ _ =>
    rw [ownAll_of_unshared rfl]
    simp [children, subject?, hm.ownAll]
  | @conditional n condition onTrue onFalse a b rest _ _ ha hb _ _ _ =>
    rw [ownAll_of_unshared rfl]
    simp [children, subject?, ha.wraps.own, hb.wraps.own]
  | @outcome m n success failure onTrue onFalse a b rest _ ha hb _ _ _ =>
    rw [ownAll_of_unshared rfl, ownAll_of_unshared rfl]
    simp [children, subject?, ha.wraps.own, hb.wraps.own]
  | @switch n inner routes rest _ _ hf _ =>
    rw [ownAll_of_unshared rfl]
    simp [children, subject?, ownAll_routes (fun _ _ h => h.1.wraps) hf]
  | @loop n body kind params inner rest _ _ _ hw _ _ =>
    rw [ownAll_of_unshared rfl]
    simp [children, subject?, hw.wraps.own]

theorem Graph.subjects_container {g : Graph} {node : Node} (h : node.kind.isContainer) :
    g.subjects node = [.node node] := by
  have hnone : node.kind.outcomePorts? = none := by
    cases hk : node.kind <;> simp [NodeKind.isContainer, hk] at h <;> rfl
  simp [Graph.subjects, hnone]

theorem Entry.Of.subjects {g : Graph} {e : Entry} {c : Call} (he : e.Of (.ofGraph g) c) :
    e.heads.filterMap subject? = g.subjectsAt c.start := by
  have hnode : g.node? c.start = some e.node := he.node
  have hlength := congrArg List.length he.strands
  simp only [List.length_map, Resolution.strands, List.length_append, List.length_singleton]
    at hlength
  rw [Graph.subjectsAt, hnode, Option.toList_some, List.flatMap_singleton]
  have hassembled := he.assembled
  generalize e.heads = heads at hassembled ⊢
  generalize e.laid = laid at hassembled hlength
  generalize c.result = items at hassembled
  cases hassembled with
  | @step n rest hk _ =>
    -- a split would have had two strands more
    have hsplit : e.node.kind.outcomePorts?.any
        (fun ports => g.wired e.node.id ports.2) = false := by
      rw [limbs_step _ _ hk] at hlength
      cases hports : e.node.kind.outcomePorts? with
      | none => rfl
      | some ports =>
        simp only [hports, isEmpty_targets_ofGraph] at hlength
        cases hw : g.wired e.node.id ports.2 with
        | false => simp [hw]
        | true => simp [hw] at hlength
    simp [Graph.subjects, hsplit, subject?]
  | sequential hk _ _ | parallel hk _ _ _ _ | conditional hk _ _ _ _ _ _ | switch hk _ _ _
  | loop hk _ _ _ _ _ =>
    rw [Graph.subjects_container (by rw [hk]; rfl)]
    simp [subject?]
  | @outcome m n success failure onTrue onFalse a b rest hports _ _ _ _ _ =>
    have hwired : g.wired e.node.id failure := by
      rw [limbs_step _ _ (isContainer_of_outcomePorts hports), hports] at hlength
      simp only [isEmpty_targets_ofGraph] at hlength
      cases hw : g.wired e.node.id failure with
      | false => simp [hw] at hlength
      | true => rfl
    simp [Graph.subjects, hports, hwired, subject?, outcomePorts_ne_nil hports]

def Progress.stock (p : Progress) : Multiset Subject :=
  (p.shared.flatMap fun s => Block.ownAll s.2.children : List Subject)

/-- What a run makes goes into its result or into the table. -/
def Balanced (g : Graph) (c : Call) (p : Progress) (made : List Block) (q : Progress) : Prop :=
  (Block.ownAll c.result : Multiset Subject) + q.stock =
    p.stock + ((entered made).flatMap g.subjectsAt : List Subject)

theorem Logged.balanced {g : Graph} {active : List Text} {p q : Progress} {events : List Event}
    {made : List Block}
    (h : Logged (fun c p made q => Logs (.ofGraph g) active c p made q ∧
      (TableSound p → Balanced g c p made q)) p events made q) (hp : TableSound p) :
    ∃ inner, (entered made).Perm (entered (makesOf events) ++ inner) ∧
      ((callsOf events).flatMap fun c => Block.ownAll c.result : List Subject) + q.stock =
        p.stock + (inner.flatMap g.subjectsAt : List Subject) := by
  induction h with
  | nil => exact ⟨[], by simp, by simp⟩
  | @call p q r c events made more hc _ ih =>
    obtain ⟨inner, hperm, hrest⟩ := ih (hc.1.tabled hp).1
    refine ⟨entered made ++ inner, ?_, ?_⟩
    · rw [entered_append, makesOf_cons_call]
      exact (hperm.append_left _).trans (List.perm_append_comm_assoc _ _ _)
    · have hself : Balanced g c p made q := hc.2 hp
      rw [callsOf_cons_call, List.flatMap_cons, List.flatMap_append, ← Multiset.coe_add,
        ← Multiset.coe_add, add_assoc, hrest, ← add_assoc, hself, add_assoc]
  | @make p r b events more _ _ ih =>
    obtain ⟨inner, hperm, hrest⟩ := ih ⟨hp.nodup, hp.form, hp.closed⟩
    refine ⟨inner, ?_, hrest⟩
    rw [makesOf_cons_make, entered_cons b more, entered_cons b (makesOf events), List.append_assoc]
    exact hperm.append_left _

theorem Entry.Of.balanced {g : Graph} {e : Entry} {c : Call} (he : e.Of (.ofGraph g) c)
    {active : List Text} {p q : Progress} {made : List Block}
    (hl : Logged (fun c p made q => Logs (.ofGraph g) active c p made q ∧
      (TableSound p → Balanced g c p made q)) p e.events made q) (hp : TableSound p) :
    Balanced g c p made q := by
  obtain ⟨inner, hperm, hrest⟩ := hl.balanced hp
  have hcontent : (e.laid.flatMap fun l => Block.ownAll l.content) =
      (callsOf e.events).flatMap fun c => Block.ownAll c.result := by
    rw [he.calls, List.flatMap_assoc]
    exact List.flatMap_congr fun l hl => (he.joins l hl).ownAll_content
  have hentered : ((entered made).flatMap g.subjectsAt).Perm
      (g.subjectsAt c.start ++ inner.flatMap g.subjectsAt) := by
    have hstart := hperm.trans (he.entered_makes.append_right inner)
    simpa using hstart.flatMap_right g.subjectsAt
  rw [Balanced, he.assembled.ownAll, he.subjects, hcontent, Multiset.coe_eq_coe.mpr hentered,
    ← Multiset.coe_add, ← Multiset.coe_add, add_assoc, hrest, add_left_comm]

theorem Logs.balanced {g : Graph} (hid : [] ∉ g.merges) {active : List Text} {c : Call}
    {p q : Progress} {made : List Block} (h : Logs (.ofGraph g) active c p made q) :
    TableSound p → Balanced g c p made q := by
  refine Logs.induction (motive := fun _ c p made q => TableSound p → Balanced g c p made q) ?_ h
  intro active c p made q hs hp
  have hne : ∀ id, (Facts.ofGraph g).isMerge id → id ≠ [] := by
    rintro id hmerge rfl
    exact hid (by simpa [Facts.isMerge, Facts.ofGraph] using hmerge)
  cases hs with
  | stopped _ => simp [Balanced]
  | @known owner stop id b _ _ hmerge _ hlookup =>
    obtain ⟨n, items, hb⟩ := hp.form _ (mem_of_lookup hlookup)
    have hshared : b.sharedKey?.isSome := by
      simp only at hb
      simp [hb, sharedKey?, hne id hmerge]
    simp [Balanced, own_of_shared hshared]
  | @fresh owner stop id items _ r made e _ _ hmerge _ _ he hl =>
    have hitems := he.balanced hl ⟨hp.nodup, hp.form, hp.closed⟩
    have hshared : (Block.sequence r.next items none (some id)).sharedKey?.isSome := by
      simp [sharedKey?, hne id hmerge]
    have hstock : (r.share id items).stock = (Block.ownAll items : Multiset Subject) + r.stock := by
      simp [Progress.stock, Progress.share, children]
    have hlog : entered (made ++ [.sequence r.next items none (some id)]) = entered made := by simp
    rw [Balanced, hstock, hlog, ownAll_cons, own_of_shared hshared, ownAll_nil, List.append_nil,
      Multiset.coe_nil, zero_add]
    exact hitems
  | entered e _ _ _ he hl => exact he.balanced hl hp

theorem Logs.isMerge_keys {facts : Facts} {active : List Text} {c : Call} {p q : Progress}
    {made : List Block} (h : Logs facts active c p made q) :
    (∀ s ∈ p.shared, facts.isMerge s.1) → ∀ s ∈ q.shared, facts.isMerge s.1 := by
  refine Logs.induction (motive := fun _ _ p _ q =>
    (∀ s ∈ p.shared, facts.isMerge s.1) → ∀ s ∈ q.shared, facts.isMerge s.1) ?_ h
  intro active c p made q hs hp
  have hentry : ∀ {active p events made q}, Logged (fun c p made q =>
      Logs facts active c p made q ∧
        ((∀ s ∈ p.shared, facts.isMerge s.1) → ∀ s ∈ q.shared, facts.isMerge s.1))
        p events made q →
      (∀ s ∈ p.shared, facts.isMerge s.1) → ∀ s ∈ q.shared, facts.isMerge s.1 := fun hl hp =>
    (hl.keep (P := fun _ => True) (fun hc hp => ⟨hc.2 hp, trivial⟩) (fun _ hp => hp) hp).1
  cases hs with
  | stopped _ => exact hp
  | known _ _ _ _ => exact hp
  | fresh e _ _ hmerge _ _ _ hl =>
    intro s hs
    rcases List.mem_cons.mp hs with rfl | hs
    · exact hmerge
    · exact hentry hl hp s hs
  | entered e _ _ _ _ hl => exact hentry hl hp

section Root
variable {g : Graph} {root : Block} {l : Laid} {made : List Block} {q : Progress}

theorem RootLog.keyed (hid : [] ∉ g.merges) (h : RootLog g root l made q) : Keyed q.shared := by
  obtain ⟨hq, _, _⟩ := (h.logged.mono fun hc => hc.tabled).tabled tableSound_start
  have hmerge := (h.logged.keep (I := fun p => ∀ s ∈ p.shared, (Facts.ofGraph g).isMerge s.1)
    (P := fun _ => True) (fun hc hp => ⟨hc.isMerge_keys hp, trivial⟩) (fun _ hp => hp) (by simp)).1
  refine ⟨hq.nodup, ?_⟩
  intro s hs
  obtain ⟨n, items, hform⟩ := hq.form s hs
  have hne : s.1 ≠ [] := by
    intro hnil
    have hs' := hmerge s hs
    rw [hnil] at hs'
    exact hid (List.contains_iff_mem.mp hs')
  simp [hform, sharedKey?, hne]

theorem RootLog.shared_within (hid : [] ∉ g.merges) (h : RootLog g root l made q)
    {s : Text × Block} (hs : s ∈ q.shared) : ∃ b ∈ l.content, s.2.Within b := by
  have hmade : s.2 ∈ made := (h.accounts.table s hs).resolve_left List.not_mem_nil
  have hw : s.2.Within root := h.within_iff.mpr (List.mem_append_left _ hmade)
  rcases Block.within_iff.mp hw with heq | hw
  · have hkey := (h.keyed hid).shared s hs
    rw [heq, h.root] at hkey
    cases hkey
  · rwa [h.root] at hw

/-- What is to be stated for a workflow: what the nodes ask for that were entered. -/
theorem RootLog.work_perm (hid : [] ∉ g.merges) (h : RootLog g root l made q) :
    (work q.shared [] l.content).Perm ((entered made).flatMap g.subjectsAt) := by
  obtain ⟨inner, hperm, hbalance⟩ :=
    (h.logged.mono fun hc => ⟨hc, hc.balanced hid⟩).balanced tableSound_start
  have hpending : (pending q.shared [] l.content).Perm q.shared := by
    have hkeyed := h.keyed hid
    refine (List.perm_ext_iff_of_nodup hkeyed.pending_nodup (hkeyed.nodup.of_map _)).mpr ?_
    intro s
    rw [mem_pending]
    exact ⟨fun hs => hs.1, fun hs => ⟨hs, List.not_mem_nil, h.shared_within hid hs⟩⟩
  have hinner : (entered made).Perm inner := by simpa [makesOf_calls] using hperm
  rw [callsOf_calls, ← h.joins.ownAll_content] at hbalance
  refine Multiset.coe_eq_coe.mp ?_
  rw [work, ← Multiset.coe_add, Multiset.coe_eq_coe.mpr (hpending.flatMap_right _),
    Multiset.coe_eq_coe.mpr (hinner.flatMap_right _)]
  simpa [Progress.stock] using hbalance

end Root

end Resolution

end WorkflowCompiler
