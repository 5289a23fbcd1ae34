import Mathlib
import WorkflowCompiler.Proofs.Graph.Paths
import WorkflowCompiler.Proofs.Resolution.Assembly
import WorkflowCompiler.Proofs.Resolution.Strands

/-! # Guards

The arms around a step are those through which some path leads to it. This holds of a chain wherever
it stands: what a shared sequence holds is reached from its merge point, whichever producer was come
upon first.
-/
namespace WorkflowCompiler

namespace Graph

/-- Some path leads from a node to another one through a list of guarded arms. -/
def LeadsThrough (g : Graph) (a : Text) (arms : List Guard) (b : Text) : Prop :=
  ∃ path, g.IsPath a path b ∧ path.filterMap g.guard? = arms

theorem LeadsThrough.refl {g : Graph} (a : Text) : g.LeadsThrough a [] a := ⟨[], rfl, rfl⟩

theorem LeadsThrough.head {g : Graph} {e : Edge} {arms : List Guard} {b : Text} (he : e ∈ g.edges)
    (h : g.LeadsThrough e.target arms b) :
    g.LeadsThrough e.source ((g.guard? e).toList ++ arms) b := by
  obtain ⟨path, hpath, rfl⟩ := h
  refine ⟨e :: path, ⟨he, rfl, hpath⟩, ?_⟩
  cases hguard : g.guard? e <;> simp [hguard]

end Graph

namespace Resolution
open Block

section Occurrences
variable {arms : List Guard} {x : Text}

theorem Laid.Wraps.occurs_iff {l : Laid} {b : Block} (h : l.Wraps b) :
    b.Occurs arms x ↔ OccursIn l.content arms x := by
  rcases h with ⟨hcontent, _⟩ | ⟨n, rfl, _⟩
  · simp [hcontent]
  · exact occurs_plain

theorem MemberBlocks.occursIn_iff {ls : List Laid} {bs : List Block} (h : MemberBlocks ls bs) :
    OccursIn bs arms x ↔ ∃ l ∈ ls, OccursIn l.content arms x := by
  induction h with
  | nil => simp
  | skip hcontent _ _ ih => simp [ih, hcontent]
  | cons hw _ ih => simp [ih, hw.wraps.occurs_iff]

theorem exists_route_iff {node : Node} {ls : List Laid} {routes : List (Exit × Block)}
    (h : List.Forall₂ (fun l r => l.WrapsArm r.2 ∧ l.strand.guards = [(node.id, r.1.port)])
      ls routes) :
    (∃ r ∈ routes, ∃ rest, arms = (node.id, r.1.port) :: rest ∧ r.2.Occurs rest x) ↔
      ∃ l ∈ ls, ∃ rest, arms = l.strand.guards ++ rest ∧ OccursIn l.content rest x := by
  induction h with
  | nil => simp
  | cons hl _ ih => simp [ih, hl.1.wraps.occurs_iff, hl.2]

/-- What occurs in the blocks of a node: the node itself, and what its strands hold, inside the
arms of the strands. -/
theorem Assembled.occursIn_iff {node : Node} {heads items : List Block} {laid : List Laid}
    (h : Assembled node heads laid items) :
    OccursIn items arms x ↔ (arms = [] ∧ node.id = x) ∨
      ∃ l ∈ laid, ∃ rest, arms = l.strand.guards ++ rest ∧ OccursIn l.content rest x := by
  cases h with
  | step _ hrest => simp [hrest.guards]
  | sequential _ hinner hrest => simp [occurs_sequence, hinner.guards, hrest.guards, or_assoc]
  | parallel _ _ hm hinner hrest =>
    rw [occursIn_cons, occurs_parallel, hm.occursIn_iff, or_assoc]
    simp only [List.mem_append, List.mem_singleton, or_and_right, exists_or, exists_eq_left]
    refine or_congr Iff.rfl (or_congr (exists_congr fun l => and_congr_right fun hl => ?_) ?_)
    · simp [hinner l hl]
    · simp [hrest.guards]
  | conditional _ _ ha hb hga hgb hrest =>
    simp [occurs_branch, splitPorts, ha.wraps.occurs_iff, hb.wraps.occurs_iff, hga, hgb,
      hrest.guards, or_assoc]
  | outcome hout ha hb hga hgb hrest =>
    simp [occurs_branch, splitPorts, hout, ha.wraps.occurs_iff, hb.wraps.occurs_iff, hga, hgb,
      hrest.guards, or_assoc]
  | switch _ _ hf hrest =>
    rw [occursIn_cons, occurs_switch, exists_route_iff hf, or_assoc]
    simp only [List.mem_append, List.mem_singleton, or_and_right, exists_or, exists_eq_left,
      hrest.guards, List.nil_append, exists_eq_left']
  | loop _ _ _ hw hg hrest => simp [occurs_loop, hw.wraps.occurs_iff, hg, hrest.guards, or_assoc]

theorem Laid.Joins.exists_call {l : Laid} (h : l.Joins) (ho : OccursIn l.content arms x) :
    ∃ c ∈ l.calls, c.start ∈ l.strand.starts ∧ OccursIn c.result arms x := by
  obtain ⟨b, hb, ho⟩ := ho
  obtain ⟨c, hc, hb⟩ := h.mem_result hb
  exact ⟨c, hc, h.starts ▸ List.mem_map_of_mem hc, b, hb, ho⟩

end Occurrences

/-- All that occurs in the blocks of a chain is led to from where the chain begins, through the arms
around it. -/
def Faithful (g : Graph) (start : Text) (items : List Block) : Prop :=
  ∀ arms x, OccursIn items arms x → g.LeadsThrough start arms x

theorem faithful_of_strands {g : Graph} (e : Entry) (c : Call) (he : e.Of (.ofGraph g) c)
    (ih : ∀ l ∈ e.laid, ∀ c ∈ l.calls, Faithful g c.start c.result) :
    Faithful g c.start c.result := by
  intro arms x hitems
  have hnode : g.node? e.node.id = some e.node := he.node_id ▸ he.node
  rcases he.assembled.occursIn_iff.mp hitems with ⟨rfl, rfl⟩ | ⟨l, hl, rest, rfl, ho⟩
  · rw [he.node_id]
    exact .refl _
  · obtain ⟨c', hc, hstart, hresult⟩ := (he.joins l hl).exists_call ho
    obtain ⟨edge, hedge, hsource, htarget, hguards⟩ :=
      exists_edge_of_mem_strands hnode (he.strand_mem hl) hstart
    rw [← he.node_id, ← hsource, ← hguards]
    exact .head hedge (htarget ▸ ih l hl c' hc _ _ hresult)

theorem Logs.faithful {g : Graph} {active : List Text} {c : Call} {p q : Progress}
    {made : List Block} (h : Logs (.ofGraph g) active c p made q) (hp : ∀ s ∈ p.shared, Faithful g s.1 [s.2]) :
    (∀ s ∈ q.shared, Faithful g s.1 [s.2]) ∧ Faithful g c.start c.result := by
  refine h.keep (P := Faithful g) ?_ ?_ faithful_of_strands hp
  · intro id arms x ho
    exact absurd ho occursIn_nil
  · intro n id items hitems arms x ho
    exact hitems arms x (by simpa using ho)

/-- The arms around every occurrence of a node in the block of a workflow are, in order, the guarded
arms which some path from an entry to the node enters. -/
theorem exists_path_of_occurs (v : Validated) {root : Block} (h : (resolve v).block = .ok root)
    {arms : List Guard} {id : Text} (ho : root.Occurs arms id) :
    ∃ entry ∈ v.graph.entryIds, ∃ path, v.graph.IsPath entry path id ∧
      path.filterMap v.graph.guard? = arms := by
  obtain ⟨l, made, q, hlog⟩ := exists_rootLog h
  obtain rfl := hlog.root
  obtain ⟨c, hc, hstart, ho⟩ := hlog.joins.exists_call (occurs_plain.mp ho)
  obtain ⟨_, hcalls⟩ := hlog.logged.keep (fun hc hp => hc.faithful hp) (fun p hp => hp) (by simp)
  rw [hlog.strand] at hstart
  rw [callsOf_calls] at hcalls
  exact ⟨c.start, hstart, hcalls c hc _ _ ho⟩

/-- A split whose arms meet again at the last step. -/
def diamond : Graph where
  nodes := [⟨"i", .input, [], none⟩, ⟨"c", .conditional, [("condition", .str "k")], none⟩,
    ⟨"a", .debug, [], none⟩, ⟨"m", .debug, [], none⟩]
  edges := [⟨"e1", "i", "c", none, none⟩, ⟨"e2", "c", "a", some "true", none⟩,
    ⟨"e3", "c", "m", some "false", none⟩, ⟨"e4", "a", "m", none, none⟩]

theorem validate_diamond : validate diamond = .ok [] :=
  Validation.validate_eq_nil rfl rfl rfl (by cbv) (by cbv) rfl

def diamondEnd : Block := .sequence 4 [.leaf 3 ⟨"m", .debug, [], none⟩] none (some "m")

def diamondBlock : Block :=
  .sequence 7 [.leaf 1 ⟨"i", .input, [], none⟩,
    .branch 6 ⟨"c", .conditional, [("condition", .str "k")], none⟩ (.str "k")
      (.sequence 5 [.leaf 2 ⟨"a", .debug, [], none⟩, diamondEnd] none none) diamondEnd none]
    none none

/-- The last step of the diamond stands in the first arm, and a path through that arm leads there. -/
theorem exists_path_diamond :
    (resolve ⟨diamond, [], validate_diamond, rfl⟩).block = .ok diamondBlock ∧
    diamondBlock.Occurs [("c", "true")] "m" ∧
    ∃ entry ∈ diamond.entryIds, ∃ path, diamond.IsPath entry path "m" ∧
      path.filterMap diamond.guard? = [(("c" : Text), ("true" : Text))] := by
  have hresolve : (resolve ⟨diamond, [], validate_diamond, rfl⟩).block = .ok diamondBlock := by
    cbv
  have hoccurs : diamondBlock.Occurs [("c", "true")] "m" := by
    simp [diamondBlock, diamondEnd, occurs_branch, splitPorts]
  exact ⟨hresolve, hoccurs, exists_path_of_occurs _ hresolve hoccurs⟩

end Resolution

end WorkflowCompiler
