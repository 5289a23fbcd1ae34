import Mathlib
import WorkflowCompiler.Proofs.Plan.Graph
import WorkflowCompiler.Proofs.Resolution.Formed
import WorkflowCompiler.Proofs.Resolution.Splice

/-! # Resolving the graph of a plan

The graph of a plan is resolved to the blocks of the plan: one block for each node, with the chains
of its arms inside it and what comes next behind it. Nothing is shared, and no wire back to a loop
leaves a trace.
-/
namespace WorkflowCompiler

namespace Plan
open Resolution

/-- How a chain stands as a member of a parallel container. -/
def IsMember (items : List Block) (member : Block) : Prop :=
  items = [member] ∨ 2 ≤ items.length ∧ ∃ n, member = .sequence n items none none

/-- The block that a node stands as, given the chains of its arms. -/
inductive Stands (node : Node) : List (List Block) → Block → Prop
  | step {n : Nat} : node.kind.isContainer = false → Stands node [] (.leaf n node)
  | loop {n m : Nat} {inner : List Block} {kind : LoopKind} : node.kind = .loop →
    LoopKind.ofValue (node.settings.get "loopType") = .ok kind →
    Stands node [inner]
      (.loop n node (.sequence m inner none none) kind (loopParams kind node.settings))
  | sequential {n : Nat} {inner : List Block} : node.kind = .sequential →
    Stands node [inner] (.sequence n inner (some node) none)
  | conditional {n m k : Nat} {onTrue onFalse : List Block} : node.kind = .conditional →
    Stands node [onTrue, onFalse]
      (.branch n node ((node.settings.get? "condition").getD (.str ""))
        (.sequence m onTrue none none) (.sequence k onFalse none none) none)
  | router {n : Nat} {chains : List (List Block)} {routes : List (Exit × Block)} :
    node.kind = .router →
    routes.map (·.1) = (routeLabels node.config).map (fun label => ⟨label.2, label.1⟩) →
    List.Forall₂ (fun items route => ∃ m, route.2 = .sequence m items none none) chains routes →
    Stands node chains (.switch n node routes)
  | parallel {n : Nat} {chains : List (List Block)} {members : List Block} {join : JoinStrategy} :
    node.kind = .parallel →
    JoinStrategy.ofValue (node.settings.get "joinStrategy") = .ok join →
    List.Forall₂ IsMember chains members → Stands node chains (.parallel n node members join)

/-- The blocks of a plan, in which only the serial numbers are left open. -/
inductive Builds : Plan → List Block → Prop
  | done : Builds .done []
  | run {node : Node} {arms : List Plan} {rest : Plan} {chains : List (List Block)} {block : Block}
    {items : List Block} : List.Forall₂ Builds arms chains → Stands node chains block →
    Builds rest items → Builds (.run node arms rest) (block :: items)

theorem Stands.unshared {node : Node} {chains : List (List Block)} {block : Block}
    (h : Stands node chains block) : block.sharedKey? = none := by
  cases h <;> rfl

theorem Builds.unshared {plan : Plan} {items : List Block} (h : Builds plan items) :
    ∀ b ∈ items, b.sharedKey? = none := by
  induction plan using Plan.induction generalizing items with
  | done =>
    cases h
    simp
  | run node arms rest _ ih =>
    cases h with
    | run _ hstands hrest => exact List.forall_mem_cons.mpr ⟨hstands.unshared, ih hrest⟩

theorem Builds.ne_nil {plan : Plan} {items : List Block} (h : Builds plan items)
    (hplan : plan ≠ .done) : items ≠ [] := by
  cases h with
  | done => exact absurd rfl hplan
  | run _ _ _ => exact List.cons_ne_nil _ _

/-- A chain is resolved for a part of a plan: it stops at the heads of the loops around the part. -/
structure Walks (g : Graph) (stop : List Text) (back : Option Text) (part : Plan) : Prop where
  placed : Placed g back part
  structured : part.Structured
  heads : ∀ head, back = some head → head ∈ stop
  free : ∀ x ∈ part.ids, x ∉ stop

section Parts
variable {g : Graph} {stop : List Text} {back : Option Text} {node : Node} {arms : List Plan}
  {rest : Plan}

theorem Structured.fits (h : (Plan.run node arms rest).Structured) : Fits node arms rest := by
  cases h with
  | run hfits _ _ => exact hfits

theorem Walks.arm (h : Walks g stop back (run node arms rest)) {arm : Plan} (harm : arm ∈ arms) :
    Walks g (if node.kind = .loop then node.id :: stop else stop) (node.inside back) arm := by
  have hids : ∀ x ∈ arm.ids, x ∉ stop :=
    fun x hx => h.free x (mem_ids_run.mpr (Or.inr (Or.inl ⟨arm, harm, hx⟩)))
  have hnode : node.id ∉ arm.ids := (parts_disjoint h.placed.nodup).1 arm harm
  have hs := h.structured
  cases hs with
  | run hfits harms _ =>
    refine ⟨h.placed.arm hfits harm, harms arm harm, ?_, ?_⟩
    · intro head hhead
      unfold Node.inside at hhead
      split
      next hk =>
        rw [if_pos hk] at hhead
        exact Option.some.inj hhead ▸ List.mem_cons_self
      next hk =>
        rw [if_neg hk] at hhead
        exact h.heads head hhead
    · intro x hx
      split
      · rw [List.mem_cons, not_or]
        exact ⟨fun heq => hnode (heq ▸ hx), hids x hx⟩
      · exact hids x hx

theorem Walks.next (h : Walks g stop back (run node arms rest)) : Walks g stop back rest := by
  have hs := h.structured
  cases hs with
  | run _ _ hrest =>
    exact ⟨h.placed.next, hrest, h.heads, fun x hx => h.free x (mem_ids_run.mpr (Or.inr (Or.inr hx)))⟩

end Parts

/-- A strand that begins where a part does gives the blocks of the part, if its chain does. -/
theorem builds_of_begins {l : Laid} (hj : l.Joins) {part : Plan} (back : Option Text)
    (hbegins : Begins part back l.strand.starts)
    (hcalls : ∀ c ∈ l.calls, part.first.or back = some c.start → Builds part c.result) :
    Builds part l.content := by
  rcases hbegins with ⟨hnone, rfl⟩ | ⟨start, hone, hstart⟩
  · have hempty : l.calls = [] := List.map_eq_nil_iff.mp (hj.starts.trans hnone)
    rcases hj.content with hcontent | hcontent
    · rw [hcontent, hempty]
      exact .done
    · rw [hempty] at hcontent
      cases hcontent
  · obtain ⟨c, hc, hcstart⟩ := List.map_eq_singleton_iff.mp (hj.starts.trans hone)
    have hbuilds : Builds part c.result := hcalls c (by simp [hc]) (hcstart ▸ hstart)
    have hresults : l.calls.map (·.result) = [c.result] := by rw [hc]; rfl
    rcases hj.content with hcontent | hcontent
    · rw [hresults, splice_of_unshared (by simpa using hbuilds.unshared)] at hcontent
      simpa [hcontent] using hbuilds
    · rw [hresults] at hcontent
      rwa [← (List.cons.inj hcontent).1]

theorem eq_sequence_of_wrapsArm {l : Laid} {b : Block} (h : l.WrapsArm b)
    (hl : ∀ b ∈ l.content, b.sharedKey? = none) : ∃ n, b = .sequence n l.content none none := by
  rcases h with ⟨hcontent, _, hshared⟩ | ⟨_, n, hb, _⟩
  · rw [hl b (by simp [hcontent])] at hshared
    cases hshared
  · exact ⟨n, hb⟩

theorem isMember_of_memberBlocks {ls : List Laid} {members : List Block}
    (h : MemberBlocks ls members) (hl : ∀ l ∈ ls, l.content ≠ []) :
    List.Forall₂ IsMember (ls.map (·.content)) members := by
  induction h with
  | nil => exact .nil
  | skip hempty _ _ _ => exact absurd hempty (hl _ List.mem_cons_self)
  | cons hw _ ih =>
    refine .cons ?_ (ih fun l hl' => hl l (List.mem_cons_of_mem _ hl'))
    rcases hw with ⟨hcontent, _⟩ | ⟨hlength, n, hb, _⟩
    · exact Or.inl hcontent
    · exact Or.inr ⟨hlength, n, hb⟩

theorem exists_stands {node : Node} {arms : List Plan} {rest : Plan} (hfits : Fits node arms rest)
    {heads items : List Block} {inner : List Laid} {last : Laid}
    (ha : Assembled node heads (inner ++ [last]) items)
    (hinner : List.Forall₂ (fun arm l => Builds arm l.content) arms inner) :
    ∃ block, Stands node (inner.map (·.content)) block ∧ items = block :: last.content := by
  have hunshared : ∀ l ∈ inner, ∀ b ∈ l.content, b.sharedKey? = none := by
    intro l hl
    obtain ⟨arm, _, hbuilds⟩ := exists_of_forall₂ hinner hl
    exact hbuilds.unshared
  generalize hlaid : inner ++ [last] = laid at ha
  have hsplit : ∀ (inner' : List Laid) {last' : Laid}, laid = inner' ++ [last'] →
      inner = inner' ∧ last = last' := by
    intro inner' last' heq
    obtain ⟨hfront, hback⟩ := List.append_inj' (hlaid.trans heq) rfl
    exact ⟨hfront, List.singleton_inj.mp hback⟩
  cases ha with
  | step hstep _ =>
    obtain ⟨rfl, rfl⟩ := hsplit [] rfl
    exact ⟨_, .step hstep, rfl⟩
  | @sequential n l _ hk _ _ =>
    obtain ⟨rfl, rfl⟩ := hsplit [l] rfl
    exact ⟨_, .sequential hk, rfl⟩
  | parallel hk hjoin hmembers _ _ =>
    obtain ⟨rfl, rfl⟩ := hsplit _ rfl
    refine ⟨_, .parallel hk hjoin (isMember_of_memberBlocks hmembers fun l hl => ?_), rfl⟩
    obtain ⟨arm, harm, hbuilds⟩ := exists_of_forall₂ hinner hl
    exact hbuilds.ne_nil (hfits.members hk arm harm)
  | @conditional n condition onTrue onFalse a b _ hk hcondition hwa hwb _ _ _ =>
    obtain ⟨rfl, rfl⟩ := hsplit [a, b] rfl
    obtain ⟨m, rfl⟩ := eq_sequence_of_wrapsArm hwa (hunshared a (by simp))
    obtain ⟨k, rfl⟩ := eq_sequence_of_wrapsArm hwb (hunshared b (by simp))
    subst hcondition
    exact ⟨_, .conditional hk, rfl⟩
  | @outcome m n success failure onTrue onFalse a b _ hout _ _ _ _ _ =>
    -- only a step has an outcome, and steps have no arms
    obtain ⟨rfl, rfl⟩ := hsplit [a, b] rfl
    rw [hfits.eq_nil (isContainer_of_outcomePorts hout)] at hinner
    cases hinner
  | switch hk hexits hroutes _ =>
    obtain ⟨rfl, rfl⟩ := hsplit _ rfl
    refine ⟨_, .router hk hexits (List.forall₂_map_left_iff.mpr ?_), rfl⟩
    have hboth := (List.forall₂_and_left _ _).mpr ⟨hunshared, hroutes⟩
    exact hboth.imp fun l route h => eq_sequence_of_wrapsArm h.2.1 h.1
  | @loop n body kind params l _ hk hkind hparams hw _ _ =>
    obtain ⟨rfl, rfl⟩ := hsplit [l] rfl
    obtain ⟨m, rfl⟩ := eq_sequence_of_wrapsArm hw (hunshared l (by simp))
    subst hparams
    exact ⟨_, .loop hk hkind, rfl⟩

section Graphs
variable {g : Graph} {input : Node} {plan : Plan} (h : Encodes g input plan)
include h

/-- A chain gives the blocks of the part for which it is resolved. -/
def Follows (g : Graph) (c : Call) : Prop :=
  ∀ back part, Walks g c.stop back part → part.first.or back = some c.start → Builds part c.result

/-- What is entered gives the blocks of its part, if the chains of its strands do. -/
theorem builds_of_entry {e : Entry} {c : Call} (he : e.Of (.ofGraph g) c)
    (hcalls : ∀ c' ∈ callsOf e.events, Follows g c') {back : Option Text} {node : Node}
    {arms : List Plan} {rest : Plan} (hw : Walks g c.stop back (run node arms rest))
    (hid : node.id = c.start) : Builds (run node arms rest) c.result := by
  have hfits := hw.structured.fits
  obtain rfl : e.node = node := by
    have hnode : g.node? c.start = some e.node := he.node
    rw [← hid, hw.placed.node?] at hnode
    exact (Option.some.inj hnode).symm
  obtain ⟨inner, ends, hlaid, hlimbs, hends⟩ := List.map_eq_append_iff.mp he.strands
  obtain ⟨last, rfl, hlast⟩ := List.map_eq_singleton_iff.mp hends
  have hmem : ∀ l ∈ e.laid, l.Joins ∧ ∀ c' ∈ l.calls, Follows g c' ∧ c'.stop = l.strand.stop := by
    intro l hl
    refine ⟨he.joins l hl, fun c' hc' => ⟨hcalls c' ?_, ((he.joins l hl).context c' hc').2⟩⟩
    exact he.calls ▸ List.mem_flatMap.mpr ⟨l, hl, hc'⟩
  have hrest : Builds rest last.content := by
    obtain ⟨hj, hfollows⟩ := hmem last (by simp [hlaid])
    refine builds_of_begins hj back ?_ fun c' hc' hstart => ?_
    · rw [hlast]
      exact hw.placed.begins_nexts hfits
    · obtain ⟨hfollow, hstop⟩ := hfollows c' hc'
      rw [hlast] at hstop
      exact hfollow back rest (hstop ▸ hw.next) hstart
  have hinner : List.Forall₂ (fun arm l => Builds arm l.content) arms inner := by
    have hstarts : inner.map (·.strand.starts) =
        arms.map fun arm => (arm.first.or (e.node.inside back)).toList := by
      rw [← hw.placed.limbs_starts hfits h c.stop, ← hlimbs, List.map_map]
      rfl
    have hpairs : List.Forall₂ (fun arm l => (arm.first.or (e.node.inside back)).toList =
        l.strand.starts) arms inner := by
      rw [← List.forall₂_map_right_iff, ← List.forall₂_map_left_iff (R := Eq), hstarts,
        List.forall₂_eq_eq_eq]
    refine List.forall₂_iff_zip.mpr ⟨hpairs.length_eq, fun {arm l} hzip => ?_⟩
    obtain ⟨harm, hl⟩ := List.of_mem_zip hzip
    obtain ⟨hj, hfollows⟩ := hmem l (by simp [hlaid, hl])
    refine builds_of_begins hj _ (List.forall₂_zip hpairs hzip ▸ begins_toList) fun c' hc' hstart => ?_
    obtain ⟨hfollow, hstop⟩ := hfollows c' hc'
    rw [limbs_stop (hlimbs ▸ List.mem_map_of_mem hl)] at hstop
    exact hfollow _ arm (hstop ▸ hw.arm harm) hstart
  have hassembled := he.assembled
  rw [hlaid] at hassembled
  obtain ⟨block, hstands, hresult⟩ := exists_stands hfits hassembled hinner
  rw [hresult]
  exact .run (List.forall₂_map_right_iff.mpr hinner) hstands hrest

theorem Logs.follows {active : List Text} {c : Call} {p q : Progress} {made : List Block}
    (hlogs : Logs (.ofGraph g) active c p made q) : Follows g c := by
  have hmerge : ∀ id, (Facts.ofGraph g).isMerge id = false := by
    intro id
    simp [Facts.isMerge, Facts.ofGraph, h.merges_eq_nil]
  refine Logs.induction (motive := fun _ c _ _ _ => Follows g c) ?_ hlogs
  intro active c p made q hs back part hw hstart
  cases hs with
  | stopped hstop =>
    -- no node of a part is the head of a loop around it
    rcases first_or hstart with hfirst | ⟨rfl, _⟩
    · exact absurd hstop (hw.free _ (first_mem hfirst))
    · exact .done
  | known _ hm _ _ => simp [hmerge] at hm
  | fresh _ _ _ hm _ _ _ _ => simp [hmerge] at hm
  | entered e hstop _ _ he hl =>
    have hcalls : ∀ c' ∈ callsOf e.events, Follows g c' := by
      intro c' hc'
      obtain ⟨_, _, _, _, hfollows⟩ := hl.exists_of_call hc'
      exact hfollows
    cases part with
    | done => exact absurd (hw.heads _ hstart) hstop
    | run node arms rest => exact builds_of_entry h he hcalls hw (Option.some.inj hstart)

end Graphs

end Plan

namespace Encodes
open Plan Resolution
variable {g : Graph} {input : Node} {plan : Plan}

theorem builds_root (h : Encodes g input plan) {v : Validated} (hv : v.graph = g) {root : Block}
    (hroot : (resolve v).block = .ok root) :
    ∃ n m items, root = .sequence n (.leaf m input :: items) none none ∧ plan.Builds items := by
  subst hv
  obtain ⟨l, made, q, hlog⟩ := exists_rootLog hroot
  have hwalks : Walks v.graph [] none (run input [] plan) :=
    ⟨h.placed, h.structured_run, nofun, fun _ _ => List.not_mem_nil⟩
  have hcalls : ∀ c ∈ l.calls, Follows v.graph c ∧ c.stop = [] := by
    intro c hc
    obtain ⟨_, _, _, hlogs⟩ := hlog.logged.exists_of_call (callsOf_calls l.calls ▸ hc)
    refine ⟨Logs.follows h hlogs, ?_⟩
    rw [(hlog.joins.context c hc).2, hlog.strand]
  have hbuilds : Builds (run input [] plan) l.content := by
    refine builds_of_begins hlog.joins none ?_ fun c hc hstart => ?_
    · rw [hlog.strand, h.entryIds_eq]
      exact Or.inr ⟨input.id, rfl, rfl⟩
    · obtain ⟨hfollows, hstop⟩ := hcalls c hc
      exact hfollows none _ (hstop ▸ hwalks) hstart
  have hcontent := hlog.root
  generalize l.content = items at hbuilds hcontent
  cases hbuilds with
  | @run _ _ _ chains block items harms hstands hrest =>
    cases harms
    cases hstands with
    | @step m _ => exact ⟨_, m, items, hcontent, hrest⟩
    | router hk _ _ => simp [h.entry] at hk
    | parallel hk _ _ => simp [h.entry] at hk

/-- The graph of a plan is accepted, and it is resolved to the blocks of the plan behind the input. -/
theorem resolve_encoded (h : Encodes g input plan) :
    ∃ v, judge g = .ok (.accepted v) ∧ v.graph = g ∧ ∃ n m items,
      (resolve v).block = .ok (.sequence n (.leaf m input :: items) none none) ∧
        plan.Builds items := by
  obtain ⟨v, haccepted, hv⟩ := h.exists_accepted
  obtain ⟨root, hroot⟩ := h.exists_block hv
  obtain ⟨n, m, items, rfl, hbuilds⟩ := h.builds_root hv hroot
  exact ⟨v, haccepted, hv, n, m, items, hroot, hbuilds⟩

/-- A loop inside a loop, whose body ends in a branch with an empty arm, and then two members side by
side, one of which is a switch. -/
def nestedLoops : Plan :=
  .run ⟨"outer", .loop, [("loopCount", .int 2)], none⟩
    [.run ⟨"inner", .loop, [("loopCount", .int 3)], none⟩
      [.run ⟨"if", .conditional, [("condition", .str "k")], none⟩
        [.run ⟨"x", .debug, [], none⟩ [] .done, .done] .done]
      (.run ⟨"y", .debug, [], none⟩ [] .done)]
    (.run ⟨"call", .apiCall, [("apiUrl", .str "u")], none⟩ []
      (.run ⟨"both", .parallel, [], none⟩
        [.run ⟨"p", .debug, [], none⟩ [] .done,
          .run ⟨"way", .router, [("routeCount", .int 2)], none⟩
            [.done, .run ⟨"q", .debug, [], none⟩ [] .done] .done]
        .done))

theorem nestedLoops_structured : nestedLoops.Structured := by
  have hstep : ∀ {node : Node} {rest : Plan}, node.kind.isContainer = false → rest.Structured →
      (run node [] rest).Structured :=
    fun hk hrest => .run (.step hk) (by simp) hrest
  refine .run (.loop rfl) ?_ (hstep rfl (.run (.parallel rfl (by simp) ?_ (by decide)) ?_ .done))
  · refine List.forall_mem_singleton.mpr (.run (.loop rfl) ?_ (hstep rfl .done))
    refine List.forall_mem_singleton.mpr (.run (.conditional rfl) ?_ .done)
    simpa using ⟨hstep rfl .done, .done⟩
  · simp
  · have hway : (run ⟨"way", .router, [("routeCount", .int 2)], none⟩
        [.done, .run ⟨"q", .debug, [], none⟩ [] .done] .done).Structured :=
      .run (.router rfl rfl) (by simpa using ⟨.done, hstep rfl .done⟩) .done
    simpa using ⟨hstep rfl .done, hway⟩

theorem nestedLoops_wellFormed : nestedLoops.WellFormed ⟨"i", .input, [], none⟩ := by
  refine ⟨nestedLoops_structured, rfl, by decide, by decide,
    (Validation.checkConfig_eq_nil_iff (g := ⟨_, []⟩)).mp rfl, ?_⟩
  intro n hn
  simp only [nestedLoops, Plan.nodes, nodesAll, List.append_nil, List.nil_append, List.cons_append,
    List.mem_cons, List.not_mem_nil, or_false] at hn
  rcases hn with rfl | rfl | rfl | rfl | rfl | rfl | rfl | rfl | rfl | rfl | rfl <;>
    constructor <;> rintro - ⟨⟩

theorem resolve_nestedLoops :
    Encodes (nestedLoops.graph ⟨"i", .input, [], none⟩) ⟨"i", .input, [], none⟩ nestedLoops ∧
    ∃ v, judge (nestedLoops.graph ⟨"i", .input, [], none⟩) = .ok (.accepted v) ∧
      v.graph = nestedLoops.graph ⟨"i", .input, [], none⟩ ∧ ∃ n m items,
        (resolve v).block = .ok (.sequence n (.leaf m ⟨"i", .input, [], none⟩ :: items) none none) ∧
          nestedLoops.Builds items := by
  have hencodes := encodes_graph nestedLoops_wellFormed
  exact ⟨hencodes, resolve_encoded hencodes⟩

end Encodes

end WorkflowCompiler
