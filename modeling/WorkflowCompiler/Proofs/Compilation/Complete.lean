import Mathlib
import WorkflowCompiler.Compilation
import WorkflowCompiler.Proofs.Emission.Reference
import WorkflowCompiler.Proofs.Graph.Acyclic
import WorkflowCompiler.Proofs.Resolution.Linear
import WorkflowCompiler.Proofs.Resolution.Once
import WorkflowCompiler.Proofs.Resolution.Total
import WorkflowCompiler.Proofs.Validation.Settings

/-! # Accepted workflows compile

An accepted graph without cycles compiles, unless the construct of a node that can be reached would
show an integer with too many digits. The code has one construct for every node that can be reached,
and one more for every outcome whose failure is provided for.
-/
namespace WorkflowCompiler

/-- All that the constructs of the nodes that can be reached show can be written. -/
def Graph.Writable (g : Graph) : Prop := ∀ node ∈ g.nodes, g.Reached node.id → node.Writable

/-- The statements of a program render what the nodes of a graph ask for that can be reached, one
statement for each, and otherwise plain sequences. -/
def Program.States (profile : Profile) (g : Graph) (program : Program) : Prop :=
  ∃ (bound : Text → Option Text) (tags : List (Option Subject)) (ids : List Text),
    List.Forall₂ (Emission.Renders profile bound) tags program.constructs ∧ ids.Nodup ∧
    (∀ id, id ∈ ids ↔ g.Reached id) ∧ tags.reduceOption.Perm (ids.flatMap g.subjectsAt)

namespace Graph

theorem mem_subjectsAt {g : Graph} {id : Text} {subject : Subject}
    (h : subject ∈ g.subjectsAt id) : ∃ node, g.node? id = some node ∧
      (subject = .node node ∨ subject = .outcome node) := by
  obtain ⟨node, hnode, hs⟩ := List.mem_flatMap.mp h
  refine ⟨node, Option.mem_toList.mp hnode, ?_⟩
  rcases List.mem_cons.mp hs with hs | hs
  · exact Or.inl hs
  · split at hs
    · exact Or.inr (List.mem_singleton.mp hs)
    · exact absurd hs List.not_mem_nil

theorem key_subjectsAt {g : Graph} {id key : Text}
    (h : key ∈ (g.subjectsAt id).map Subject.key) : key = id ∨ key = id ++ "#outcome" := by
  obtain ⟨subject, hs, rfl⟩ := List.mem_map.mp h
  obtain ⟨node, hnode, hs⟩ := mem_subjectsAt hs
  rw [← (node?_eq_some hnode).2]
  exact hs.imp (fun h => by rw [h]; rfl) fun h => by rw [h]; rfl

theorem ne_append_outcome (id : Text) : id ≠ id ++ "#outcome" := by
  intro h
  have hlength := congrArg List.length h
  rw [List.length_append] at hlength
  have hpos : 0 < ("#outcome" : Text).length := by decide
  omega

/-- No two subjects have one key, if no id is another one with the mark of an outcome. -/
theorem nodup_keys {g : Graph} {ids : List Text} (hn : ids.Nodup)
    (hids : ∀ a ∈ ids, ∀ b ∈ ids, a ≠ b ++ "#outcome") :
    ((ids.flatMap g.subjectsAt).map Subject.key).Nodup := by
  rw [List.map_flatMap, List.nodup_flatMap]
  constructor
  · intro id _
    rw [subjectsAt]
    cases hnode : g.node? id with
    | none => simp
    | some node =>
      rw [Option.toList_some, List.flatMap_singleton, subjects]
      split
      · simpa [Subject.key] using ne_append_outcome node.id
      · simp
  · refine hn.imp_of_mem fun {a b} ha hb hne key hkey hkey' => ?_
    rcases key_subjectsAt hkey with rfl | rfl
    · rcases key_subjectsAt hkey' with heq | heq
      · exact hne heq
      · exact hids _ ha _ hb heq
    · rcases key_subjectsAt hkey' with heq | heq
      · exact hids _ hb _ ha heq.symm
      · exact hne (List.append_cancel_right heq)

theorem Sound.nil_not_mem_merges {g : Graph} (hg : g.Sound) (hid : ∀ n ∈ g.nodes, n.id ≠ []) :
    [] ∉ g.merges := by
  intro hmem
  simp only [merges, List.mem_filter, List.mem_eraseDups] at hmem
  obtain ⟨e, he, ht⟩ := List.mem_map.mp hmem.1
  obtain ⟨node, hnode⟩ := hg.node_of_edge (List.mem_filter.mp he).1
  obtain ⟨hn, hid'⟩ := node?_eq_some hnode
  exact hid node hn (hid'.trans ht)

end Graph

namespace Resolution
open Block

variable {g : Graph} {root : Block} {l : Laid} {made : List Block} {q : Progress}

theorem RootLog.entered_nodup (hg : g.Sound) (ha : g.Acyclic) (h : RootLog g root l made q) :
    (entered made).Nodup := by
  refine List.nodup_iff_count_le_one.mpr fun id => ?_
  by_contra htwo
  have hmem : id ∈ entered made := List.count_pos_iff.mp (by omega)
  obtain ⟨n, hn⟩ := ((h.mem_entered_iff hg).mp hmem).exists_in
  obtain ⟨head, hhead, _, _⟩ := h.exists_hiddenMerge hg hn (by omega)
  exact ha.not_hiddenMerge head hhead

theorem RootLog.work_root (hid : [] ∉ g.merges) (h : RootLog g root l made q) :
    (work q.shared [] [root]).Perm ((entered made).flatMap g.subjectsAt) := by
  have hroot : (work q.shared [] [root]).Perm (root.subject?.toList ++ work q.shared [] root.children) :=
    work_of_unshared (h.keyed hid) (by rw [h.root]; rfl)
  rw [h.root] at hroot ⊢
  exact hroot.trans (h.work_perm hid)

theorem RootLog.listed (h : RootLog g root l made q) : Emission.Listed q.shared root := by
  obtain ⟨_, _, hin⟩ := (h.logged.mono fun hc => hc.tabled).tabled tableSound_start
  rw [callsOf_calls] at hin
  intro x hx key hkey
  rw [h.root] at hx
  rcases Block.within_iff.mp hx with rfl | ⟨b, hb, hw⟩
  · cases hkey
  · obtain ⟨c, hc, hb⟩ := h.joins.mem_result hb
    exact hin c hc b hb x hw key hkey

end Resolution

section Complete
open Resolution Emission

variable (v : Validated) (ha : v.graph.Acyclic)
  (hgiven : ∀ n ∈ v.graph.nodes, ∀ field ∈ (["loopType", "joinStrategy", "delayUnit"] : List Text),
    n.config.get field ≠ .str [])
  (hid : ∀ n ∈ v.graph.nodes, n.id ≠ [])
  (hids : ∀ n ∈ v.graph.nodes, ∀ m ∈ v.graph.nodes, n.id ≠ m.id ++ "#outcome")

include hgiven in
theorem Validated.settled : ∀ node ∈ v.graph.nodes, Settled node := by
  intro node hn
  refine Settled.of_given v ?_ hn
  intro n hn field hfield
  refine hgiven n hn field ?_
  rw [List.mem_cons, List.mem_singleton] at hfield
  rcases hfield with rfl | rfl <;> simp

include ha hgiven hid hids in
theorem RootLog.admits {root : Block} {l : Laid} {made : List Block} {q : Resolution.Progress}
    (h : RootLog v.graph root l made q) (profile : Profile) :
    Admits (¬ v.graph.Writable) q.shared (.start profile) [root] := by
  have hg := v.sound
  have hwork := h.work_root (hg.nil_not_mem_merges hid)
  have hnode : ∀ id ∈ entered made, ∃ node ∈ v.graph.nodes, node.id = id := by
    intro id hmem
    obtain ⟨node, hnode⟩ := hg.node_of_reached ((h.mem_entered_iff hg).mp hmem)
    exact ⟨node, Graph.node?_eq_some hnode⟩
  refine ⟨?_, by simp [Progress.done, Progress.start], ?_, ?_⟩
  · refine (hwork.map _).nodup_iff.mpr (Graph.nodup_keys (h.entered_nodup hg ha) ?_)
    intro a ha b hb
    obtain ⟨n, hn, rfl⟩ := hnode a ha
    obtain ⟨m, hm, rfl⟩ := hnode b hb
    exact hids n hn m hm
  · rw [h.root]
    exact Block.led_singleton (by simp [Block.subject?])
  · intro node hmem
    obtain ⟨id, hid', hs⟩ := List.mem_flatMap.mp (hwork.mem_iff.mp hmem)
    obtain ⟨found, hfound, hs⟩ := Graph.mem_subjectsAt hs
    obtain rfl : node = found := by
      rcases hs with hs | hs
      · exact Subject.node.inj hs
      · cases hs
    obtain ⟨hn, rfl⟩ := Graph.node?_eq_some hfound
    refine or_iff_not_imp_right.mpr fun hwritable => ⟨fun hk => ?_, ?_⟩
    · exact v.exists_seconds hn hk (hgiven node hn _ (by simp))
    · exact not_not.mp hwritable node hn ((h.mem_entered_iff hg).mp hid')

/-- Where a program renders a node, what its construct shows can be written. -/
theorem Program.States.writable {profile : Profile} {program : Program}
    (h : program.States profile v.graph) : v.graph.Writable := by
  obtain ⟨bound, tags, ids, hf, _, hids, hperm⟩ := h
  intro node hn hreached
  have hmem : Subject.node node ∈ ids.flatMap v.graph.subjectsAt := by
    refine List.mem_flatMap.mpr ⟨node.id, (hids _).mpr hreached, ?_⟩
    simp [Graph.subjectsAt, v.sound.node?_id hn, Graph.subjects]
  have htag := List.reduceOption_mem_iff.mp (hperm.mem_iff.mpr hmem)
  obtain ⟨s, _, hs⟩ := exists_of_forall₂ hf.flip htag
  cases hs with
  | node _ hstatement =>
    by_cases hk : node.kind = .conditional
    · obtain ⟨condition, hcondition⟩ := v.condition_settings hn hk
      refine (Node.writable_iff (by simp [hk])).mpr fun field hfield => ?_
      obtain rfl : field = "condition" := by simpa [Node.shownFields, hk] using hfield
      rw [hcondition]
      rfl
    · exact Template.writable_of_statement hk hstatement

include ha hgiven hid hids in
/-- A workflow gives a program with the constructs that are asked for, or some number is too long. -/
theorem RootLog.program {root : Block} {l : Laid} {made : List Block} {q : Resolution.Progress}
    (h : RootLog v.graph root l made q) (profile : Profile) (name : Text) :
    (∃ program, Program.ofBlock profile name root = .ok program ∧
      program.States profile v.graph) ∨
    (∃ fault, Program.ofBlock profile name root = .error fault) ∧ ¬ v.graph.Writable := by
  have hg := v.sound
  have hmerges := hg.nil_not_mem_merges hid
  have hadmits := RootLog.admits v ha hgiven hid hids h profile
  have hformed : root.Formed := h.root ▸ .chain h.formed.2 h.formed.1
  have hemitted : Emitted profile (¬ v.graph.Writable) q.shared root :=
    emitted_of_formed (h.keyed hmerges) hformed h.listed
  have htop : topReferences profile root = itemReferences profile root := by
    rw [h.root]
    rfl
  have hdoes := hemitted.items (by rw [h.root]; trivial) (by rw [h.root]; rfl) _ hadmits
  rw [← htop, Does] at hdoes
  rw [Program.ofBlock]
  cases hrun : (topReferences profile root).run (.start profile) with
  | error fault =>
    rw [hrun] at hdoes
    exact Or.inr ⟨⟨fault, rfl⟩, hdoes⟩
  | ok result =>
    rw [hrun] at hdoes
    obtain ⟨tags, more, hmore, hf, htags⟩ := hdoes.adds.states
    refine Or.inl ⟨_, rfl, result.2.bound, tags, entered made, ?_, h.entered_nodup hg ha,
      fun id => h.mem_entered_iff hg, htags.trans (h.work_root hmerges)⟩
    rwa [show result.2.statements = more by simpa [Progress.start] using hmore]

/-- The code of a program that states what is asked for shows its statements line by line. -/
theorem Program.States.lines_eq {profile : Profile} {g : Graph} {name : Text} {block : Block}
    {program : Program} (h : program.States profile g)
    (hprogram : Program.ofBlock profile name block = .ok program) :
    program.lines profile name = program.layout profile name := by
  obtain ⟨bound, tags, ids, hf, -⟩ := h
  obtain ⟨result, -, hmade⟩ := exists_of_bind_eq_ok hprogram
  cases hmade
  refine Program.lines_eq_layout (fun s hs => ?_) (List.cons_ne_nil _ _) profile name
  obtain ⟨tag, -, hr⟩ := exists_of_forall₂ hf hs
  exact hr.args_ne_nil

/-- An accepted graph without cycles compiles exactly if all that the nodes which can be reached have
to show can be written. Every such node has then the lines of one construct in the code, made by the
template of its kind, and every step whose failure is provided for has those of one split by its
outcome, which names that step. -/
theorem compile_acyclic (v : Validated) (ha : v.graph.Acyclic)
    (hgiven : ∀ n ∈ v.graph.nodes,
      ∀ field ∈ (["loopType", "joinStrategy", "delayUnit"] : List Text),
        n.config.get field ≠ .str [])
    (hid : ∀ n ∈ v.graph.nodes, n.id ≠ [])
    (hids : ∀ n ∈ v.graph.nodes, ∀ m ∈ v.graph.nodes, n.id ≠ m.id ++ "#outcome")
    (profile : Profile) (name : Text) (ceiling : Option Int)
    (hsize : tooManyNodes v.graph ceiling = none) :
    (v.graph.Writable → ∃ program : Program,
      (compile profile name ceiling v.graph).outcome =
        .compiled (sourceText (program.layout profile name)) v.warnings ∧
      program.States profile v.graph) ∧
    (¬ v.graph.Writable →
      (compile profile name ceiling v.graph).outcome = .refused [internalError]) := by
  obtain ⟨root, hroot⟩ := exists_block v ha (v.settled hgiven)
  obtain ⟨l, made, q, hlog⟩ := exists_rootLog hroot
  have hformed : root.Formed := hlog.root ▸ .chain hlog.formed.2 hlog.formed.1
  obtain ⟨description, hdescription⟩ := hformed.exists_describe
  have hcompile : compile profile name ceiling v.graph = Compilation.ofValidated profile name v := by
    simp only [compile, hsize, judge_graph]
  rw [hcompile]
  simp only [Compilation.ofValidated, hroot, hdescription, emit]
  rcases RootLog.program v ha hgiven hid hids hlog profile name with
    ⟨program, hprogram, hstates⟩ | ⟨⟨fault, hfault⟩, hlong⟩
  · rw [hprogram]
    refine ⟨fun _ => ⟨program, ?_, hstates⟩, fun hlong => absurd (hstates.writable v) hlong⟩
    rw [← hstates.lines_eq hprogram]
    rfl
  · rw [hfault]
    exact ⟨fun hwritable => absurd hwritable hlong, fun _ => rfl⟩

end Complete

def waiting (hours : Nat) : Node :=
  ⟨"d", .delay, [("delayAmount", .int hours), ("delayUnit", .str "hours")], none⟩

/-- A call whose failure is provided for; after its success some hours pass. -/
def callThenWait (hours : Nat) : Graph where
  nodes := [⟨"i", .input, [], none⟩, ⟨"a", .apiCall, [("apiUrl", .str "u")], none⟩,
    waiting hours, ⟨"x", .debug, [], none⟩]
  edges := [⟨"e1", "i", "a", none, none⟩, ⟨"e2", "a", "d", some "success", none⟩,
    ⟨"e3", "a", "x", some "error", none⟩]

theorem validate_callThenWait (hours : Nat) : validate (callThenWait hours) = .ok [] :=
  Validation.validate_eq_nil rfl (by cbv) rfl (by cbv) (by cbv) rfl

theorem acyclic_callThenWait (hours : Nat) : (callThenWait hours).Acyclic :=
  Graph.acyclic_of_rank ((["i", "a", "d", "x"] : List Text).idxOf ·)
    (show ∀ e ∈ (callThenWait 0).edges, _ from by decide)

theorem writable_waiting (hours : Nat) :
    (waiting hours).Writable ↔ hours * 3600 < Decimal.pow10 Text.maxDigits := by
  have hseconds : Template.seconds (waiting hours).settings = .ok (.int (hours * 3600)) := rfl
  have hshort : ∀ n : Nat, Text.isShort n = true ↔ n < Decimal.pow10 Text.maxDigits := by
    intro n
    rw [Text.isShort_iff, Int.natAbs_natCast]
  constructor
  · intro h
    exact (hshort (hours * 3600)).mp (h.seconds rfl _ hseconds)
  · intro hlt
    refine ⟨fun field hfield => ?_, fun _ x hx => ?_⟩
    · have hfields : (waiting hours).shownFields =
          (["description", "delayAmount", "delayUnit"] : List Text) := rfl
      rw [hfields] at hfield
      simp only [List.mem_cons, List.not_mem_nil, or_false] at hfield
      rcases hfield with rfl | rfl | rfl
      · rfl
      · exact (hshort hours).mpr (by omega)
      · rfl
    · obtain rfl := Except.ok.inj (hseconds.symm.trans hx)
      exact (hshort (hours * 3600)).mpr hlt

theorem writable_callThenWait (hours : Nat) :
    (callThenWait hours).Writable ↔ hours * 3600 < Decimal.pow10 Text.maxDigits := by
  have hentries : (callThenWait hours).entryIds = (["i"] : List Text) := by cbv
  rw [← writable_waiting]
  constructor
  · intro hwritable
    refine hwritable (waiting hours) (by simp [callThenWait]) ⟨"i", by simp [hentries], ?_⟩
    exact .tail (.single ⟨⟨"e1", "i", "a", none, none⟩, by simp [callThenWait], rfl, rfl⟩)
      ⟨⟨"e2", "a", "d", some "success", none⟩, by simp [callThenWait], rfl, rfl⟩
  · intro hwritable node hn _
    simp only [callThenWait, List.mem_cons, List.not_mem_nil, or_false] at hn
    rcases hn with rfl | rfl | rfl | rfl
    · exact (Node.writable_iff (by decide)).mpr (by decide)
    · exact (Node.writable_iff (by decide)).mpr (by decide)
    · exact hwritable
    · exact (Node.writable_iff (by decide)).mpr (by decide)

theorem id_mem_callThenWait {hours : Nat} {n : Node} (hn : n ∈ (callThenWait hours).nodes) :
    n.id ∈ (["i", "a", "d", "x"] : List Text) :=
  show n.id ∈ (callThenWait hours).nodes.map (·.id) from List.mem_map_of_mem hn

theorem given_callThenWait (hours : Nat) : ∀ n ∈ (callThenWait hours).nodes,
    ∀ field ∈ (["loopType", "joinStrategy", "delayUnit"] : List Text),
      n.config.get field ≠ .str [] := by
  intro n hn field hfield
  simp only [callThenWait, List.mem_cons, List.not_mem_nil, or_false] at hn hfield
  rcases hn with rfl | rfl | rfl | rfl <;> rcases hfield with rfl | rfl | rfl <;> nofun

theorem pow10_le {a b : Nat} (h : a ≤ b) : Decimal.pow10 a ≤ Decimal.pow10 b :=
  Nat.pow_le_pow_right (by omega) h

/-- Five hours can be waited for, but not a number of hours that can be written while its seconds
cannot. -/
theorem compile_callThenWait :
    (∃ program : Program, (compile .standard "w" none (callThenWait 5)).outcome =
        .compiled (sourceText (program.layout .standard "w")) [] ∧
      program.States .standard (callThenWait 5)) ∧
    (compile .standard "w" none
      (callThenWait (Decimal.pow10 Text.maxDigits - 1))).outcome = .refused [internalError] := by
  have hlarge : Decimal.pow10 5 ≤ Decimal.pow10 Text.maxDigits := pow10_le (by decide)
  have hsmall : Decimal.pow10 5 = 100000 := rfl
  have hne : ∀ a ∈ (["i", "a", "d", "x"] : List Text), a ≠ [] := by decide
  have hmark : ∀ a ∈ (["i", "a", "d", "x"] : List Text), ∀ b ∈ (["i", "a", "d", "x"] : List Text),
      a ≠ b ++ "#outcome" := by decide
  have hcompile := fun hours => compile_acyclic ⟨_, _, validate_callThenWait hours, rfl⟩
    (acyclic_callThenWait hours) (given_callThenWait hours)
    (fun n hn => hne _ (id_mem_callThenWait hn))
    (fun n hn m hm => hmark _ (id_mem_callThenWait hn) _ (id_mem_callThenWait hm))
    .standard "w" none rfl
  refine ⟨(hcompile 5).1 ((writable_callThenWait 5).mpr (by omega)), (hcompile _).2 fun hwritable => ?_⟩
  have hlt := (writable_callThenWait _).mp hwritable
  omega

end WorkflowCompiler
