import Mathlib
import WorkflowCompiler.Proofs.Compilation.Code
import WorkflowCompiler.Proofs.Compilation.Complete
import WorkflowCompiler.Proofs.Emission.Grammatical
import WorkflowCompiler.Proofs.Emission.Predecessor
import WorkflowCompiler.Proofs.Emission.Rooted
import WorkflowCompiler.Proofs.Resolution.Follow
import WorkflowCompiler.Proofs.Resolution.Walked
import WorkflowCompiler.Proofs.Template.Arguments

/-! # Edges in the code

A node that another one leads straight to refers to it as its predecessor, on a line of its construct
in the code. In the construct of a node at which several edges meet there is no such line.
-/
namespace WorkflowCompiler

namespace Block

theorem Formed.of_mem_children {b c : Block} (h : b.Formed) (hc : c ∈ b.children) : c.Formed := by
  cases h with
  | leaf _ => cases hc
  | chain hitems _ => exact hitems c hc
  | sequential _ hitems _ => exact hitems c hc
  | parallel _ hmembers _ => exact hmembers c hc
  | conditional _ _ htrue hfalse _ _ | outcome _ htrue hfalse _ _ =>
    rcases List.mem_pair.mp hc with rfl | rfl
    · exact htrue
    · exact hfalse
  | switch _ hroutes _ =>
    obtain ⟨r, hr, rfl⟩ := List.mem_map.mp hc
    exact hroutes r hr
  | loop _ _ hbody _ =>
    obtain rfl := List.mem_singleton.mp hc
    exact hbody

theorem Formed.of_within {b x : Block} (h : b.Formed) (hx : x.Within b) : x.Formed := by
  induction hx using Relation.ReflTransGen.head_induction_on with
  | refl => exact h
  | head hc _ ih => exact ih.of_mem_children hc

theorem Formed.apt {b : Block} (h : b.Formed) : b.Apt := by
  induction h with
  | leaf _ => exact .leaf
  | chain _ _ ih => exact .sequence nofun ih
  | sequential hk _ _ ih =>
    refine .sequence ?_ ih
    rintro _ ⟨⟩
    exact hk
  | parallel hk _ _ ih => exact .parallel hk ih
  | conditional hk _ _ _ _ _ ihtrue ihfalse => exact .branch (Or.inl hk) ihtrue ihfalse
  | outcome hports _ _ _ _ ihtrue ihfalse =>
    exact .branch (Or.inr ⟨by rw [hports]; rfl, outcomePorts_ne_nil hports⟩) ihtrue ihfalse
  | switch hk _ _ ih => exact .switch hk ih
  | loop hk _ _ _ ih => exact .loop hk ih

theorem Formed.typed {b : Block} (h : b.Formed) : b.Typed := by
  refine ⟨h.apt, fun n node hleaf => ?_⟩
  cases h.of_within hleaf with
  | leaf hk => exact hk

end Block

namespace Resolution
open Block

section Root
variable {g : Graph} {root : Block} {l : Laid} {made : List Block} {q : Progress}

theorem RootLog.legible (h : RootLog g root l made q) : Emission.Legible root where
  formed x hx := (h.root ▸ Formed.chain h.formed.2 h.formed.1 : root.Formed).of_within hx
  unique x y hx hy key hxk hyk := by
    obtain ⟨hq, _, _⟩ := (h.logged.mono fun hc => hc.tabled).tabled tableSound_start
    exact hq.unique (h.listed x hx key hxk) (h.listed y hy key hyk)

end Root

end Resolution

section Upstream
open Resolution Emission

variable {v : Validated} {root : Block} {l : Laid} {made : List Block} {q : Resolution.Progress}
  {profile : Profile} {name : Text} {program : Program}

theorem exists_program_of_compiled {ceiling : Option Int} {source : Text}
    {warnings : List Diagnostic}
    (h : (compile profile name ceiling v.graph).outcome = .compiled source warnings) :
    ∃ root program, (resolve v).block = .ok root ∧
      Program.ofBlock profile name root = .ok program ∧
      source = sourceText (program.lines profile name) := by
  have hsize : tooManyNodes v.graph ceiling = none := by
    cases hsize : tooManyNodes v.graph ceiling with
    | none => rfl
    | some d => simp [compile, hsize] at h
  rw [outcome_compile v hsize, Validated.code?] at h
  cases hblock : (resolve v).block with
  | error fault => simp [hblock, Except.toOption] at h
  | ok root =>
    cases hprogram : Program.ofBlock profile name root with
    | error fault => simp [hblock, emit, hprogram, Except.toOption, bind, Except.bind] at h
    | ok program =>
      refine ⟨root, program, rfl, hprogram, ?_⟩
      simp only [hblock, emit, hprogram, Except.toOption, bind, Except.bind, pure, Except.pure,
        Option.bind_some, Option.map_some, Option.elim_some, Compilation.compiled.injEq] at h
      exact h.1.symm

theorem nodup_bound_of_formed (hprofile : profile ∈ Profile.builtIn) (hroot : root.Formed)
    (hprogram : Program.ofBlock profile name root = .ok program) :
    (Statement.bound program.constructs).Nodup := by
  obtain ⟨⟨refs, p⟩, hrun, hmade⟩ := exists_of_bind_eq_ok hprogram
  have hdoes := binds_topReferences hprofile hroot.apt
  rw [Does, hrun] at hdoes
  cases hmade
  exact hdoes.tidy.distinct

/-- Every node that can be reached has a construct in the program of a graph, which refers to what
the block of the node follows. -/
theorem exists_constructs (hlog : RootLog v.graph root l made q)
    (hprogram : Program.ofBlock profile name root = .ok program) :
    ∃ p : Emission.Progress, program.constructs = p.statements ∧ Apart p ∧
      ∀ id, v.graph.Reached id → Stated profile root p id := by
  obtain ⟨refs, p, hmakes, rfl⟩ := makes_of_ofBlock hprogram
  have htop : topBlocks root = root.children := by
    rw [hlog.root]
    rfl
  rw [htop] at hmakes
  have hplaced : Task.Lies root (.start profile) (.items root.children none) := by
    have hroot := hlog.root
    subst hroot
    exact lies_items (.refl _) _
  obtain ⟨hreports, _⟩ := hmakes.reports hlog.legible hplaced
    fun _ _ _ hkey => absurd hkey List.not_mem_nil
  have hapart : Apart (.start profile) :=
    ⟨List.nodup_nil, fun _ h => absurd h List.not_mem_nil, fun _ h => absurd h List.not_mem_nil⟩
  refine ⟨p, rfl, hreports.grows.apart hapart, fun id hreached => ?_⟩
  have hentered : id ∈ entered made := (hlog.mem_entered_iff v.sound).mpr hreached
  obtain ⟨x, hx, hid⟩ := List.mem_filterMap.mp hentered
  have hwithin : x.Within root := hlog.within_iff.mpr (List.mem_append_left _ hx)
  rcases Block.within_iff.mp hwithin with rfl | ⟨b, hb, hwithin⟩
  · rw [hlog.root] at hid
    cases hid
  · exact hreports.stated b hb x hwithin id hid

/-- With the standard profile a construct refers to its predecessor, if it has one, and to nothing
else by that keyword. -/
theorem mem_args_after {template : Template} {node : Node} {ident label : Text} {parts : Parts}
    {predecessor : Option Text} {s : Statement}
    (h : template.statement .standard node ident label parts predecessor = .ok s)
    (hne : predecessor ≠ some []) {x : Expression} :
    (("after" : Text), x) ∈ s.args ↔ ∃ y, predecessor = some y ∧ x = .name y := by
  have hslot : ∀ slot, Profile.standard.keyword slot = some "after" → slot = .predecessor := by
    intro slot
    cases slot <;> simp [Profile.standard]
    all_goals decide
  rw [Template.mem_args_predecessor h rfl (by decide) (by decide) hslot]
  refine exists_congr fun y => and_congr_right fun hy => ?_
  exact and_iff_right fun hnil => hne (hnil ▸ hy)

/-- The lines of a construct that begin with the keyword of the predecessor. -/
theorem mem_layout_after {template : Template} {node : Node} {ident label : Text} {parts : Parts}
    {predecessor : Option Text} {s : Statement}
    (h : template.statement .standard node ident label parts predecessor = .ok s)
    (hne : predecessor ≠ some []) (hs : s.Sound .standard) {line : Text} :
    line ∈ s.layout ∧ ("    after=" : Text) <+: line ↔
      ∃ y, predecessor = some y ∧ line = ("    after=" : Text) ++ y ++ "," := by
  have hline : ∀ y : Text, argumentLine ("after", y) = ("    after=" : Text) ++ y ++ "," :=
    fun y => rfl
  constructor
  · rintro ⟨hmem, hafter⟩
    have hkey : Identifier.isValid "after" = true := by decide
    obtain ⟨e, harg, rfl⟩ := hs.exists_argument_of_keyword hkey hmem hafter
    obtain ⟨y, hy, rfl⟩ := (mem_args_after h hne).mp harg
    exact ⟨y, hy, hline y⟩
  · rintro ⟨y, hy, rfl⟩
    have harg := (mem_args_after h hne).mpr ⟨y, hy, rfl⟩
    refine ⟨hline y ▸ Statement.argumentLine_mem harg, ?_⟩
    exact ⟨y ++ ",", by rw [List.append_assoc]⟩

/-- In the code of an accepted graph without cycles, the construct of a node that continues another
one has one line with a predecessor, which names that one, and the construct of a node to which
several edges lead has no such line. -/
theorem compile_upstream (v : Validated) (ha : v.graph.Acyclic) {name : Text}
    {ceiling : Option Int} {source : Text} {warnings : List Diagnostic}
    (h : (compile .standard name ceiling v.graph).outcome = .compiled source warnings) :
    ∃ (program : Program) (ident : Text → Text),
      source = sourceText (program.layout .standard name) ∧
      (Statement.bound program.constructs).Nodup ∧
      (∀ a b, v.graph.Reached a → v.graph.Reached b → ident a = ident b → a = b) ∧
      ∀ node ∈ v.graph.nodes, v.graph.Reached node.id → ∃ s ∈ program.constructs,
        s.ident = ident node.id ∧
        (∃ parts predecessor, node.kind.template.statement .standard node (ident node.id) node.name
          parts predecessor = .ok s) ∧
        s.layout <:+: program.layout .standard name ∧
        (∀ e, v.graph.Continues e → e.target = node.id →
          ∀ line, line ∈ s.layout ∧ ("    after=" : Text) <+: line ↔
            line = ("    after=" : Text) ++ ident e.source ++ ",") ∧
        (∀ e ∈ v.graph.edges, ∀ e' ∈ v.graph.edges, e ≠ e' → e.target = node.id →
          e'.target = node.id → v.graph.Reached e.source → v.graph.Reached e'.source →
          ∀ line ∈ s.layout, ¬ ("    after=" : Text) <+: line) := by
  obtain ⟨root, program, hroot, hprogram, hsource⟩ := exists_program_of_compiled h
  obtain ⟨l, made, q, hlog⟩ := exists_rootLog hroot
  obtain ⟨p, hconstructs, hapart, hstated⟩ := exists_constructs hlog hprogram
  have hbuiltIn : Profile.standard ∈ Profile.builtIn := by simp [Profile.builtIn]
  obtain ⟨ident, hident⟩ : ∃ ident : Text → Text, ∀ id, v.graph.Reached id →
      p.bound id = some (ident id) := by
    refine ⟨fun id => (p.bound id).getD [], fun id hreached => ?_⟩
    obtain ⟨_, _, _, s, _, _, _, _, _, _, hbound, _⟩ := hstated id hreached
    simp [hbound]
  obtain ⟨hsound, hsound'⟩ := sound_ofBlock hbuiltIn (formed_of_resolve hroot).typed hprogram
  rw [Program.lines_eq_layout (fun s hs => (hsound s hs).given) hsound'.given] at hsource
  refine ⟨program, ident, hsource,
    nodup_bound_of_formed hbuiltIn (formed_of_resolve hroot) hprogram, ?_, ?_⟩
  · intro a b hra hrb heq
    exact hapart.eq_of_bound ((hident a hra).trans (congrArg some heq)) (hident b hrb)
  · intro node hnode hreached
    obtain ⟨previous, b, made, s, parts, predecessor, hplaced, hid, hmade, hs, hbound, hstatement,
      hheeds⟩ := hstated node.id hreached
    have hfits := hlog.fits v.sound ha hplaced hid
    obtain rfl : made = node := by
      have hname := hlog.names b hplaced.within made hmade
      rw [id_of_mainId? hid hmade, v.sound.node?_id hnode] at hname
      exact (Option.some.inj hname).symm
    have hself : s.ident = ident made.id :=
      Option.some.inj (hbound.symm.trans (hident made.id hreached))
    have hs : s ∈ program.constructs := hconstructs ▸ hs
    refine ⟨s, hs, hself, ⟨parts, predecessor, hself ▸ hstatement⟩, Program.layout_infix hs _ _,
      ?_, ?_⟩
    · intro e he htarget line
      obtain ⟨followed, rfl, hsource⟩ := hfits.continued e he htarget
      obtain ⟨y, hy, rfl⟩ := hheeds e.source hsource
      have hne : y ≠ [] := hapart.ne_nil_of_bound hy
      obtain rfl : y = ident e.source := Option.some.inj (hy.symm.trans (hident _ he.reached))
      rw [mem_layout_after hstatement (by simpa using hne) (hsound s hs)]
      simp
    · intro e he e' he' hne ht ht' hr hr' line hmem hafter
      have hmerge : made.id ∈ v.graph.merges := ht ▸ Graph.mem_merges (ha.mem_forwardEdges he hr)
        (ha.mem_forwardEdges he' hr') hne (ht'.trans ht.symm)
      obtain rfl : previous = none := hfits.merge hmerge
      obtain rfl : predecessor = none := hheeds
      obtain ⟨y, hy, -⟩ :=
        (mem_layout_after hstatement (by simp) (hsound s hs)).mp ⟨hmem, hafter⟩
      cases hy

/-- A loop that is left by its exit, beside a step. What follows both is a merge point. -/
def rejoining : Graph where
  nodes := [⟨"i", .input, [], none⟩, ⟨"h", .loop, [("loopCount", .int 2)], none⟩,
    ⟨"x", .debug, [], none⟩, ⟨"y", .debug, [], none⟩, ⟨"k", .debug, [], none⟩,
    ⟨"m", .debug, [], none⟩]
  edges := [⟨"e1", "i", "h", none, none⟩, ⟨"e2", "h", "x", some "loop", none⟩,
    ⟨"e3", "h", "y", some "exit", none⟩, ⟨"e4", "y", "m", none, none⟩,
    ⟨"e5", "i", "k", none, none⟩, ⟨"e6", "k", "m", none, none⟩]

theorem validate_rejoining : validate rejoining = .ok [] :=
  Validation.validate_eq_nil rfl rfl rfl (by cbv) (by cbv) rfl

theorem acyclic_rejoining : rejoining.Acyclic :=
  Graph.acyclic_of_rank ((["i", "h", "x", "y", "k", "m"] : List Text).idxOf ·) (by decide)

def rejoiningBlock : Block :=
  .sequence 9 [.leaf 1 ⟨"i", .input, [], none⟩,
    .loop 4 ⟨"h", .loop, [("loopCount", .int 2)], none⟩
      (.sequence 3 [.leaf 2 ⟨"x", .debug, [], none⟩] none none) .fixedCount [("count", .int 2)],
    .leaf 5 ⟨"y", .debug, [], none⟩, .leaf 8 ⟨"k", .debug, [], none⟩,
    .sequence 7 [.leaf 6 ⟨"m", .debug, [], none⟩] none (some "m")] none none

/-- The step behind the loop refers to the loop, and the merge point to none of the two steps before
it. -/
theorem compile_upstream_rejoining :
    ∃ (source : Text) (program : Program) (ident : Text → Text),
      (compile .standard "w" none rejoining).outcome = .compiled source [] ∧
      source = sourceText (program.layout .standard "w") ∧
      (∃ s ∈ program.constructs, s.ident = ident "y" ∧
        ("    after=" : Text) ++ ident "h" ++ "," ∈ s.layout) ∧
      (∃ s ∈ program.constructs, s.ident = ident "m" ∧
        ∀ line ∈ s.layout, ¬ ("    after=" : Text) <+: line) := by
  have hresolve : (resolve ⟨rejoining, [], validate_rejoining, rfl⟩).block =
      .ok rejoiningBlock := by
    cbv
  have hemit : (emit .standard "w" rejoiningBlock).isOk = true := by decide +kernel
  obtain ⟨lines, hlines⟩ : ∃ lines, emit .standard "w" rejoiningBlock = .ok lines := by
    cases h : emit .standard "w" rejoiningBlock with
    | ok lines => exact ⟨lines, rfl⟩
    | error fault =>
      rw [h] at hemit
      cases hemit
  have hcompile := outcome_compile_of_emit ⟨rejoining, [], validate_rejoining, rfl⟩ hresolve hlines
  have hentries : rejoining.entryIds = (["i"] : List Text) := by cbv
  have hi : rejoining.Reached "i" := ⟨"i", by simp [hentries], .refl⟩
  have hh := hi.step ⟨⟨"e1", "i", "h", none, none⟩, by decide, rfl, rfl⟩
  have hy := hh.step ⟨⟨"e3", "h", "y", some "exit", none⟩, by decide, rfl, rfl⟩
  have hk := hi.step ⟨⟨"e5", "i", "k", none, none⟩, by decide, rfl, rfl⟩
  have hm := hk.step ⟨⟨"e6", "k", "m", none, none⟩, by decide, rfl, rfl⟩
  have hcontinues : rejoining.Continues ⟨"e3", "h", "y", some "exit", none⟩ := by
    have hsingle : ∀ e ∈ rejoining.edges, e.target = "y" →
        e = ⟨"e3", "h", "y", some "exit", none⟩ := by decide
    exact ⟨by decide, hh, ⟨_, rfl, Or.inr ⟨rfl, by decide⟩⟩, by decide,
      fun e he ht _ => hsingle e he ht⟩
  obtain ⟨program, ident, hsource, _, _, hnodes⟩ :=
    compile_upstream ⟨rejoining, [], validate_rejoining, rfl⟩ acyclic_rejoining hcompile
  refine ⟨_, program, ident, hcompile, hsource, ?_, ?_⟩
  · obtain ⟨s, hs, hident, _, _, hafter, _⟩ :=
      hnodes ⟨"y", .debug, [], none⟩ (by simp [rejoining]) hy
    exact ⟨s, hs, hident, ((hafter _ hcontinues rfl _).mpr rfl).1⟩
  · obtain ⟨s, hs, hident, _, _, _, hnone⟩ := hnodes ⟨"m", .debug, [], none⟩ (by simp [rejoining]) hm
    exact ⟨s, hs, hident, hnone ⟨"e4", "y", "m", none, none⟩ (by decide)
      ⟨"e6", "k", "m", none, none⟩ (by decide) (by decide) rfl rfl hy hk⟩

end Upstream

end WorkflowCompiler
