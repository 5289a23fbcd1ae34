import Mathlib
import WorkflowCompiler.Proofs.Block.Within
import WorkflowCompiler.Proofs.Code.Body
import WorkflowCompiler.Proofs.Emission.Binding
import WorkflowCompiler.Proofs.Emission.Run
import WorkflowCompiler.Proofs.Template.Arguments

/-! # Emitted code keeps to the grammar

Names, labels, conditions and settings reach the code as comments of one line, as identifiers, as
literals, or in the header. None of them can end the comment, the literal or the header it stands
in, so that the code has the shape that the emission gives it.
-/
namespace WorkflowCompiler

namespace Profile
variable {profile : Profile}

theorem visible_construct (h : profile ∈ builtIn) (role : Role) :
    Text.Visible (profile.construct role) := by
  rcases List.mem_pair.mp h with rfl | rfl <;> cases role <;> decide

theorem isValid_keyword (h : profile ∈ builtIn) {slot : Slot} {k : Text}
    (hk : profile.keyword slot = some k) : Identifier.isValid k = true := by
  rcases List.mem_pair.mp h with rfl | rfl <;> cases slot <;> cases hk <;> decide

theorem isValid_rootIdentifier (h : profile ∈ builtIn) :
    Identifier.isValid profile.rootIdentifier = true := by
  rcases List.mem_pair.mp h with rfl | rfl <;> decide

end Profile

namespace Template
variable {template : Template} {profile : Profile} {node : Node} {ident label : Text}
  {parts : Parts} {predecessor : Option Text} {s : Statement}

theorem oneLine_remarks {kind : NodeKind} {settings : Members} {remarks : List Text}
    (h : template.remarks kind settings profile parts = .ok remarks)
    (hjoin : template = .parallel → ∃ join : JoinStrategy, parts.join = some (.str join.name)) :
    ∀ c ∈ remarks, Text.OneLine c := by
  cases template with
  | parallel =>
    obtain ⟨join, hjoin⟩ := hjoin rfl
    have hshown : (joinOf settings parts).shown = .ok join.name := by
      rw [joinOf, hjoin]
      rfl
    simp only [Template.remarks, hshown, ok_bind] at h
    split at h
    · cases h
      exact List.forall_mem_singleton.mpr (by cases join <;> decide)
    · cases h
      exact fun _ hc => absurd hc List.not_mem_nil
  | outcomeSplit =>
    cases kind <;> cases h <;> decide
  | agent | step | outcomeStep | delay | sequential | conditional | router | loop =>
    cases h
    exact fun _ hc => absurd hc List.not_mem_nil

theorem oneLine_wireName (kind : NodeKind) : Text.OneLine kind.wireName := by
  cases kind <;> decide

/-- A statement is sound if its parts are and the remark on a join shows one of the strategies. -/
theorem sound_statement (hprofile : profile ∈ Profile.builtIn)
    (h : template.statement profile node ident label parts predecessor = .ok s)
    (hident : Identifier.isValid ident = true)
    (hparts : ∀ e, some e ∈ parts.inner → e.Proper profile)
    (hpredecessor : ∀ x, predecessor = some x → Identifier.isValid x = true)
    (hjoin : template = .parallel → ∃ join : JoinStrategy, parts.join = some (.str join.name)) :
    s.Sound profile := by
  have hargument : ∀ arg ∈ s.args, Identifier.isValid arg.1 = true ∧ arg.2.Proper profile := by
    intro arg harg
    rcases argument_cases h harg with ⟨hkeyword, hvalue⟩ | horigin | ⟨hkeyword, x, hx, _, hvalue⟩
    · rw [hkeyword, hvalue]
      exact ⟨by decide, .literal⟩
    · constructor
      · rcases horigin.keyword with ⟨k, hk, heq⟩ | ⟨slot, _, heq⟩
        · have hfixed : ∀ k ∈ fixedKeywords, Identifier.isValid k = true := by decide
          rw [Option.some.inj heq]
          exact hfixed k hk
        · exact Profile.isValid_keyword hprofile heq.symm
      · rcases horigin.expression with ⟨l, hl⟩ | hinner | hlist
        · exact hl ▸ .literal
        · exact hparts arg.2 hinner
        · exact hlist ▸ .list fun e he => absurd he List.not_mem_nil
    · rw [hvalue]
      exact ⟨Profile.isValid_keyword hprofile hkeyword, .name (hpredecessor x hx)⟩
  have hgiven := args_ne_nil h
  obtain ⟨args, hargs, h⟩ := exists_of_bind_eq_ok h
  obtain ⟨remarks, hremarks, h⟩ := exists_of_bind_eq_ok h
  cases h
  refine ⟨List.forall_mem_cons.mpr ⟨?_, oneLine_remarks hremarks hjoin⟩, hident, ⟨_, rfl⟩, hgiven,
    fun arg harg => (hargument arg harg).1, fun arg harg => (hargument arg harg).2⟩
  have hopen : Text.OneLine " (" := by decide
  have hclose : Text.OneLine ")" := by decide
  exact (((Text.oneLine_oneLine label).append hopen).append (oneLine_wireName node.kind)).append
    hclose

end Template

/-- Every node is of a kind that its block stands for. -/
structure Block.Typed (b : Block) : Prop where
  apt : b.Apt
  leaves : ∀ n node, (Block.leaf n node).Within b → node.kind.isContainer = false

namespace Block

theorem Typed.of_mem_children {b c : Block} (h : b.Typed) (hc : c ∈ b.children) : c.Typed :=
  ⟨h.apt.of_mem_children hc,
    fun n node hleaf => h.leaves n node (hleaf.trans (within_of_mem_children hc))⟩

theorem Typed.of_children {b : Block} (hapt : b.Apt)
    (hleaf : ∀ n node, b = .leaf n node → node.kind.isContainer = false)
    (h : ∀ c ∈ b.children, c.Typed) : b.Typed := by
  refine ⟨hapt, fun n node hwithin => ?_⟩
  rcases within_iff.mp hwithin with heq | ⟨c, hc, hinner⟩
  · exact hleaf n node heq.symm
  · exact (h c hc).leaves n node hinner

theorem Typed.template_ne_parallel {b : Block} (h : b.Typed) {node : Node}
    (hnode : b.node? = some node)
    (hb : ∀ n node members join, b ≠ .parallel n node members join) :
    node.kind.template ≠ .parallel := by
  cases h.apt with
  | absent => cases hnode
  | leaf =>
    cases hnode
    have hkind := h.leaves _ node (.refl _)
    intro htemplate
    cases hk : node.kind <;> simp [hk, NodeKind.template, NodeKind.isContainer] at htemplate hkind
  | sequence hk _ => simp [hk node hnode, NodeKind.template]
  | parallel _ _ => exact absurd rfl (hb _ _ _ _)
  | branch hk _ _ =>
    cases hnode
    intro htemplate
    cases hkind : node.kind <;> simp [hkind, NodeKind.template] at htemplate
    simp [hkind, NodeKind.outcomePorts?] at hk
  | switch hk _ =>
    cases hnode
    simp [hk, NodeKind.template]
  | loop hk _ =>
    cases hnode
    simp [hk, NodeKind.template]

end Block

namespace Emission
variable {profile : Profile} {p q : Progress}

/-- Everything stated so far is sound, and shared sequences go by valid identifiers. -/
structure Clean (profile : Profile) (p : Progress) : Prop where
  statements : ∀ s ∈ p.statements, s.Sound profile
  shared : ∀ x ∈ p.shared, Identifier.isValid x.2 = true

theorem clean_start (profile : Profile) : Clean profile (.start profile) :=
  ⟨fun _ h => absurd h List.not_mem_nil, fun _ h => absurd h List.not_mem_nil⟩

theorem Clean.opened (h : Clean profile p) (label : Text) : Clean profile (p.opened label) :=
  ⟨h.statements, h.shared⟩

theorem Clean.owned (h : Clean profile p) (key label : Text) : Clean profile (p.owned key label) :=
  ⟨h.statements, h.shared⟩

theorem Clean.stating (h : Clean profile p) {s : Statement} (hs : s.Sound profile) :
    Clean profile (p.stating s) :=
  ⟨List.forall_mem_append.mpr ⟨h.statements, List.forall_mem_singleton.mpr hs⟩, h.shared⟩

theorem Clean.sharing (h : Clean profile p) (key : Text) {ident : Text}
    (hident : Identifier.isValid ident = true) : Clean profile (p.sharing key ident) :=
  ⟨h.statements, List.forall_mem_cons.mpr ⟨hident, h.shared⟩⟩

theorem isValid_childrenKeyword (hprofile : profile ∈ Profile.builtIn) :
    Identifier.isValid (childrenKeyword profile) = true := by
  rcases List.mem_pair.mp hprofile with rfl | rfl <;> decide

theorem proper_sequenceArguments (hprofile : profile ∈ Profile.builtIn) (label ident : Text)
    {refs : List Text} (hrefs : ∀ x ∈ refs, Identifier.isValid x = true) :
    ∀ arg ∈ sequenceArguments profile label ident refs,
      Identifier.isValid arg.1 = true ∧ arg.2.Proper profile := by
  intro arg harg
  rcases List.mem_pair.mp harg with rfl | rfl
  · have hname : Identifier.isValid "name" = true := by decide
    exact ⟨hname, .literal⟩
  · exact ⟨isValid_childrenKeyword hprofile, Expression.proper_names hrefs⟩

theorem sound_sequenceStatement (hprofile : profile ∈ Profile.builtIn) (label : Text)
    {ident : Text} (hident : Identifier.isValid ident = true) {refs : List Text}
    (hrefs : ∀ x ∈ refs, Identifier.isValid x = true) :
    (sequenceStatement profile label ident refs).Sound profile where
  comments := fun _ h => absurd h List.not_mem_nil
  ident := hident
  construct := ⟨.sequence, rfl⟩
  given := List.cons_ne_nil _ _
  keywords arg harg := (proper_sequenceArguments hprofile label ident hrefs arg harg).1
  values arg harg := (proper_sequenceArguments hprofile label ident hrefs arg harg).2

/-- A task about blocks whose nodes fit them, behind something with a valid identifier. -/
def Task.Fits : Task → Prop
  | .whole b predecessor => b.Typed ∧ ∀ x, predecessor = some x → Identifier.isValid x = true
  | .items bs previous =>
    (∀ b ∈ bs, b.Typed) ∧ ∀ x, previous = some x → Identifier.isValid x = true
  | .arm b _ _ _ => b.Typed
  | .routes arms _ _ => ∀ r ∈ arms, r.2.Typed
  | .members bs => ∀ b ∈ bs, b.Typed

theorem isValid_of_proper {ident : Text} (h : Expression.Proper profile (.name ident)) :
    Identifier.isValid ident = true := by
  cases h with
  | name h => exact h

theorem isValid_of_proper_names {refs : List Text}
    (h : ∀ e ∈ refs.map Expression.name, e.Proper profile) :
    ∀ x ∈ refs, Identifier.isValid x = true :=
  fun _ hx => isValid_of_proper (h _ (List.mem_map_of_mem hx))

theorem proper_fresh (p : Progress) (label : Text) :
    ∀ e ∈ [Expression.name (p.fresh label)], e.Proper profile :=
  List.forall_mem_singleton.mpr (.name (p.isValid_fresh label))

section Constructs
variable (hprofile : profile ∈ Profile.builtIn) {label : Text} {refs : List Text}
include hprofile

theorem Clean.sequence (hq : Clean profile q)
    (hes : ∀ e ∈ refs.map Expression.name, e.Proper profile) :
    Clean profile (q.stating (sequenceStatement profile label (p.fresh label) refs)) :=
  hq.stating (sound_sequenceStatement hprofile label (p.isValid_fresh label)
    (isValid_of_proper_names hes))

/-- The construct of a node is stated behind its inner blocks, which give it proper parts. -/
theorem Clean.node (hq : Clean profile q) {template : Template} {node : Node} {parts : Parts}
    {predecessor : Option Text} {s : Statement}
    (hs : template.statement profile node (p.fresh label) label parts predecessor = .ok s)
    (hpredecessor : ∀ x, predecessor = some x → Identifier.isValid x = true)
    (hparts : ∀ e, some e ∈ parts.inner → e.Proper profile)
    (hjoin : template = .parallel → ∃ join : JoinStrategy, parts.join = some (.str join.name)) :
    Clean profile (q.stating s) ∧ ∀ e ∈ [Expression.name (p.fresh label)], e.Proper profile :=
  ⟨hq.stating (Template.sound_statement hprofile hs (p.isValid_fresh label) hparts hpredecessor
    hjoin), proper_fresh p label⟩

end Constructs

theorem proper_arms {condition : Option Value} {ifTrue ifFalse : Expression}
    (htrue : ∀ e ∈ [ifTrue], e.Proper profile) (hfalse : ∀ e ∈ [ifFalse], e.Proper profile) :
    ∀ e, some e ∈ ({ condition, ifTrue := some ifTrue, ifFalse := some ifFalse } : Parts).inner →
      e.Proper profile := by
  have hboth := And.intro (List.forall_mem_singleton.mp htrue) (List.forall_mem_singleton.mp hfalse)
  simpa [Parts.inner, or_imp, forall_and] using hboth

/-- What is emitted for blocks whose nodes fit them is sound. The induction follows the rules: a
construct is stated behind its inner blocks, which give it proper expressions. -/
theorem Makes.clean {task : Task} {es : List Expression} (hprofile : profile ∈ Profile.builtIn)
    (h : Makes profile task p es q) (htask : task.Fits) (hp : Clean profile p) :
    Clean profile q ∧ ∀ e ∈ es, e.Proper profile := by
  have hnone : ∀ x, (none : Option Text) = some x → Identifier.isValid x = true := by simp
  induction h with
  | leaf _ hs =>
    obtain ⟨hb, hpredecessor⟩ := htask
    exact (hp.owned _ _).node hprofile hs hpredecessor (by simp [Parts.inner])
      (absurd · (hb.template_ne_parallel rfl (by simp)))
  | known _ hknown =>
    exact ⟨hp, List.forall_mem_singleton.mpr (.name (hp.shared _ (mem_of_lookup hknown)))⟩
  | single _ _ _ ih =>
    obtain ⟨hb, _⟩ := htask
    obtain ⟨hq, hes⟩ := ih ⟨hb.of_mem_children List.mem_cons_self, hnone⟩ hp
    exact ⟨hq.sharing _ (isValid_of_proper (List.forall_mem_singleton.mp hes)), hes⟩
  | shared _ _ _ _ ih =>
    obtain ⟨hq, hes⟩ := ih ⟨fun b => htask.1.of_mem_children, hnone⟩ (hp.opened _)
    exact ⟨(hq.sequence hprofile hes).sharing _ (Progress.isValid_fresh _ _), proper_fresh _ _⟩
  | plain _ _ ih =>
    obtain ⟨hq, hes⟩ := ih ⟨fun b => htask.1.of_mem_children, hnone⟩ (hp.opened _)
    exact ⟨hq.sequence hprofile hes, proper_fresh _ _⟩
  | @container _ _ _ _ refs _ _ _ _ _ _ _ hs ih =>
    obtain ⟨hb, hpredecessor⟩ := htask
    obtain ⟨hq, hes⟩ := ih ⟨fun b => hb.of_mem_children, hnone⟩ (hp.owned _ _)
    have hnames : Expression.Proper profile (.names refs) :=
      Expression.proper_names (isValid_of_proper_names hes)
    exact hq.node hprofile hs hpredecessor (by simpa [Parts.inner] using hnames)
      (absurd · (hb.template_ne_parallel rfl (by simp)))
  | @parallel _ _ _ _ join refs _ _ _ _ _ hsorted _ hs ih =>
    obtain ⟨hb, hpredecessor⟩ := htask
    obtain ⟨hq, hes⟩ := ih (fun b h => hb.of_mem_children (hsorted.mem_iff.mp h)) (hp.owned _ _)
    have hnames : Expression.Proper profile (.names refs) :=
      Expression.proper_names (isValid_of_proper_names hes)
    exact hq.node hprofile hs hpredecessor (by simpa [Parts.inner] using hnames)
      fun _ => ⟨join, rfl⟩
  | conditional _ _ _ _ hs ihtrue ihfalse =>
    obtain ⟨hb, hpredecessor⟩ := htask
    obtain ⟨hq, htrue⟩ := ihtrue (hb.of_mem_children (by simp [Block.children])) (hp.owned _ _)
    obtain ⟨hr, hfalse⟩ := ihfalse (hb.of_mem_children (by simp [Block.children])) hq
    exact hr.node hprofile hs hpredecessor (proper_arms htrue hfalse)
      (absurd · (hb.template_ne_parallel rfl (by simp)))
  | outcome _ _ _ _ _ hs ihtrue ihfalse =>
    obtain ⟨hb, hpredecessor⟩ := htask
    obtain ⟨hq, htrue⟩ := ihtrue (hb.of_mem_children (by simp [Block.children])) (hp.owned _ _)
    obtain ⟨hr, hfalse⟩ := ihfalse (hb.of_mem_children (by simp [Block.children])) hq
    exact hr.node hprofile hs hpredecessor (proper_arms htrue hfalse) (by simp)
  | switch _ _ hs ih =>
    obtain ⟨hb, hpredecessor⟩ := htask
    obtain ⟨hq, hes⟩ := ih (fun r hr => hb.of_mem_children (List.mem_map_of_mem hr)) (hp.owned _ _)
    exact hq.node hprofile hs hpredecessor (by simpa [Parts.inner] using Expression.Proper.list hes)
      (absurd · (hb.template_ne_parallel rfl (by simp)))
  | @loop _ _ _ _ _ inner _ _ _ _ _ _ hs ih =>
    obtain ⟨hb, hpredecessor⟩ := htask
    obtain ⟨hq, hes⟩ := ih (hb.of_mem_children List.mem_cons_self) (hp.owned _ _)
    have hbody : Expression.Proper profile (if profile.bodyAsList then .list [inner] else inner) := by
      split
      · exact .list hes
      · exact List.forall_mem_singleton.mp hes
    exact hq.node hprofile hs hpredecessor (by simpa [Parts.inner] using hbody)
      (absurd · (hb.template_ne_parallel rfl (by simp)))
  | itemsNil | routesNil | membersNil => exact ⟨hp, fun _ he => absurd he List.not_mem_nil⟩
  | itemsCons _ _ ih ihrest =>
    obtain ⟨hbs, hprevious⟩ := htask
    obtain ⟨hb, hbs⟩ := List.forall_mem_cons.mp hbs
    obtain ⟨hq, hident⟩ := ih ⟨hb, hprevious⟩ hp
    have hident := List.forall_mem_singleton.mp hident
    obtain ⟨hr, hes⟩ := ihrest ⟨hbs, by
      intro x hx
      split at hx
      · cases hx
      · cases hx
        exact isValid_of_proper hident⟩ hq
    exact ⟨hr, List.forall_mem_cons.mpr ⟨hident, hes⟩⟩
  | armShared _ _ ih => exact ih ⟨htask, hnone⟩ hp
  | @armPlain _ _ _ _ label ident exit _ _ _ _ _ ih =>
    obtain ⟨hq, hes⟩ := ih ⟨fun b => htask.of_mem_children, hnone⟩ hp
    have hargs := proper_sequenceArguments hprofile (label ++ " " ++ exit) (ident ++ "_" ++ exit)
      (isValid_of_proper_names hes)
    exact ⟨hq, List.forall_mem_singleton.mpr
      (.call (fun arg harg => (hargs arg harg).1) fun arg harg => (hargs arg harg).2)⟩
  | routesCons _ _ ih ihrest =>
    obtain ⟨hb, hbs⟩ := List.forall_mem_cons.mp htask
    obtain ⟨hq, hinner⟩ := ih hb hp
    obtain ⟨hr, hes⟩ := ihrest hbs hq
    exact ⟨hr, List.forall_mem_cons.mpr ⟨.pair (List.forall_mem_singleton.mp hinner), hes⟩⟩
  | membersCons _ _ ih ihrest =>
    obtain ⟨hb, hbs⟩ := List.forall_mem_cons.mp htask
    obtain ⟨hq, hident⟩ := ih ⟨hb, hnone⟩ hp
    obtain ⟨hr, hes⟩ := ihrest hbs hq
    exact ⟨hr, List.forall_mem_cons.mpr ⟨List.forall_mem_singleton.mp hident, hes⟩⟩

/-! ## The code of a workflow -/

theorem sound_rootStatement (hprofile : profile ∈ Profile.builtIn) (name : Text) {refs : List Text}
    (hrefs : ∀ x ∈ refs, Identifier.isValid x = true) :
    (rootStatement profile name refs).Sound profile where
  comments := fun _ h => absurd h List.not_mem_nil
  ident := Profile.isValid_rootIdentifier hprofile
  construct := ⟨.sequence, rfl⟩
  given := List.cons_ne_nil _ _
  keywords arg harg := (proper_sequenceArguments hprofile name _ hrefs arg harg).1
  values arg harg := (proper_sequenceArguments hprofile name _ hrefs arg harg).2

theorem typed_of_mem_topBlocks {b c : Block} (h : b.Typed) (hc : c ∈ topBlocks b) : c.Typed := by
  unfold topBlocks at hc
  split at hc
  · split at hc
    · exact h.of_mem_children hc
    · exact List.mem_singleton.mp hc ▸ h
  · exact List.mem_singleton.mp hc ▸ h

/-- The name of a workflow is shown on one line, without quotes and backslashes. -/
theorem headerName_plain (name : Text) :
    Text.OneLine (headerName name) ∧ .char '"' ∉ headerName name ∧ .char '\\' ∉ headerName name := by
  refine ⟨?_, Text.not_mem_replaceAll_self (by decide), ?_⟩
  · exact ((Text.oneLine_oneLine name).replaceAll (by decide)).replaceAll (by decide)
  · exact Text.not_mem_replaceAll (by decide) (Text.not_mem_replaceAll_self (by decide))

theorem isBody_rule {title : Text} (h : Text.OneLine title) {rest : List Text}
    (hrest : IsBody profile rest) : IsBody profile (rule title :: rest) := by
  have hrule : rule title = commentLine ("── " ++ title ++ " " ++
      List.replicate (72 - title.length) (CodePoint.char '─')) := by
    rw [rule, commentLine, ← List.append_assoc, ← List.append_assoc, ← List.append_assoc]
    rfl
  have hmark : Text.OneLine "── " := by decide
  have hspace : Text.OneLine " " := by decide
  have hline : Text.OneLine (List.replicate (72 - title.length) (CodePoint.char '─')) := by
    intro p hp
    rw [List.eq_of_mem_replicate hp]
    decide
  rw [hrule]
  exact .comment (((hmark.append h).append hspace).append hline) hrest

theorem isBody_constructs {statements : List Statement} (h : ∀ s ∈ statements, s.Sound profile)
    {rest : List Text} (hrest : IsBody profile rest) :
    IsBody profile (constructs statements ++ rest) := by
  rw [constructs]
  split
  · exact hrest
  · have hlines : IsBody profile (statements.flatMap fun s => s.lines ++ [emptyLine]) :=
      .flatMap fun s hs => (h s hs).isBody.append (.empty .nil)
    exact isBody_rule (by decide) (hlines.append hrest)

def body (program : Program) : List Text :=
  [emptyLine, emptyLine] ++ constructs program.constructs ++ rule "Workflow" :: program.root.lines

theorem lines_eq (hprofile : profile ∈ Profile.builtIn) (name : Text) (program : Program) :
    program.lines profile name = header name ++ profile.imports ++ body program ++
      exports profile ++ entrypoint profile := by
  have himports : imports profile = profile.imports ++ [emptyLine, emptyLine] := by
    rcases List.mem_pair.mp hprofile with rfl | rfl <;> rfl
  simp [Program.lines, body, himports]

theorem sound_ofBlock (hprofile : profile ∈ Profile.builtIn) {name : Text} {block : Block}
    (hblock : block.Typed) {program : Program}
    (h : Program.ofBlock profile name block = .ok program) :
    (∀ s ∈ program.constructs, s.Sound profile) ∧ program.root.Sound profile := by
  obtain ⟨refs, q, hmakes, rfl⟩ := makes_of_ofBlock h
  obtain ⟨hq, hrefs⟩ := hmakes.clean hprofile
    ⟨fun b => typed_of_mem_topBlocks hblock, nofun⟩ (clean_start profile)
  exact ⟨hq.statements, sound_rootStatement hprofile name (isValid_of_proper_names hrefs)⟩

theorem isBody_body (hprofile : profile ∈ Profile.builtIn) {name : Text} {block : Block}
    (hblock : block.Typed) {program : Program}
    (h : Program.ofBlock profile name block = .ok program) : IsBody profile (body program) := by
  obtain ⟨hconstructs, hroot⟩ := sound_ofBlock hprofile hblock h
  exact .empty (.empty (isBody_constructs hconstructs (isBody_rule (by decide) hroot.isBody)))

theorem unbroken_header (name : Text) : ∀ line ∈ header name, ∀ p ∈ line, p.endsLine = false := by
  have hfirst : ∀ p ∈ ("Workflow: " : Text) ++ headerName name, p.endsLine = false := by
    have hlabel : Text.OneLine "Workflow: " := by decide
    exact fun p hp => CodePoint.endsLine_of_not_isLineBreak
      (hlabel.append (headerName_plain name).1 p hp)
  simp only [header, List.forall_mem_cons]
  exact ⟨by decide, hfirst, by decide, by decide, by decide, by decide, by decide, by simp⟩

theorem unbroken_fixed (hprofile : profile ∈ Profile.builtIn) :
    ∀ line ∈ profile.imports ++ exports profile ++ entrypoint profile,
      ∀ p ∈ line, p.endsLine = false := by
  rcases List.mem_pair.mp hprofile with rfl | rfl <;> decide

theorem intercalate_append_nil {separator : Text} {lines : List Text} (h : lines ≠ []) :
    separator.intercalate (lines ++ [[]]) = separator.intercalate lines ++ separator := by
  induction lines with
  | nil => exact absurd rfl h
  | cons line rest ih =>
    by_cases hrest : rest = []
    · simp [hrest, List.intercalate_cons_cons]
    · rw [List.cons_append, List.intercalate_cons_of_ne_nil (by simp),
        List.intercalate_cons_of_ne_nil hrest, ih hrest]
      simp

theorem splitOn_sourceText {lines : List Text} (hlines : lines ≠ [])
    (h : ∀ line ∈ lines, ∀ p ∈ line, p.endsLine = false) :
    (sourceText lines).splitOn (.char '\n') = lines ++ [[]] := by
  have hjoin : sourceText lines = [.char '\n'].intercalate (lines ++ [[]]) :=
    (intercalate_append_nil hlines).symm
  rw [hjoin]
  refine List.splitOn_intercalate _ ?_ (by simp)
  intro line hline hp
  rcases List.mem_append.mp hline with hline | hline
  · exact absurd (h line hline _ hp) (by decide)
  · rw [List.mem_singleton.mp hline] at hp
    cases hp

/-- Whatever the texts in a block and the name of the workflow are, the code is a header of fixed
lines around a plain name, the imports, a body, the exports and the entry point. -/
theorem emit_grammatical (hprofile : profile ∈ Profile.builtIn) {name : Text} {block : Block}
    (hblock : block.Typed) {lines : List Text} (h : emit profile name block = .ok lines) :
    ∃ (shown : Text) (body : List Text),
      lines = (["\"\"\"", "Workflow: " ++ shown, "",
          "Generated by agentflow from a workflow graph.",
          "Do not edit by hand; recompile the graph to regenerate.", "\"\"\"", ""] : List Text) ++
        profile.imports ++ body ++ exports profile ++ entrypoint profile ∧
      (Text.OneLine shown ∧ .char '"' ∉ shown ∧ .char '\\' ∉ shown) ∧ IsBody profile body ∧
      (∀ line ∈ lines, ∀ p ∈ line, p.endsLine = false) ∧
      (sourceText lines).splitOn (.char '\n') = lines ++ [[]] := by
  obtain ⟨program, hprogram, hlines⟩ := exists_of_bind_eq_ok h
  have hbody := isBody_body hprofile hblock hprogram
  have heq : lines = header name ++ profile.imports ++ body program ++ exports profile ++
      entrypoint profile := by
    cases hlines
    exact lines_eq hprofile name program
  have hunbroken : ∀ line ∈ lines, ∀ p ∈ line, p.endsLine = false := by
    have hfixed := unbroken_fixed hprofile
    intro line hline
    rw [heq] at hline
    simp only [List.mem_append] at hline hfixed
    rcases hline with (((hline | hline) | hline) | hline) | hline
    · exact unbroken_header name line hline
    · exact hfixed line (Or.inl (Or.inl hline))
    · exact hbody.unbroken (Profile.visible_construct hprofile) line hline
    · exact hfixed line (Or.inl (Or.inr hline))
    · exact hfixed line (Or.inr hline)
  have hne : lines ≠ [] := by simp [heq, header]
  exact ⟨headerName name, body program, heq, headerName_plain name, hbody, hunbroken,
    splitOn_sourceText hne hunbroken⟩

/-- A text that would end a docstring, a string literal or a comment. -/
def breakout : Text := "\"\"\"\nimport os\\"

/-- Blocks with such texts where they can stand. -/
def hostile : Block :=
  .sequence 5 [.leaf 1 ⟨"i", .input, [("name", .str breakout)], none⟩,
    .parallel 4 ⟨breakout, .parallel, [("joinStrategy", .str breakout)], none⟩
      [.sequence 3 [.leaf 2 ⟨"a", .agent, [("model", .list [.str breakout]),
        ("instruction", .object [(breakout, .null)])], none⟩] none none] .race] none none

theorem typed_hostile : hostile.Typed := by
  have hleaf : ∀ (n : Nat) (node : Node), node.kind.isContainer = false →
      (Block.leaf n node).Typed := by
    refine fun n node hkind => .of_children .leaf ?_ fun _ hc => absurd hc List.not_mem_nil
    rintro _ _ ⟨⟩
    exact hkind
  have hsequence : ∀ (n : Nat) (items : List Block), (∀ b ∈ items, b.Typed) →
      (Block.sequence n items none none).Typed :=
    fun n items h => .of_children (.sequence nofun fun b hb => (h b hb).apt) nofun h
  refine hsequence _ _ (List.forall_mem_cons.mpr ⟨hleaf _ _ rfl, List.forall_mem_singleton.mpr ?_⟩)
  have hmember := hsequence 3 _ (List.forall_mem_singleton.mpr (hleaf 2
    ⟨"a", .agent, [("model", .list [.str breakout]),
      ("instruction", .object [(breakout, .null)])], none⟩ rfl))
  exact .of_children (.parallel rfl (List.forall_mem_singleton.mpr hmember.apt)) nofun
    (List.forall_mem_singleton.mpr hmember)

theorem emit_grammatical_hostile : ∃ lines body, emit .adk breakout hostile = .ok lines ∧
    body <:+: lines ∧ IsBody .adk body ∧
    (sourceText lines).splitOn (.char '\n') = lines ++ [[]] := by
  have hemit : (emit .adk breakout hostile).isOk = true := by decide +kernel
  obtain ⟨lines, hlines⟩ : ∃ lines, emit .adk breakout hostile = .ok lines := by
    cases h : emit .adk breakout hostile with
    | ok lines => exact ⟨lines, rfl⟩
    | error fault =>
      rw [h] at hemit
      cases hemit
  obtain ⟨shown, body, heq, _, hbody, _, hsplit⟩ :=
    emit_grammatical (by simp [Profile.builtIn]) typed_hostile hlines
  refine ⟨lines, body, hlines, ?_, hbody, hsplit⟩
  rw [heq, List.append_assoc _ (exports _)]
  exact List.infix_append _ _ _

end Emission

end WorkflowCompiler
