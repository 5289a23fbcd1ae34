import Mathlib
import WorkflowCompiler.Proofs.Emission.Run
import WorkflowCompiler.Proofs.Profile.Read
import WorkflowCompiler.Proofs.Template.Arguments

/-! # Keywords of calls

A template passes a keyword once, whatever the profile calls its slots: of two arguments with one
keyword the first one counts. A sequence that stands for itself, the root among them, is stated
without a template, so its name and its children go by one keyword if the profile calls the children
what the name is called. Code is read with keywords in a normal form, which leaves plain letters
alone. A call then repeats a keyword also if two keywords are spelled differently but read the same.
-/
namespace WorkflowCompiler

/-- The keywords of every call inside an expression have a property. -/
inductive Expression.EachCall (P : List Text → Prop) : Expression → Prop
  | literal (l : Literal) : EachCall P (.literal l)
  | name (ident : Text) : EachCall P (.name ident)
  | list {items : List Expression} (h : ∀ e ∈ items, EachCall P e) : EachCall P (.list items)
  | pair {label : Text} {e : Expression} (h : EachCall P e) : EachCall P (.pair label e)
  | call {construct : Text} {args : List (Text × Expression)} (hself : P (args.map (·.1)))
    (h : ∀ arg ∈ args, EachCall P arg.2) : EachCall P (.call construct args)

theorem Expression.EachCall.mono {P Q : List Text → Prop} (h : ∀ keywords, P keywords → Q keywords)
    {e : Expression} (he : e.EachCall P) : e.EachCall Q := by
  induction he with
  | literal l => exact .literal l
  | name ident => exact .name ident
  | list _ ih => exact .list ih
  | pair _ ih => exact .pair ih
  | call hself _ ih => exact .call (h _ hself) ih

/-- The keywords of the call that a statement is, and of those inside it, have a property. -/
def Statement.EachCall (P : List Text → Prop) (s : Statement) : Prop :=
  P s.keywords ∧ ∀ arg ∈ s.args, arg.2.EachCall P

variable {P : List Text → Prop} {profile : Profile}

theorem Expression.eachCall_names (idents : List Text) : (Expression.names idents).EachCall P := by
  refine .list fun e he => ?_
  obtain ⟨ident, _, rfl⟩ := List.mem_map.mp he
  exact .name ident

namespace Template

theorem nodup_addArgument {args : List (Text × Expression)} (h : (args.map (·.1)).Nodup)
    (arg : Argument) : ((addArgument args arg).map (·.1)).Nodup := by
  unfold addArgument
  split
  · exact h
  next keyword _ =>
    split
    · exact h
    next hnew =>
      rw [List.map_append, List.map_singleton, List.nodup_append]
      refine ⟨h, List.nodup_singleton _, ?_⟩
      rintro a ha _ hb rfl
      rw [List.mem_singleton.mp hb] at ha
      obtain ⟨x, hx, hkey⟩ := List.mem_map.mp ha
      exact hnew (List.any_eq_true.mpr ⟨x, hx, by simpa using hkey⟩)

theorem nodup_foldl_addArgument (added : List Argument) {args : List (Text × Expression)}
    (h : (args.map (·.1)).Nodup) : ((added.foldl addArgument args).map (·.1)).Nodup := by
  induction added generalizing args with
  | nil => exact h
  | cons arg rest ih => exact ih (nodup_addArgument h arg)

section Statement
variable {template : Template} {node : Node} {ident label : Text} {parts : Parts}
  {predecessor : Option Text} {s : Statement}

theorem keywords_nodup (h : template.statement profile node ident label parts predecessor = .ok s) :
    s.keywords.Nodup := by
  obtain ⟨args, _, heq⟩ := statement_args h
  rw [Statement.keywords, heq]
  exact nodup_foldl_addArgument _ (List.nodup_singleton _)

theorem eachCall_of_mem_args
    (h : template.statement profile node ident label parts predecessor = .ok s)
    (hparts : ∀ e, some e ∈ parts.inner → e.EachCall P) : ∀ arg ∈ s.args, arg.2.EachCall P := by
  intro arg harg
  rcases argument_cases h harg with ⟨_, hname⟩ | horigin | ⟨_, x, _, _, hx⟩
  · exact hname ▸ .literal _
  · rcases horigin.expression with ⟨l, hl⟩ | hpart | hnil
    · exact hl ▸ .literal l
    · exact hparts _ hpart
    · exact hnil ▸ .list (by simp)
  · exact hx ▸ .name x

end Statement

end Template

/-- A keyword that is fixed or that the profile has for a slot. -/
def Profile.Knows (profile : Profile) (keyword : Text) : Prop :=
  keyword ∈ ("name" : Text) :: Emission.defaultChildren :: Template.fixedKeywords ∨
    ∃ slot, profile.keyword slot = some keyword

namespace Emission

def sequenceKeywords (profile : Profile) : List Text := ["name", childrenKeyword profile]

theorem eachCall_sequenceArguments (label ident : Text) (refs : List Text) :
    ∀ arg ∈ sequenceArguments profile label ident refs, arg.2.EachCall P := by
  intro arg harg
  rcases List.mem_pair.mp harg with rfl | rfl
  · exact .literal _
  · exact Expression.eachCall_names refs

theorem knows_sequenceKeywords : ∀ keyword ∈ sequenceKeywords profile, profile.Knows keyword := by
  intro keyword hkeyword
  rcases List.mem_pair.mp hkeyword with rfl | rfl
  · exact .inl (by decide)
  · cases hchildren : profile.keyword .children with
    | none =>
      rw [childrenKeyword, hchildren]
      exact .inl (by decide)
    | some keyword =>
      rw [childrenKeyword, hchildren]
      exact .inr ⟨.children, hchildren⟩

/-- A statement that repeats no keyword or is that of a sequence. The calls inside it are those of
sequences. -/
structure Shaped (profile : Profile) (s : Statement) : Prop where
  given : s.args ≠ []
  own : s.keywords.Nodup ∨ s.keywords = sequenceKeywords profile
  known : ∀ keyword ∈ s.keywords, profile.Knows keyword
  inner : ∀ arg ∈ s.args, arg.2.EachCall (· = sequenceKeywords profile)

theorem shaped_of_args {s : Statement} {label ident : Text} {refs : List Text}
    (h : s.args = sequenceArguments profile label ident refs) : Shaped profile s := by
  have hkeywords : s.keywords = sequenceKeywords profile := by
    rw [Statement.keywords, h]
    rfl
  exact ⟨h ▸ List.cons_ne_nil _ _, .inr hkeywords, hkeywords ▸ knows_sequenceKeywords,
    h ▸ eachCall_sequenceArguments label ident refs⟩

theorem shaped_statement {template : Template} {node : Node} {ident label : Text} {parts : Parts}
    {predecessor : Option Text} {s : Statement}
    (h : template.statement profile node ident label parts predecessor = .ok s)
    (hparts : ∀ e, some e ∈ parts.inner → e.EachCall (· = sequenceKeywords profile)) :
    Shaped profile s := by
  refine ⟨Template.args_ne_nil h, .inl (Template.keywords_nodup h), ?_,
    Template.eachCall_of_mem_args h hparts⟩
  intro keyword hkeyword
  obtain ⟨arg, harg, rfl⟩ := List.mem_map.mp hkeyword
  rcases Template.argument_cases h harg with ⟨hname, -⟩ | horigin | ⟨hslot, -⟩
  · exact .inl (by simp [hname])
  · rcases horigin.keyword with ⟨k, hk, heq⟩ | ⟨slot, -, heq⟩
    · exact .inl (List.mem_cons_of_mem _ (List.mem_cons_of_mem _ (Option.some.inj heq ▸ hk)))
    · exact .inr ⟨slot, heq.symm⟩
  · exact .inr ⟨.predecessor, hslot⟩

/-- All statements of an emission are shaped so. The induction follows the rules: a construct is
stated from what its inner blocks give it. -/
theorem Makes.shaped {task : Task} {es : List Expression} {p q : Progress}
    (h : Makes profile task p es q) (hp : ∀ s ∈ p.statements, Shaped profile s) :
    (∀ s ∈ q.statements, Shaped profile s) ∧
      ∀ e ∈ es, e.EachCall (· = sequenceKeywords profile) := by
  have hname : ∀ ident, ∀ e ∈ [Expression.name ident],
      e.EachCall (· = sequenceKeywords profile) := fun ident =>
    List.forall_mem_singleton.mpr (.name ident)
  have hstating : ∀ {q : Progress} {s : Statement}, (∀ s ∈ q.statements, Shaped profile s) →
      Shaped profile s → ∀ s' ∈ (q.stating s).statements, Shaped profile s' := by
    intro q s hq hs s' hs'
    rcases List.mem_append.mp hs' with hs' | hs'
    · exact hq s' hs'
    · exact List.mem_singleton.mp hs' ▸ hs
  induction h with
  | leaf _ hs => exact ⟨hstating hp (shaped_statement hs (by simp [Parts.inner])), hname _⟩
  | known _ _ => exact ⟨hp, hname _⟩
  | single _ _ _ ih => exact ih hp
  | shared _ _ _ _ ih | plain _ _ ih =>
    exact ⟨hstating (ih hp).1 (shaped_of_args rfl), hname _⟩
  | container _ _ _ hs ih | parallel _ _ _ hs ih =>
    refine ⟨hstating (ih hp).1 (shaped_statement hs ?_), hname _⟩
    simpa [Parts.inner] using Expression.eachCall_names _
  | conditional _ _ _ _ hs ihtrue ihfalse | outcome _ _ _ _ _ hs ihtrue ihfalse =>
    obtain ⟨hq, htrue⟩ := ihtrue hp
    obtain ⟨hr, hfalse⟩ := ihfalse hq
    refine ⟨hstating hr (shaped_statement hs ?_), hname _⟩
    have hif := And.intro (List.forall_mem_singleton.mp htrue) (List.forall_mem_singleton.mp hfalse)
    simpa [Parts.inner, or_imp, forall_and] using hif
  | switch _ _ hs ih =>
    obtain ⟨hq, harms⟩ := ih hp
    refine ⟨hstating hq (shaped_statement hs ?_), hname _⟩
    simpa [Parts.inner] using Expression.EachCall.list harms
  | @loop _ _ _ _ _ inner _ _ _ _ _ _ hs ih =>
    obtain ⟨hq, hinner⟩ := ih hp
    have hbody : Expression.EachCall (· = sequenceKeywords profile)
        (if profile.bodyAsList then .list [inner] else inner) := by
      split
      · exact .list hinner
      · exact List.forall_mem_singleton.mp hinner
    refine ⟨hstating hq (shaped_statement hs ?_), hname _⟩
    simpa [Parts.inner] using hbody
  | itemsNil | routesNil | membersNil => exact ⟨hp, by simp⟩
  | itemsCons _ _ ih ihrest | membersCons _ _ ih ihrest =>
    obtain ⟨hr, hes⟩ := ihrest (ih hp).1
    exact ⟨hr, List.forall_mem_cons.mpr ⟨.name _, hes⟩⟩
  | armShared _ _ ih => exact ih hp
  | armPlain _ _ ih =>
    refine ⟨(ih hp).1, List.forall_mem_singleton.mpr ?_⟩
    exact .call rfl (eachCall_sequenceArguments _ _ _)
  | routesCons _ _ ih ihrest =>
    obtain ⟨hq, hinner⟩ := ih hp
    obtain ⟨hr, hes⟩ := ihrest hq
    exact ⟨hr, List.forall_mem_cons.mpr ⟨.pair (List.forall_mem_singleton.mp hinner), hes⟩⟩

section Program
variable {name : Text} {block : Block} {program : Program}
  (h : Program.ofBlock profile name block = .ok program)
include h

theorem shaped_ofBlock : ∀ s ∈ program.constructs ++ [program.root], Shaped profile s := by
  obtain ⟨refs, q, hmakes, rfl⟩ := makes_of_ofBlock h
  have hq := (hmakes.shaped (by simp [Progress.start])).1
  intro s hs
  rcases List.mem_append.mp hs with hs | hs
  · exact hq s hs
  · exact List.mem_singleton.mp hs ▸ shaped_of_args rfl

theorem keywords_root : program.root.keywords = sequenceKeywords profile := by
  obtain ⟨refs, q, _, rfl⟩ := makes_of_ofBlock h
  rfl

/-- What a call repeats as it is written, it repeats because of what the children are called. -/
theorem eachCall_nodup_or : ∀ s ∈ program.constructs ++ [program.root],
    s.EachCall fun keywords => keywords.Nodup ∨ keywords = [("name" : Text), "name"] := by
  have hsequence : (sequenceKeywords profile).Nodup ∨
      sequenceKeywords profile = [("name" : Text), "name"] := by
    by_cases hkeyword : ("name" : Text) = childrenKeyword profile
    · exact .inr (by rw [sequenceKeywords, ← hkeyword])
    · exact .inl (by simpa [sequenceKeywords] using hkeyword)
  intro s hs
  have hshaped := shaped_ofBlock h s hs
  refine ⟨?_, fun arg harg => (hshaped.inner arg harg).mono fun keywords heq => heq ▸ hsequence⟩
  exact hshaped.own.elim .inl fun heq => heq ▸ hsequence

end Program

/-! ## Keywords as they are read -/

section Reading
variable (nf : Text → Text)

/-- Two keywords are spelled differently but read the same. -/
def Confuses (keywords : List Text) : Prop :=
  ∃ a ∈ keywords, ∃ b ∈ keywords, a ≠ b ∧ nf a = nf b

theorem nodup_map_iff {keywords : List Text} (h : keywords.Nodup) :
    (keywords.map nf).Nodup ↔ ¬ Confuses nf keywords := by
  rw [List.nodup_map_iff_inj_on h, Confuses]
  constructor
  · rintro hinj ⟨a, ha, b, hb, hne, heq⟩
    exact hne (hinj a ha b hb heq)
  · intro hnot a ha b hb heq
    by_contra hne
    exact hnot ⟨a, ha, b, hb, hne, heq⟩

variable {nf} {name : Text} {block : Block} {program : Program}

/-- No call repeats a keyword as it is read exactly if the children of a sequence do not read as the
name and no construct has two keywords that read the same. -/
theorem nodup_calls_iff (hname : nf "name" = "name")
    (h : Program.ofBlock profile name block = .ok program) :
    (∀ s ∈ program.constructs ++ [program.root],
        s.EachCall fun keywords => (keywords.map nf).Nodup) ↔
      nf (childrenKeyword profile) ≠ "name" ∧
        ∀ s ∈ program.constructs, ¬ Confuses nf s.keywords := by
  have hsequence : ((sequenceKeywords profile).map nf).Nodup ↔
      nf (childrenKeyword profile) ≠ "name" := by
    simp [sequenceKeywords, hname, eq_comm]
  constructor
  · intro hall
    refine ⟨hsequence.mp ?_, fun s hs => ?_⟩
    · rw [← keywords_root h]
      exact (hall program.root (by simp)).1
    · have hnodup := (hall s (List.mem_append_left _ hs)).1
      exact (nodup_map_iff nf hnodup.of_map).mp hnodup
  · rintro ⟨hchildren, hconstructs⟩ s hs
    have hshaped := shaped_ofBlock h s hs
    have hchildren := hsequence.mpr hchildren
    refine ⟨?_, fun arg harg => (hshaped.inner arg harg).mono fun _ heq => heq ▸ hchildren⟩
    rcases List.mem_append.mp hs with hs | hs
    · rcases hshaped.own with hnodup | heq
      · exact (nodup_map_iff nf hnodup).mpr (hconstructs s hs)
      · exact heq ▸ hchildren
    · rw [List.mem_singleton.mp hs, keywords_root h]
      exact hchildren

end Reading

end Emission

namespace Profile

theorem mem_builtIn_of_readBase {data : Members} {base : Profile} (h : readBase data = .ok base) :
    base ∈ builtIn := by
  unfold readBase at h
  split at h
  · cases h
    exact List.mem_cons_of_mem _ (List.mem_singleton_self _)
  · cases h
  · cases h
  · split at h
    next found hfound =>
      cases h
      obtain ⟨s, _, hs⟩ := Option.bind_eq_some_iff.mp hfound
      exact List.mem_of_find?_eq_some hs
    · obtain ⟨shown, -, h⟩ := exists_of_bind_eq_ok h
      cases h

/-- The keyword of a slot is what the profile is given for it, or else that of a built-in profile. -/
theorem keyword_of_ofMembers {source : String} {data : Members}
    (h : ofMembers source data = .ok profile) :
    ∃ base ∈ builtIn, ∃ names, readNames data "keywords" true = .ok names ∧
      ∀ slot : Slot, profile.keyword slot =
        match names.get? slot.name with
        | some v => v.str?
        | none => base.keyword slot := by
  obtain ⟨base, hbase, h⟩ := exists_of_bind_eq_ok (of_refusal_eq_ok h)
  obtain ⟨constructs, _, h⟩ := exists_of_bind_eq_ok h
  obtain ⟨names, hnames, h⟩ := exists_of_bind_eq_ok (of_refusal_eq_ok h)
  obtain ⟨name, _, h⟩ := exists_of_bind_eq_ok (of_refusal_eq_ok h)
  obtain ⟨imports, _, h⟩ := exists_of_bind_eq_ok h
  obtain ⟨root, _, h⟩ := exists_of_bind_eq_ok h
  obtain ⟨entrypoint, _, h⟩ := exists_of_bind_eq_ok h
  obtain ⟨reserved, _, h⟩ := exists_of_bind_eq_ok h
  cases h
  exact ⟨base, mem_builtIn_of_readBase hbase, names, hnames, fun _ => rfl⟩

/-- The members of a profile call the children of a sequence by a keyword. -/
def CallsChildren (data : Members) (keyword : Text) : Prop :=
  ∃ names : Members, data.get? "keywords" = some (.object names) ∧
    names.get? "children" = some (.str keyword)

section Children
variable {source : String} {data : Members}

theorem callsChildren_iff {names : Members} (h : readNames data "keywords" true = .ok names)
    (keyword : Text) :
    CallsChildren data keyword ↔ names.get? "children" = some (.str keyword) := by
  unfold readNames at h
  rw [CallsChildren]
  split at h
  next hnone =>
    cases h
    rw [hnone]
    simp [Members.get?]
  next members hobject =>
    split at h
    · cases h
    · cases h
      rw [hobject]
      simp
  · cases h

theorem keyword_of_callsChildren (h : ofMembers source data = .ok profile) {keyword : Text}
    (hcalls : CallsChildren data keyword) : profile.keyword .children = some keyword := by
  obtain ⟨base, -, names, hnames, hkeyword⟩ := keyword_of_ofMembers h
  have hslot : Slot.children.name = ("children" : Text) := rfl
  rw [hkeyword, hslot, (callsChildren_iff hnames keyword).mp hcalls]
  rfl

/-- The children read as the name only where a profile is given a keyword for them that does. -/
theorem childrenKeyword_iff (h : ofMembers source data = .ok profile) {nf : Text → Text}
    (hplain : ∀ s : Text, (∀ p ∈ s, p.toNat < 128) → nf s = s) :
    nf (Emission.childrenKeyword profile) = "name" ↔
      ∃ keyword, CallsChildren data keyword ∧ nf keyword = "name" := by
  obtain ⟨base, hbase, names, hnames, hkeyword⟩ := keyword_of_ofMembers h
  have hdefault : nf ((base.keyword .children).getD Emission.defaultChildren) ≠ "name" := by
    rcases List.mem_pair.mp hbase with rfl | rfl <;> rw [hplain _ (by decide)] <;> decide
  have hsteps : nf Emission.defaultChildren ≠ "name" := by
    rw [hplain _ (by decide)]
    decide
  have hslot : Slot.children.name = ("children" : Text) := rfl
  simp only [callsChildren_iff hnames]
  rw [Emission.childrenKeyword, hkeyword, hslot]
  cases names.get? "children" with
  | none => simpa using hdefault
  | some v =>
    cases v with
    | str keyword => simp [Value.str?]
    | null | bool _ | int _ | float _ | list _ | object _ => simpa [Value.str?] using hsteps

end Children

end Profile

/-- For a profile with any changes, and whatever is emitted: as they are written, the only calls to
repeat a keyword are those of sequences that stand for themselves, whose two arguments both go by
`name`. Code is read with keywords in a normal form `nf`, which leaves plain text alone. Then a call
repeats a keyword exactly if the profile calls the children of a sequence something that reads as
`name`, or if two keywords of a construct are spelled differently but read the same. If the keywords
of the profile are in normal form, it does so exactly if the profile calls the children `name`. -/
theorem emit_keywords {source : String} {data : Members}
    (hprofile : Profile.ofValue source (.object data) = .ok profile) {name : Text} {block : Block}
    {lines : List Text} (h : emit profile name block = .ok lines) (nf : Text → Text)
    (hplain : ∀ s : Text, (∀ p ∈ s, p.toNat < 128) → nf s = s) :
    ∃ program, Program.ofBlock profile name block = .ok program ∧
      lines = program.layout profile name ∧
      (∀ s ∈ program.constructs ++ [program.root], s.EachCall fun keywords =>
        keywords.Nodup ∨ keywords = [("name" : Text), "name"]) ∧
      ((∀ s ∈ program.constructs ++ [program.root], s.EachCall fun keywords =>
          (keywords.map nf).Nodup) ↔
        (∀ keyword, Profile.CallsChildren data keyword → nf keyword ≠ "name") ∧
          ∀ s ∈ program.constructs, ¬ Emission.Confuses nf s.keywords) ∧
      ((∀ slot keyword, profile.keyword slot = some keyword → nf keyword = keyword) →
        ((∀ s ∈ program.constructs ++ [program.root], s.EachCall fun keywords =>
          (keywords.map nf).Nodup) ↔ ¬ Profile.CallsChildren data "name")) := by
  obtain ⟨program, hprogram, hlines⟩ := exists_of_bind_eq_ok h
  cases hlines
  have hshaped := Emission.shaped_ofBlock hprogram
  have hname : nf "name" = "name" := hplain _ (by decide)
  have hiff := Emission.nodup_calls_iff hname hprogram
  rw [Ne, Profile.childrenKeyword_iff hprofile hplain, not_exists] at hiff
  simp only [not_and] at hiff
  refine ⟨program, hprogram, ?_, Emission.eachCall_nodup_or hprogram, hiff, fun hnormal => ?_⟩
  · exact Program.lines_eq_layout (fun s hs => (hshaped s (List.mem_append_left _ hs)).given)
      (hshaped program.root (by simp)).given profile name
  · have hknown : ∀ keyword, profile.Knows keyword → nf keyword = keyword := by
      rintro keyword (hfixed | ⟨slot, hslot⟩)
      · have hascii : ∀ k ∈ ("name" : Text) :: Emission.defaultChildren :: Template.fixedKeywords,
            ∀ p ∈ k, p.toNat < 128 := by decide
        exact hplain keyword (hascii keyword hfixed)
      · exact hnormal slot keyword hslot
    -- where every keyword reads as it is written, no two are confused
    have hclear : ∀ s ∈ program.constructs, ¬ Emission.Confuses nf s.keywords := by
      rintro s hs ⟨a, ha, b, hb, hne, heq⟩
      have hs := (hshaped s (List.mem_append_left _ hs)).known
      rw [hknown a (hs a ha), hknown b (hs b hb)] at heq
      exact hne heq
    rw [hiff, and_iff_left hclear]
    constructor
    · exact fun hcalls hcalled => hcalls "name" hcalled hname
    · intro hcalls keyword hcalled hread
      rw [hnormal .children keyword (Profile.keyword_of_callsChildren hprofile hcalled)] at hread
      exact hcalls (hread ▸ hcalled)

/-- A profile that calls the children of a sequence by the keyword of its name. -/
def namedChildren : Members := [("keywords", .object [("children", .str "name")])]

/-- A profile with a full-width letter in a keyword. -/
def wideCondition : Members := [("keywords", .object [("if_true", .str "ｃondition")])]

/-- Full-width letters as plain ones. -/
def narrow (s : Text) : Text :=
  s.map fun p =>
    match p with
    | .char c => if 0xFF21 ≤ c.toNat ∧ c.toNat ≤ 0xFF5A then .char (.ofNat (c.toNat - 0xFEE0)) else p
    | .surrogate _ => p

theorem narrow_plain (s : Text) (h : ∀ p ∈ s, p.toNat < 128) : narrow s = s := by
  refine (List.map_congr_left fun p hp => ?_).trans (List.map_id s)
  cases p with
  | surrogate _ => rfl
  | char c =>
    have hlt : c.toNat < 128 := h _ hp
    exact if_neg (by omega)

/-- A step, and a split with an arm that is written in place. -/
def splitAfterInput : Block :=
  .sequence 6 [.leaf 1 ⟨"i", .input, [], none⟩,
    .branch 5 ⟨"c", .conditional, [("condition", .str "k")], none⟩ (.str "k")
      (.sequence 3 [.leaf 2 ⟨"a", .debug, [], none⟩] none none) (.sequence 4 [] none none) none]
    none none

/-- The program for a profile, if the profile is accepted and code is emitted. -/
def programFor (data : Members) : Option Program :=
  (Profile.ofValue Profile.noSource (.object data)).toOption.bind fun profile =>
    (Program.ofBlock profile "w" splitAfterInput).toOption

theorem exists_of_programFor (data : Members) (test : Program → Bool)
    (h : (programFor data).any test = true) :
    ∃ profile program, Profile.ofValue Profile.noSource (.object data) = .ok profile ∧
      Program.ofBlock profile "w" splitAfterInput = .ok program ∧ test program = true := by
  obtain ⟨program, hprogram, htest⟩ := (Option.any_eq_true _ _).mp h
  obtain ⟨profile, hprofile, hprogram⟩ := Option.bind_eq_some_iff.mp hprogram
  exact ⟨profile, program, eq_ok_of_toOption hprofile, eq_ok_of_toOption hprogram, htest⟩

/-- A profile is accepted, and in the code for it a call repeats a keyword when it is read. -/
def Misreads (data : Members) : Prop :=
  ∃ (profile : Profile) (lines : List Text) (program : Program),
    Profile.ofValue Profile.noSource (.object data) = .ok profile ∧
    emit profile "w" splitAfterInput = .ok lines ∧ lines = program.layout profile "w" ∧
    ¬ ∀ s ∈ program.constructs ++ [program.root], s.EachCall fun keywords =>
      (keywords.map narrow).Nodup

/-- With the first profile the keyword of the name is repeated. With the second one a split has two
keywords that read as that of its condition. -/
theorem emit_keywords_namedChildren : Misreads namedChildren ∧ Misreads wideCondition := by
  have hemit : ∀ {profile : Profile} {program : Program},
      Program.ofBlock profile "w" splitAfterInput = .ok program →
        emit profile "w" splitAfterInput = .ok (program.lines profile "w") := by
    intro profile program h
    rw [emit, h]
    rfl
  constructor
  · obtain ⟨profile, program, hprofile, hprogram, -⟩ :=
      exists_of_programFor namedChildren (fun _ => true) (by decide +kernel)
    obtain ⟨program', -, heq, -, hiff, -⟩ :=
      emit_keywords hprofile (hemit hprogram) narrow narrow_plain
    refine ⟨profile, _, program', hprofile, hemit hprogram, heq, fun hall => ?_⟩
    exact (hiff.mp hall).1 "name" ⟨[("children", .str "name")], rfl, rfl⟩ (by decide)
  · obtain ⟨profile, program, hprofile, hprogram, htest⟩ :=
      exists_of_programFor wideCondition (fun program => program.constructs.any fun s =>
        s.keywords.contains "condition" && s.keywords.contains "ｃondition") (by decide +kernel)
    obtain ⟨program', hprogram', heq, -, hiff, -⟩ :=
      emit_keywords hprofile (hemit hprogram) narrow narrow_plain
    cases Except.ok.inj (hprogram.symm.trans hprogram')
    refine ⟨profile, _, program, hprofile, hemit hprogram, heq, fun hall => ?_⟩
    obtain ⟨s, hs, hboth⟩ := List.any_eq_true.mp htest
    rw [Bool.and_eq_true, List.contains_iff_mem, List.contains_iff_mem] at hboth
    exact (hiff.mp hall).2 s hs ⟨_, hboth.1, _, hboth.2, by decide, by decide +kernel⟩

end WorkflowCompiler
