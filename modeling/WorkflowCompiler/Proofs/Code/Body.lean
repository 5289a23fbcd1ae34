import Mathlib
import WorkflowCompiler.Proofs.Code.Grammar

/-! # Lines of statements

The lines between the imports and the exports are empty lines, comments and statements. A statement
opens a construct, passes one argument per line and closes the construct.
-/
namespace WorkflowCompiler

def commentLine (text : Text) : Text := "# " ++ text

def argumentLine (arg : Text × Text) : Text := Code.indentation ++ argumentText arg ++ ","

def openingLine (ident construct : Text) : Text := ident ++ " = " ++ construct ++ "("

def closingLine : Text := ")"

/-- Lines that are empty, comments or statements. -/
inductive IsBody (profile : Profile) : List Text → Prop
  | nil : IsBody profile []
  | empty {rest : List Text} (h : IsBody profile rest) : IsBody profile ([] :: rest)
  | comment {text : Text} {rest : List Text} (htext : Text.OneLine text)
    (h : IsBody profile rest) : IsBody profile (commentLine text :: rest)
  | statement {ident : Text} {role : Role} {args : List (Text × Text)} {rest : List Text}
    (hident : Identifier.isValid ident = true)
    (hkeywords : ∀ x ∈ args, Identifier.isValid x.1 = true)
    (hvalues : ∀ x ∈ args, IsExpression profile x.2) (h : IsBody profile rest) :
    IsBody profile (openingLine ident (profile.construct role) ::
      args.map argumentLine ++ closingLine :: rest)

section Body
variable {profile : Profile}

theorem IsBody.append {lines rest : List Text} (h : IsBody profile lines)
    (hrest : IsBody profile rest) : IsBody profile (lines ++ rest) := by
  induction h with
  | nil => exact hrest
  | empty _ ih => exact .empty ih
  | comment htext _ ih => exact .comment htext ih
  | statement hident hkeywords hvalues _ ih =>
    rw [List.append_assoc, List.cons_append]
    exact .statement hident hkeywords hvalues ih

theorem IsBody.flatMap {α : Type} {items : List α} {lines : α → List Text}
    (h : ∀ a ∈ items, IsBody profile (lines a)) : IsBody profile (items.flatMap lines) := by
  induction items with
  | nil => exact .nil
  | cons a rest ih =>
    obtain ⟨ha, hrest⟩ := List.forall_mem_cons.mp h
    rw [List.flatMap_cons]
    exact ha.append (ih hrest)

theorem isBody_comments {texts : List Text} (h : ∀ t ∈ texts, Text.OneLine t)
    {rest : List Text} (hrest : IsBody profile rest) :
    IsBody profile (texts.map commentLine ++ rest) := by
  induction texts with
  | nil => exact hrest
  | cons t others ih =>
    obtain ⟨ht, hothers⟩ := List.forall_mem_cons.mp h
    exact .comment ht (ih hothers)

def CodePoint.endsLine (p : CodePoint) : Bool := p == .char '\n' || p == .char '\r'

theorem CodePoint.endsLine_eq_false {p : CodePoint} :
    p.endsLine = false ↔ p ≠ .char '\n' ∧ p ≠ .char '\r' := by
  simp [endsLine]

theorem CodePoint.endsLine_of_le {p : CodePoint} (h : 32 ≤ p.toNat) : p.endsLine = false := by
  rw [endsLine_eq_false]
  constructor <;> rintro rfl <;> exact absurd h (by decide)

theorem CodePoint.endsLine_of_not_isLineBreak {p : CodePoint} (h : p.is Text.isLineBreak = false) :
    p.endsLine = false := by
  rw [endsLine_eq_false]
  constructor <;> rintro rfl <;> exact absurd h (by decide)

theorem IsBody.unbroken (hprofile : ∀ role, Text.Visible (profile.construct role))
    {lines : List Text} (h : IsBody profile lines) :
    ∀ line ∈ lines, ∀ p ∈ line, p.endsLine = false := by
  induction h with
  | nil => exact fun _ hline => absurd hline List.not_mem_nil
  | empty _ ih => exact List.forall_mem_cons.mpr ⟨fun p hp => absurd hp List.not_mem_nil, ih⟩
  | comment htext _ ih =>
    have hmark : Text.OneLine "# " := by decide
    refine List.forall_mem_cons.mpr ⟨fun p hp => ?_, ih⟩
    exact CodePoint.endsLine_of_not_isLineBreak (hmark.append htext p hp)
  | @statement ident role args rest hident hkeywords hvalues _ ih =>
    have hopening : Text.Visible (openingLine ident (profile.construct role)) := by
      have hequals : Text.Visible " = " := by decide
      have hopen : Text.Visible "(" := by decide
      exact (((Identifier.visible_of_isValid hident).append hequals).append (hprofile role)).append
        hopen
    have hargs : ∀ line ∈ args.map argumentLine, Text.Visible line := by
      have hindentation : Text.Visible Code.indentation := by decide
      have hequals : Text.Visible "=" := by decide
      have hcomma : Text.Visible "," := by decide
      refine List.forall_mem_map.mpr fun x hx => ?_
      have hkeyword := Identifier.visible_of_isValid (hkeywords x hx)
      have hvalue := (hvalues x hx).visible hprofile
      exact (hindentation.append ((hkeyword.append hequals).append hvalue)).append hcomma
    have hclosing : Text.Visible closingLine := by decide
    have hlines : ∀ line ∈ openingLine ident (profile.construct role) ::
        args.map argumentLine, Text.Visible line := List.forall_mem_cons.mpr ⟨hopening, hargs⟩
    intro line hline p hp
    rcases List.mem_append.mp hline with hline | hline
    · exact CodePoint.endsLine_of_le (hlines line hline p hp)
    · rcases List.mem_cons.mp hline with rfl | hline
      · exact CodePoint.endsLine_of_le (hclosing p hp)
      · exact ih line hline p hp

end Body

namespace Statement

/-- A statement with comments of one line, a valid identifier, a construct of the profile and
arguments with valid keywords. -/
structure Sound (profile : Profile) (s : Statement) : Prop where
  comments : ∀ c ∈ s.comments, Text.OneLine c
  ident : Identifier.isValid s.ident = true
  construct : ∃ role, s.construct = profile.construct role
  given : s.args ≠ []
  keywords : ∀ arg ∈ s.args, Identifier.isValid arg.1 = true
  values : ∀ arg ∈ s.args, arg.2.Proper profile

end Statement

namespace Code

theorem write_at_margin {code : Code} (h : code.depth = 0) (line : Text) :
    code.write line = { code with lines := code.lines ++ [line] } := by
  rw [write, indented, h]
  split
  next hempty => rw [hempty]
  · rfl

theorem foldl_comment {code : Code} (h : code.depth = 0) (texts : List Text) :
    texts.foldl comment code =
      { code with lines := code.lines ++ texts.map commentLine } := by
  induction texts generalizing code with
  | nil => simp
  | cons t rest ih =>
    have hwritten : ({ code with lines := code.lines ++ [commentLine t] } : Code).depth = 0 := h
    rw [List.foldl_cons, comment, write_at_margin h]
    refine (ih hwritten).trans ?_
    simp

theorem write_argument {code : Code} (h : code.depth = 1) (arg : Text × Text) :
    code.write (arg.1 ++ "=" ++ arg.2 ++ ",") =
      { code with lines := code.lines ++ [argumentLine arg] } := by
  rw [write, indented, h, if_neg (by simp [Text.ofString, Text.ofChars])]
  simp [argumentLine, argumentText]

theorem foldl_write_argument {code : Code} (h : code.depth = 1) (args : List (Text × Text)) :
    args.foldl (fun code arg => code.write (arg.1 ++ "=" ++ arg.2 ++ ",")) code =
      { code with lines := code.lines ++ args.map argumentLine } := by
  induction args generalizing code with
  | nil => simp
  | cons arg rest ih =>
    have hwritten : ({ code with lines := code.lines ++ [argumentLine arg] } : Code).depth = 1 := h
    rw [List.foldl_cons, write_argument h, ih hwritten]
    simp

theorem lines_call {code : Code} (h : code.depth = 0) (ident construct : Text)
    {args : List (Text × Text)} (hargs : args ≠ []) :
    (code.call ident construct args).lines =
      code.lines ++ openingLine ident construct :: args.map argumentLine ++ [closingLine] := by
  obtain ⟨lines, depth⟩ := code
  obtain rfl : depth = 0 := h
  have hopened : (write ⟨lines, 0⟩ (ident ++ " = " ++ construct ++ "(")).indent =
      ⟨lines ++ [openingLine ident construct], 1⟩ := by
    rw [write_at_margin rfl]
    rfl
  have hinside := @foldl_write_argument ⟨lines ++ [openingLine ident construct], 1⟩ rfl args
  have hclosed : ∀ lines, (dedent ⟨lines, 1⟩).write ")" = ⟨lines ++ [closingLine], 0⟩ :=
    fun lines => write_at_margin rfl ")"
  rw [call, if_neg (by simpa using hargs), hopened]
  simp only [hinside, hclosed]
  simp

end Code

/-- The lines of a statement: its comments, then its construct with one argument per line. -/
def Statement.layout (s : Statement) : List Text :=
  s.comments.map commentLine ++ (openingLine s.ident s.construct ::
    (s.args.map fun arg => argumentLine (arg.1, arg.2.text)) ++ [closingLine])

theorem Statement.map_argumentLine (s : Statement) :
    (s.args.map fun arg => argumentLine (arg.1, arg.2.text)) = s.written.map argumentLine := by
  rw [written, List.map_map]
  rfl

theorem Statement.lines_eq_layout {s : Statement} (h : s.args ≠ []) : s.lines = s.layout := by
  have hwritten : s.written ≠ [] := by simpa [written] using h
  rw [lines, writeTo, Code.foldl_comment rfl, Code.lines_call rfl _ _ hwritten, layout,
    map_argumentLine]
  simp

theorem Statement.Sound.isBody {profile : Profile} {s : Statement} (h : s.Sound profile) :
    IsBody profile s.lines := by
  obtain ⟨role, hrole⟩ := h.construct
  rw [Statement.lines_eq_layout h.given, Statement.layout, Statement.map_argumentLine, hrole]
  refine isBody_comments h.comments (.statement h.ident ?_ ?_ .nil)
  · exact List.forall_mem_map.mpr h.keywords
  · exact List.forall_mem_map.mpr fun arg harg => (h.values arg harg).isExpression

/-! ## The lines of an argument -/

theorem Identifier.not_mem_of_isValid {s : Text} (h : isValid s = true) {p : CodePoint}
    (hp : p.is isNameChar = false) : p ∉ s := by
  intro hmem
  rw [(led_of_isValid h).plain p hmem] at hp
  cases hp

theorem eq_of_append_equals {a b x y : Text} (ha : .char '=' ∉ a) (hb : .char '=' ∉ b)
    (h : a ++ "=" ++ x = b ++ "=" ++ y) : a = b := by
  have htake : ∀ {c z : Text}, .char '=' ∉ c → (c ++ "=" ++ z).takeWhile (· != .char '=') = c := by
    intro c z hc
    have hne : ∀ p ∈ c, (p != .char '=') = true := by
      intro p hp
      exact bne_iff_ne.mpr fun heq => hc (heq ▸ hp)
    have hstop : (("=" : Text) ++ z).takeWhile (· != .char '=') = [] := rfl
    rw [List.append_assoc, List.takeWhile_append_of_pos hne, hstop, List.append_nil]
  rw [← htake ha, h, htake hb]

namespace Statement.Sound
variable {profile : Profile} {s : Statement} (hs : s.Sound profile) {line : Text}
include hs

/-- Only arguments are indented. -/
theorem exists_argument (hline : line ∈ s.layout) {rest : Text}
    (h : Code.indentation ++ rest <+: line) :
    ∃ arg ∈ s.args, line = argumentLine (arg.1, arg.2.text) := by
  have hhead : line.head? = some (.char ' ') := by
    obtain ⟨more, rfl⟩ := h
    rfl
  rcases List.mem_append.mp hline with hline | hline
  · obtain ⟨text, -, rfl⟩ := List.mem_map.mp hline
    cases hhead
  · rcases List.mem_append.mp hline with hline | hline
    · rcases List.mem_cons.mp hline with rfl | hline
      · obtain ⟨p, others, hident, hletter, -⟩ := Identifier.led_of_isValid hs.ident
        rw [openingLine, hident] at hhead
        cases hhead
        exact absurd hletter (by decide)
      · obtain ⟨arg, harg, rfl⟩ := List.mem_map.mp hline
        exact ⟨arg, harg, rfl⟩
    · rw [List.mem_singleton.mp hline] at hhead
      cases hhead

/-- A line that begins with a keyword is that of an argument with this keyword. -/
theorem exists_argument_of_keyword {key : Text} (hkey : Identifier.isValid key = true)
    (hline : line ∈ s.layout) (h : Code.indentation ++ (key ++ ("=" : Text)) <+: line) :
    ∃ e, (key, e) ∈ s.args ∧ line = argumentLine (key, e.text) := by
  have hequals : (CodePoint.char '=').is Identifier.isNameChar = false := by decide
  obtain ⟨⟨keyword, e⟩, harg, rfl⟩ := hs.exists_argument hline h
  obtain ⟨more, hmore⟩ := h
  have heq : key ++ "=" ++ more = keyword ++ "=" ++ (e.text ++ ",") := by
    simpa [argumentLine, argumentText] using hmore
  obtain rfl := eq_of_append_equals (Identifier.not_mem_of_isValid hkey hequals)
    (Identifier.not_mem_of_isValid (hs.keywords _ harg) hequals) heq
  exact ⟨e, harg, rfl⟩

end Statement.Sound

theorem Statement.argumentLine_mem {s : Statement} {arg : Text × Expression} (h : arg ∈ s.args) :
    argumentLine (arg.1, arg.2.text) ∈ s.layout :=
  List.mem_append_right _ (List.mem_append_left _ (List.mem_cons_of_mem _
    (List.mem_map_of_mem (f := fun arg : Text × Expression => argumentLine (arg.1, arg.2.text)) h)))

end WorkflowCompiler
