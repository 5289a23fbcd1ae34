import Mathlib
import WorkflowCompiler.Proofs.Text.Quoted
import WorkflowCompiler.Proofs.Value.Rearranged

/-! # Literals are faithful

The literal of a value in canonical form tells the value and where the literal ends, as long as what
follows begins with a comma or a closing bracket. So values without binary64 numbers that can be
written have the same literal exactly if they are the same up to the order of members.
-/
namespace WorkflowCompiler

namespace Text

/-- What may follow a literal: nothing, a comma or a closing bracket. -/
def Closing (s : Text) : Prop := ∀ p ∈ s.head?, p ∈ [.char ',', .char ']', .char '\x7d']

theorem join_cons (separator s : Text) (rest : List Text) :
    join separator (s :: rest) = s ++ rest.flatMap (separator ++ ·) := by
  induction rest generalizing s with
  | nil => simp [join]
  | cons t others ih =>
    rw [List.flatMap_cons, List.append_assoc, ← ih t]
    simp [join, List.intercalate_cons_cons]

section Separated
variable {α : Type} {f : α → Text} {close : CodePoint} {as bs : List α} {x y : Text}

/-- The texts of two elements tell them apart and show where they end. -/
def Telling (f : α → Text) (a b : α) : Prop :=
  ∀ x y, Closing x → Closing y → f a ++ x = f b ++ y → a = b ∧ x = y

theorem closing_flatMap (hclose : close ∈ [.char ']', .char '\x7d']) (texts : List Text)
    (x : Text) : Closing (texts.flatMap ((", " : Text) ++ ·) ++ close :: x) := by
  cases texts with
  | nil =>
    rintro p ⟨⟩
    exact List.mem_cons_of_mem _ hclose
  | cons s rest =>
    rintro p ⟨⟩
    exact List.mem_cons_self

theorem flatMap_append_inj (hclose : close ∈ [.char ']', .char '\x7d'])
    (htell : ∀ a ∈ as, ∀ b ∈ bs, Telling f a b)
    (h : (as.map f).flatMap ((", " : Text) ++ ·) ++ close :: x =
      (bs.map f).flatMap ((", " : Text) ++ ·) ++ close :: y) : as = bs ∧ x = y := by
  have hcomma : close ≠ .char ',' := by
    rintro rfl
    exact absurd hclose (by decide)
  induction as generalizing bs with
  | nil =>
    cases bs with
    | nil => exact ⟨rfl, (List.cons.inj h).2⟩
    | cons b others => exact absurd (List.cons.inj h).1 hcomma
  | cons a rest ih =>
    cases bs with
    | nil => exact absurd (List.cons.inj h).1.symm hcomma
    | cons b others =>
      obtain ⟨ha, hrest⟩ := List.forall_mem_cons.mp htell
      have hnext : f a ++ ((rest.map f).flatMap ((", " : Text) ++ ·) ++ close :: x) =
          f b ++ ((others.map f).flatMap ((", " : Text) ++ ·) ++ close :: y) := by
        simpa using h
      obtain ⟨rfl, htail⟩ := ha b List.mem_cons_self _ _ (closing_flatMap hclose _ x)
        (closing_flatMap hclose _ y) hnext
      obtain ⟨rfl, hxy⟩ :=
        ih (fun a ha b hb => hrest a ha b (List.mem_cons_of_mem _ hb)) htail
      exact ⟨rfl, hxy⟩

/-- Elements with commas between them and a bracket at the end can be told from the text, if none
begins with the bracket. -/
theorem join_append_inj (hclose : close ∈ [.char ']', .char '\x7d'])
    (htell : ∀ a ∈ as, ∀ b ∈ bs, Telling f a b)
    (hopen : ∀ a ∈ as ++ bs, ∀ rest s : Text, f a ++ rest ≠ close :: s)
    (h : join ", " (as.map f) ++ close :: x = join ", " (bs.map f) ++ close :: y) :
    as = bs ∧ x = y := by
  cases as with
  | nil =>
    cases bs with
    | nil => exact ⟨rfl, (List.cons.inj h).2⟩
    | cons b others =>
      rw [List.map_cons, join_cons, List.append_assoc] at h
      exact absurd h.symm (hopen b (by simp) _ _)
  | cons a rest =>
    cases bs with
    | nil =>
      rw [List.map_cons, join_cons, List.append_assoc] at h
      exact absurd h (hopen a (by simp) _ _)
    | cons b others =>
      refine flatMap_append_inj hclose htell ?_
      rw [List.map_cons, join_cons, List.map_cons, join_cons] at h
      simpa using h

end Separated

/-! ## Numbers -/

def isNumeral (c : Char) : Bool := c.isDigit || c == '-'

theorem append_inj_of_class {inClass : Char → Bool} {s t x y : Text}
    (hs : ∀ p ∈ s, p.is inClass = true) (ht : ∀ p ∈ t, p.is inClass = true)
    (hx : ∀ p ∈ x.head?, p.is inClass = false) (hy : ∀ p ∈ y.head?, p.is inClass = false)
    (h : s ++ x = t ++ y) : s = t ∧ x = y := by
  induction s generalizing t with
  | nil =>
    cases t with
    | nil => exact ⟨rfl, h⟩
    | cons q others =>
      have hq := hx q (by rw [show x = _ from h]; rfl)
      rw [ht q List.mem_cons_self] at hq
      cases hq
  | cons p rest ih =>
    cases t with
    | nil =>
      have hp := hy p (by rw [← show _ = y from h]; rfl)
      rw [hs p List.mem_cons_self] at hp
      cases hp
    | cons q others =>
      obtain ⟨rfl, hrest⟩ := List.cons.inj h
      obtain ⟨rfl, hxy⟩ := ih (fun p hp => hs p (List.mem_cons_of_mem _ hp))
        (fun p hp => ht p (List.mem_cons_of_mem _ hp)) hrest
      exact ⟨rfl, hxy⟩

theorem numeral_toString (n : Int) : ofString (toString n) ≠ [] ∧
    ∀ p ∈ ofString (toString n), p.is isNumeral = true := by
  have hdigit : ∀ (k : Nat), ∀ c ∈ (Nat.repr k).toList, isNumeral c = true := by
    intro k c hc
    rw [Nat.toList_repr] at hc
    rw [isNumeral, (Decimal.digits_toDigits k).2 c hc, Bool.true_or]
  rw [ofString, ofChars]
  cases n with
  | ofNat n =>
    have hne : (Nat.repr n).toList ≠ [] := by
      rw [Nat.toList_repr]
      exact (Decimal.digits_toDigits n).1
    exact ⟨mt List.map_eq_nil_iff.mp hne, List.forall_mem_map.mpr (hdigit n)⟩
  | negSucc n =>
    have htext : (toString (Int.negSucc n)).toList = '-' :: (Nat.repr (n + 1)).toList :=
      String.toList_append
    rw [htext]
    exact ⟨List.cons_ne_nil _ _,
      List.forall_mem_map.mpr (List.forall_mem_cons.mpr ⟨by decide, hdigit (n + 1)⟩)⟩

theorem Closing.not_isNumeral {s : Text} (h : Closing s) :
    ∀ p ∈ s.head?, p.is isNumeral = false := by
  have hclass : ∀ p ∈ ([.char ',', .char ']', .char '\x7d'] : Text), p.is isNumeral = false := by
    decide
  exact fun p hp => hclass p (h p hp)

/-- An integer at the beginning of a text can be told, if what follows cannot go on with it. -/
theorem toString_append_inj {m n : Int} {x y : Text} (hx : Closing x) (hy : Closing y)
    (h : ofString (toString m) ++ x = ofString (toString n) ++ y) : m = n ∧ x = y := by
  obtain ⟨heq, hxy⟩ := append_inj_of_class (numeral_toString m).2 (numeral_toString n).2
    hx.not_isNumeral hy.not_isNumeral h
  have hchars : (toString m).toList = (toString n).toList :=
    List.map_injective_iff.mpr (fun a b hab => CodePoint.char.inj hab) heq
  exact ⟨Int.repr_injective (String.toList_inj.mp hchars), hxy⟩

end Text

namespace Value

def isNotFloat : Value → Bool
  | .float _ => false
  | _ => true

/-- Whether no binary64 number occurs in a value, at any depth. -/
def isExact (v : Value) : Bool := v.every isNotFloat

theorem isExact_list_iff {items : List Value} :
    isExact (.list items) = true ↔ ∀ v ∈ items, v.isExact = true := every_list_iff

theorem isExact_object_iff {ms : Members} :
    isExact (.object ms) = true ↔ ∀ m ∈ ms, m.2.isExact = true := every_object_iff

/-- A value in canonical form without binary64 numbers. -/
structure Settled (v : Value) : Prop where
  exact : v.isExact = true
  canonical : v.canonical = v

theorem settled_canonical {v : Value} (h : v.isExact = true) : v.canonical.Settled :=
  ⟨(every_canonical isNotFloat v).trans h, canonical_canonical v⟩

theorem Settled.of_mem {items : List Value} (h : Settled (.list items)) {v : Value}
    (hv : v ∈ items) : v.Settled := by
  have hlist := h.canonical
  rw [canonical_list] at hlist
  refine ⟨isExact_list_iff.mp h.exact v hv, ?_⟩
  rw [← Value.list.inj hlist] at hv
  obtain ⟨v, -, rfl⟩ := List.mem_map.mp hv
  exact canonical_canonical v

theorem Settled.of_member {ms : Members} (h : Settled (.object ms)) {m : Text × Value}
    (hm : m ∈ ms) : m.2.Settled := by
  have hobject := h.canonical
  rw [canonical_object] at hobject
  refine ⟨isExact_object_iff.mp h.exact m hm, ?_⟩
  rw [← Value.object.inj hobject] at hm
  obtain ⟨m, -, rfl⟩ := List.mem_map.mp ((Members.perm_canonical ms).mem_iff.mp hm)
  exact canonical_canonical m.2

/-! ## The text of a literal -/

theorem spellingItems_eq (items : List Value) : spellingItems items = items.map spelling := by
  induction items with
  | nil => rfl
  | cons v rest ih => rw [spellingItems, ih, List.map_cons]

def memberText (m : Text × Value) : Text := entryText (m.1, m.2.spelling)

/-- The literal of an object in canonical form has its members in their order. -/
theorem Settled.spelling_object {ms : Members} (h : Settled (.object ms)) :
    spelling (.object ms) = "\x7b" ++ Text.join ", " (ms.map memberText) ++ "\x7d" := by
  have hobject := h.canonical
  rw [canonical_object] at hobject
  have hsorted : ms.Pairwise fun a b => nameLe a b = true :=
    Value.object.inj hobject ▸ Members.pairwise_canonical ms
  have hentries : sortEntries (spellingMembers ms) = ms.map fun m => (m.1, m.2.spelling) := by
    rw [spellingMembers_eq]
    exact List.mergeSort_of_pairwise (List.pairwise_map.mpr hsorted)
  rw [spelling, hentries, List.map_map]
  rfl

inductive Form where
  | null
  | bool
  | number
  | text
  | list
  | object
deriving DecidableEq

def form : Value → Form
  | .null => .null
  | .bool _ => .bool
  | .int _ | .float _ => .number
  | .str _ => .text
  | .list _ => .list
  | .object _ => .object

def Form.ofPoint? (p : CodePoint) : Option Form :=
  if p = .char 'N' then some .null
  else if p = .char 'T' ∨ p = .char 'F' then some .bool
  else if p = .char '"' then some .text
  else if p = .char '[' then some .list
  else if p = .char '\x7b' then some .object
  else if p.is Text.isNumeral then some .number
  else none

theorem ofPoint?_of_isNumeral {p : CodePoint} (h : p.is Text.isNumeral = true) :
    Form.ofPoint? p = some .number := by
  have hne : ∀ q ∈ ([.char 'N', .char 'T', .char 'F', .char '"', .char '[', .char '\x7b'] : Text),
      p ≠ q := by
    rintro q hq rfl
    have hclass : ∀ q ∈ ([.char 'N', .char 'T', .char 'F', .char '"', .char '[', .char '\x7b'] :
        Text), q.is Text.isNumeral = false := by decide
    rw [hclass p hq] at h
    cases h
  simp only [List.forall_mem_cons] at hne
  simp [Form.ofPoint?, hne, h]

theorem exists_spelling_eq {v : Value} (h : v.isExact = true) :
    ∃ p rest, v.spelling = p :: rest ∧ Form.ofPoint? p = some v.form := by
  cases v with
  | null => exact ⟨.char 'N', _, rfl, rfl⟩
  | bool b =>
    cases b with
    | false => exact ⟨.char 'F', _, rfl, rfl⟩
    | true => exact ⟨.char 'T', _, rfl, rfl⟩
  | int n =>
    obtain ⟨hne, hnumeral⟩ := Text.numeral_toString n
    obtain ⟨p, rest, htext⟩ := List.exists_cons_of_ne_nil hne
    rw [htext] at hnumeral
    exact ⟨p, rest, htext, ofPoint?_of_isNumeral (hnumeral p List.mem_cons_self)⟩
  | float x => cases h
  | str s => exact ⟨.char '"', _, rfl, rfl⟩
  | list items =>
    rw [spelling]
    exact ⟨.char '[', _, rfl, rfl⟩
  | object ms =>
    rw [spelling]
    exact ⟨.char '\x7b', _, rfl, rfl⟩

theorem form_eq {v w : Value} (hv : v.isExact = true) (hw : w.isExact = true) {x y : Text}
    (h : v.spelling ++ x = w.spelling ++ y) : v.form = w.form := by
  obtain ⟨p, rest, hspelling, hp⟩ := exists_spelling_eq hv
  obtain ⟨q, others, hspelling', hq⟩ := exists_spelling_eq hw
  rw [hspelling, hspelling'] at h
  rw [(List.cons.inj h).1, hq] at hp
  exact (Option.some.inj hp).symm

theorem spelling_append_ne {v : Value} (h : v.isExact = true) {close : CodePoint}
    (hclose : close ∈ [.char ']', .char '\x7d']) (rest s : Text) :
    v.spelling ++ rest ≠ close :: s := by
  obtain ⟨p, others, hspelling, hp⟩ := exists_spelling_eq h
  rw [hspelling]
  intro heq
  have hforms : ∀ q ∈ ([.char ']', .char '\x7d'] : Text), Form.ofPoint? q = none := by decide
  rw [(List.cons.inj heq).1, hforms close hclose] at hp
  cases hp

theorem memberText_append_ne (m : Text × Value) (rest s : Text) :
    memberText m ++ rest ≠ .char '\x7d' :: s := by
  intro h
  have hhead : CodePoint.char '"' = .char '\x7d' := (List.cons.inj h).1
  cases hhead

theorem telling_memberText {m m' : Text × Value} (h : Text.Telling spelling m.2 m'.2) :
    Text.Telling memberText m m' := by
  intro x y hx hy heq
  simp only [memberText, entryText, List.append_assoc] at heq
  obtain ⟨hname, hrest⟩ := Text.stringLiteral_append_inj heq
  obtain ⟨hvalue, hxy⟩ := h x y hx hy (List.append_cancel_left hrest)
  exact ⟨Prod.ext hname hvalue, hxy⟩

mutual

/-- A literal tells its value and where it ends. -/
theorem telling_spelling (v w : Value) (hv : v.Settled) (hw : w.Settled) :
    Text.Telling spelling v w := by
  intro x y hx hy h
  have hform := form_eq hv.exact hw.exact h
  match v with
  | .null =>
    cases w with
    | null => exact ⟨rfl, List.append_cancel_left h⟩
    | _ => cases hform
  | .bool b =>
    cases w with
    | bool b' =>
      cases b <;> cases b'
      · exact ⟨rfl, List.append_cancel_left h⟩
      · cases (List.cons.inj h).1
      · cases (List.cons.inj h).1
      · exact ⟨rfl, List.append_cancel_left h⟩
    | _ => cases hform
  | .int n =>
    cases w with
    | int n' =>
      obtain ⟨rfl, hxy⟩ := Text.toString_append_inj hx hy h
      exact ⟨rfl, hxy⟩
    | float x' => cases hw.exact
    | _ => cases hform
  | .float x => cases hv.exact
  | .str s =>
    cases w with
    | str s' =>
      obtain ⟨rfl, hxy⟩ := Text.stringLiteral_append_inj h
      exact ⟨rfl, hxy⟩
    | _ => cases hform
  | .list items =>
    cases w with
    | list items' =>
      have htell := telling_items items fun v => hv.of_mem
      have hclose : CodePoint.char ']' ∈ [.char ']', .char '\x7d'] := by decide
      have hopen : ∀ v ∈ items ++ items', v.isExact = true :=
        List.forall_mem_append.mpr
          ⟨isExact_list_iff.mp hv.exact, isExact_list_iff.mp hw.exact⟩
      rw [spelling, spellingItems_eq, spelling, spellingItems_eq] at h
      simp only [List.append_assoc] at h
      obtain ⟨rfl, hxy⟩ := Text.join_append_inj hclose
        (fun v hv w hw' => htell v hv w (hw.of_mem hw'))
        (fun v hv => spelling_append_ne (hopen v hv) hclose) (List.append_cancel_left h)
      exact ⟨rfl, hxy⟩
    | _ => cases hform
  | .object ms =>
    cases w with
    | object ms' =>
      have htell := telling_members ms fun m => hv.of_member
      have hclose : CodePoint.char '\x7d' ∈ [.char ']', .char '\x7d'] := by decide
      rw [hv.spelling_object, hw.spelling_object] at h
      simp only [List.append_assoc] at h
      obtain ⟨rfl, hxy⟩ := Text.join_append_inj hclose
        (fun m hm m' hm' => telling_memberText (htell m hm m'.2 (hw.of_member hm')))
        (fun m _ => memberText_append_ne m) (List.append_cancel_left h)
      exact ⟨rfl, hxy⟩
    | _ => cases hform

theorem telling_items (items : List Value) (h : ∀ v ∈ items, v.Settled) :
    ∀ v ∈ items, ∀ w : Value, w.Settled → Text.Telling spelling v w := by
  match items with
  | [] => exact fun _ hv => absurd hv List.not_mem_nil
  | v :: rest =>
    obtain ⟨hv, hrest⟩ := List.forall_mem_cons.mp h
    exact List.forall_mem_cons.mpr ⟨fun w => telling_spelling v w hv, telling_items rest hrest⟩

theorem telling_members (ms : List (Text × Value)) (h : ∀ m ∈ ms, m.2.Settled) :
    ∀ m ∈ ms, ∀ w : Value, w.Settled → Text.Telling spelling m.2 w := by
  match ms with
  | [] => exact fun _ hm => absurd hm List.not_mem_nil
  | (name, v) :: rest =>
    obtain ⟨hv, hrest⟩ := List.forall_mem_cons.mp h
    exact List.forall_mem_cons.mpr ⟨fun w => telling_spelling v w hv, telling_members rest hrest⟩

end

/-- A value without binary64 numbers has a literal exactly if no integer in it has too many digits.
Another one has the same literal exactly if it is the same up to the order of members, at every
depth. -/
theorem literal_eq_iff {v w : Value} (hv : v.distinct = true) (hw : w.distinct = true)
    (hexact : v.isExact = true) (hexact' : w.isExact = true) :
    v.literal.isSome = v.isWritable ∧
      (v.isWritable = true → (v.literal = w.literal ↔ v.Rearranged w)) := by
  refine ⟨by rw [literal_eq]; cases v.isWritable <;> rfl, fun hwritable => ?_⟩
  rw [← canonical_eq_iff v w hv hw]
  constructor
  · intro h
    rw [literal_eq, if_pos hwritable, eq_comm] at h
    have hspelling : v.canonical.spelling = w.canonical.spelling := by
      rw [spelling_canonical, spelling_canonical, (literal_eq_some_iff.mp h).2]
    have htell := telling_spelling _ _ (settled_canonical hexact) (settled_canonical hexact')
    exact (htell [] [] nofun nofun (congrArg (· ++ []) hspelling)).1
  · intro h
    rw [← literal_canonical v, h, literal_canonical w]

/-- An object whose members, and those of an object in it, are not in ascending order. -/
def jumbled : Value :=
  .object [("b", .list [.int (-1), .object [("y", .null), ("x", .str "\", \x7d")]]),
    ("a", .bool true)]

def arranged : Value :=
  .object [("a", .bool true),
    ("b", .list [.int (-1), .object [("x", .str "\", \x7d"), ("y", .null)]])]

/-- The least integer that has too many digits has no literal. -/
theorem literal_eq_iff_jumbled : jumbled.Rearranged arranged ∧
    ¬(Value.list [.int 1]).Rearranged (.list [.bool true]) ∧
    (Value.int (Decimal.pow10 Text.maxDigits)).literal = none := by
  refine ⟨?_, ?_, ?_⟩
  · exact ((literal_eq_iff (by decide) (by decide) (by decide) (by decide)).2 (by cbv)).mp (by cbv)
  · rw [← (literal_eq_iff (by decide) (by decide) (by decide) (by decide)).2 (by cbv)]
    decide
  · have hsome := (literal_eq_iff (v := .int (Decimal.pow10 Text.maxDigits)) (w := .null) rfl rfl
      rfl rfl).1
    have hlong : Text.isShort (Decimal.pow10 Text.maxDigits) = false := by
      rw [Bool.eq_false_iff, ne_eq, Text.isShort_iff, Int.natAbs_natCast]
      exact lt_irrefl _
    rw [isWritable_int, hlong] at hsome
    exact Option.not_isSome_iff_eq_none.mp (Bool.eq_false_iff.mp hsome)

end Value

end WorkflowCompiler
