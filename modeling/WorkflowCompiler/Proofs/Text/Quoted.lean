import Mathlib
import WorkflowCompiler.Json.Reader
import WorkflowCompiler.Proofs.Code.Grammar
import WorkflowCompiler.Text.Quoted

/-! # String literals are faithful

The escape of a code point can be read back, whatever follows it. So a string literal at the
beginning of a text tells which text it stands for and where it ends.
-/
namespace WorkflowCompiler.Text

/-- The code point of an escape whose backslash has been read, and what follows it. -/
def markedPoint? : Text → Option (CodePoint × Text)
  | .char c :: rest =>
    if c = 'u' then (ofHex? (chars (rest.take 4))).map fun n => (.ofNat n, rest.drop 4)
    else (Json.simpleEscape? c).map fun n => (.ofNat n, rest)
  | _ => none

/-- The code point at the beginning of the inside of a string literal, and what follows it. -/
def firstPoint? : Text → Option (CodePoint × Text)
  | [] => none
  | p :: rest => if p = .char '\\' then markedPoint? rest else some (p, rest)

theorem firstPoint?_cons {p : CodePoint} (h : p ≠ .char '\\') (rest : Text) :
    firstPoint? (p :: rest) = some (p, rest) := by rw [firstPoint?, if_neg h]

theorem ofNat_toNat {c : Char} (h : c.toNat < 0xD800) : CodePoint.ofNat c.toNat = .char c := by
  rw [CodePoint.ofNat, dif_neg (by omega), Char.ofNat_toNat]

theorem chars_ofChars (cs : List Char) : chars (ofChars cs) = cs := by
  induction cs with
  | nil => rfl
  | cons c rest ih => exact congrArg (c :: ·) ih

theorem markedPoint?_toHex {n : Nat} (h : n < 32) (rest : Text) :
    markedPoint? (.char 'u' :: (ofChars (toHex 4 n) ++ rest)) = some (.ofNat n, rest) := by
  have hread : ∀ n < 32, ofHex? (toHex 4 n) = some n := by decide
  have hlength : (ofChars (toHex 4 n)).length = 4 := by rw [ofChars, List.length_map, length_toHex]
  rw [markedPoint?, if_pos rfl, List.take_left' hlength, List.drop_left' hlength, chars_ofChars,
    hread n h, Option.map_some]

/-- A code point is read back from its escape, whatever follows. -/
theorem firstPoint?_escape (p : CodePoint) (rest : Text) :
    firstPoint? (escape p ++ rest) = some (p, rest) := by
  cases p with
  | surrogate offset => exact firstPoint?_cons (p := .surrogate offset) nofun rest
  | char c =>
    rw [escape, escapeChar]
    split
    next h => subst h; rfl
    split
    next h => subst h; rfl
    split
    next h => subst h; rfl
    split
    next h => subst h; rfl
    split
    next h => subst h; rfl
    split
    next h =>
      rw [← ofNat_toNat (by omega : c.toNat < 0xD800), h]
      rfl
    split
    next h =>
      rw [← ofNat_toNat (by omega : c.toNat < 0xD800), h]
      rfl
    split
    next h =>
      rw [← ofNat_toNat (by omega : c.toNat < 0xD800)]
      exact markedPoint?_toHex h rest
    next hbackslash _ _ _ _ _ _ =>
      exact firstPoint?_cons (fun heq => hbackslash (CodePoint.char.inj heq)) rest

theorem escape_append_ne (p : CodePoint) (rest s : Text) : escape p ++ rest ≠ .char '"' :: s := by
  intro h
  have hfirst := firstPoint?_escape p rest
  rw [h, firstPoint?_cons (by decide)] at hfirst
  cases hfirst
  exact absurd (List.cons.inj h).1 (by decide)

theorem flatMap_escape_inj {s t x y : Text}
    (h : s.flatMap escape ++ .char '"' :: x = t.flatMap escape ++ .char '"' :: y) :
    s = t ∧ x = y := by
  induction s generalizing t with
  | nil =>
    cases t with
    | nil => exact ⟨rfl, (List.cons.inj h).2⟩
    | cons q others =>
      rw [List.flatMap_cons, List.append_assoc] at h
      exact absurd h.symm (escape_append_ne q _ _)
  | cons p rest ih =>
    cases t with
    | nil =>
      rw [List.flatMap_cons, List.append_assoc] at h
      exact absurd h (escape_append_ne p _ _)
    | cons q others =>
      rw [List.flatMap_cons, List.append_assoc, List.flatMap_cons, List.append_assoc] at h
      have hfirst := congrArg firstPoint? h
      rw [firstPoint?_escape, firstPoint?_escape, Option.some.injEq, Prod.mk.injEq] at hfirst
      obtain ⟨hrest, hxy⟩ := ih hfirst.2
      exact ⟨List.cons_eq_cons.mpr ⟨hfirst.1, hrest⟩, hxy⟩

/-- A string literal at the beginning of a text tells its text and where it ends. -/
theorem stringLiteral_append_inj {s t x y : Text}
    (h : stringLiteral s ++ x = stringLiteral t ++ y) : s = t ∧ x = y := by
  have hinside : s.flatMap escape ++ .char '"' :: x = t.flatMap escape ++ .char '"' :: y := by
    simpa [stringLiteral, ofString, ofChars] using h
  exact flatMap_escape_inj hinside

end WorkflowCompiler.Text
