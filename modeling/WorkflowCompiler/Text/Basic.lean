/-! # Texts

A text is a list of code points. Nearly all of them are characters. A surrogate is a code point
without being a character; an escape in a document can bring one into a text.
-/
namespace WorkflowCompiler

inductive CodePoint where
  | char (c : Char)
  /-- The surrogate at an offset from U+D800. -/
  | surrogate (offset : Fin 0x800)
deriving DecidableEq

namespace CodePoint

instance : Coe Char CodePoint := ⟨.char⟩

def toNat : CodePoint → Nat
  | .char c => c.toNat
  | .surrogate offset => 0xD800 + offset.val

def ofNat (n : Nat) : CodePoint :=
  if h : 0xD800 ≤ n ∧ n < 0xE000 then .surrogate ⟨n - 0xD800, by omega⟩ else .char (Char.ofNat n)

def char? : CodePoint → Option Char
  | .char c => some c
  | .surrogate _ => none

/-- Whether a code point is a character of a class; a surrogate is in none. -/
def is (inClass : Char → Bool) : CodePoint → Bool
  | .char c => inClass c
  | .surrogate _ => false

end CodePoint

abbrev Text := List CodePoint

namespace Text

def ofChars (cs : List Char) : Text := cs.map .char

@[coe]
def ofString (s : String) : Text := ofChars s.toList

instance : Coe String Text := ⟨ofString⟩

def chars (text : Text) : List Char := text.filterMap CodePoint.char?

def toString? (text : Text) : Option String := (text.mapM CodePoint.char?).map String.ofList

def le : Text → Text → Bool
  | [], _ => true
  | _ :: _, [] => false
  | a :: as, b :: bs => a.toNat < b.toNat || (a.toNat == b.toNat && le as bs)

def sort (texts : List Text) : List Text := texts.mergeSort le

def join (separator : Text) (texts : List Text) : Text := separator.intercalate texts

/-! ## Parts of a text -/

def occursIn (part : Text) : Text → Bool
  | [] => part.isEmpty
  | p :: ps => part.isPrefixOf (p :: ps) || occursIn part ps

/-- Puts `new` for every `old`, from the left; `skip` code points of an occurrence are still to be
passed over. -/
def replaceFrom (old new : Text) : (skip : Nat) → Text → Text
  | _, [] => []
  | skip + 1, _ :: ps => replaceFrom old new skip ps
  | 0, p :: ps =>
    if old.isPrefixOf (p :: ps) then new ++ replaceFrom old new (old.length - 1) ps
    else p :: replaceFrom old new 0 ps

def replaceAll (old new text : Text) : Text := replaceFrom old new 0 text

/-! ## Pieces and lines -/

/-- The pieces between the separators; there is always at least one. -/
def pieces {α : Type} [DecidableEq α] (separator : α) : List α → List (List α)
  | [] => [[]]
  | x :: xs =>
    match pieces separator xs with
    | [] => [[x]]
    | piece :: rest => if x = separator then [] :: piece :: rest else (x :: piece) :: rest

def unifyNewlineChars : List Char → List Char
  | [] => []
  | '\r' :: '\n' :: cs => '\n' :: unifyNewlineChars cs
  | '\r' :: cs => '\n' :: unifyNewlineChars cs
  | c :: cs => c :: unifyNewlineChars cs

def unifyNewlines (s : String) : String := String.ofList (unifyNewlineChars s.toList)

/-! ## UTF-16 units

Escapes in JSON text name UTF-16 units. A high surrogate with a low one behind it makes one
character; every other unit is a code point by itself.
-/

def isHigh (unit : Nat) : Bool := 0xD800 ≤ unit && unit < 0xDC00

def isLow (unit : Nat) : Bool := 0xDC00 ≤ unit && unit < 0xE000

def ofPair (high low : Nat) : CodePoint :=
  .ofNat (0x10000 + (high - 0xD800) * 0x400 + (low - 0xDC00))

/-- The text of some units; pairs are formed from the left. -/
def ofUnits : List Nat → Text
  | [] => []
  | [unit] => [.ofNat unit]
  | high :: low :: rest =>
    if isHigh high && isLow low then ofPair high low :: ofUnits rest
    else .ofNat high :: ofUnits (low :: rest)

def unitsOf (p : CodePoint) : List Nat :=
  if p.toNat < 0x10000 then [p.toNat]
  else [0xD800 + (p.toNat - 0x10000) / 0x400, 0xDC00 + (p.toNat - 0x10000) % 0x400]

end Text

end WorkflowCompiler
