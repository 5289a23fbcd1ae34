import WorkflowCompiler.Text.Character

/-! # Identifiers from names

A name becomes an identifier by keeping its letters and digits in lower case and putting one
underscore wherever anything else separated two of them.
-/
namespace WorkflowCompiler.Identifier

def reservedWords : List Text :=
  List.map Text.ofString
    ["False", "None", "True", "and", "as", "assert", "async", "await", "break", "class",
      "continue", "def", "del", "elif", "else", "except", "finally", "for", "from", "global", "if",
      "import", "in", "is", "lambda", "nonlocal", "not", "or", "pass", "raise", "return", "try",
      "while", "with", "yield"]

def isReserved (s : Text) : Bool := reservedWords.contains s

/-- Lower case, as far as it can bring out an ASCII letter: besides the capitals that is so for the
Kelvin sign and for the dotted capital I, whose dot becomes a mark of its own. -/
def lowerChar (c : Char) : List Char :=
  if c.toNat = 0x130 then ['i', Char.ofNat 0x307]
  else if c.toNat = 0x212A then ['k']
  else [c.toLower]

def lower : CodePoint → Text
  | .char c => Text.ofChars (lowerChar c)
  | .surrogate offset => [.surrogate offset]

def isWordChar (c : Char) : Bool := ('a' ≤ c && c ≤ 'z') || ('0' ≤ c && c ≤ '9')

def isUnderscore (p : CodePoint) : Bool := p == .char '_'

def isForeign (p : CodePoint) : Bool := !p.is isWordChar && !isUnderscore p

/-- Puts one underscore for every run of a class of code points; `running` inside of such a run. -/
def squeeze (inClass : CodePoint → Bool) : Text → (running : Bool) → Text
  | [], _ => []
  | p :: ps, running =>
    if inClass p then
      if running then squeeze inClass ps true else .char '_' :: squeeze inClass ps true
    else p :: squeeze inClass ps false

/-- The stem of an identifier: the words of a name joined by underscores. -/
def stem (name : Text) : Text :=
  let plain := squeeze isForeign ((Text.trim name).flatMap lower) false
  Text.trimBoth isUnderscore (squeeze isUnderscore plain false)

def unlead (fallback text : Text) : Text :=
  match text with
  | [] => []
  | p :: _ => if p.is Text.isDigit then fallback ++ "_" ++ text else text

def unreserve (text : Text) : Text := if isReserved text then text ++ "_" else text

/-- The identifier of a name, made from the fallback where the name has no word characters. It is
empty only if the fallback is needed and is empty itself. -/
def ofName (name fallback : Text) : Text :=
  let words := stem name
  unreserve (unlead fallback (if words.isEmpty then fallback else words))

def nodeFallback : Text := "node"

def workflowFallback : Text := "workflow"

/-! ## Allocation

An allocator hands out identifiers that are not taken yet. A name whose identifier is taken gets
the first free number from two upwards behind it.
-/

structure Allocator where
  taken : List Text

namespace Allocator

def numbered (base : Text) (n : Nat) : Text := base ++ "_" ++ toString n

/-- The first free numbered identifier, from `n` upwards. With one attempt more than there are
taken identifiers one of them is free. -/
def firstFree (taken : List Text) (base : Text) : (attempts : Nat) → (n : Nat) → Text
  | 0, n => numbered base n
  | attempts + 1, n =>
    if taken.contains (numbered base n) then firstFree taken base attempts (n + 1)
    else numbered base n

def choose (taken : List Text) (base : Text) : Text :=
  if taken.contains base then firstFree taken base taken.length 2 else base

def allocate (a : Allocator) (name fallback : Text) : Text × Allocator :=
  let ident := choose a.taken (ofName name fallback)
  (ident, ⟨ident :: a.taken⟩)

end Allocator

end WorkflowCompiler.Identifier
