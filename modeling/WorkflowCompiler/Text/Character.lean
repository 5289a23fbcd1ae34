import WorkflowCompiler.Text.Basic

/-! # Classes of characters

A set of code points is kept as the ascending list of the places where membership changes: the
first is the beginning of a range, the second the place after its end, and so on.
-/
namespace WorkflowCompiler.Text

/-- A code point is in the set when an odd number of changes lie at or below it. -/
def inRanges (bounds : List Nat) (n : Nat) : Bool :=
  (bounds.takeWhile (· ≤ n)).length % 2 == 1

/-! ## Blanks and words

White space is Unicode's property of that name together with the four information separators.
Words are the maximal runs of characters that are not blank.
-/

def blankBounds : List Nat :=
  [9, 14, 28, 33, 133, 134, 160, 161, 5760, 5761, 8192, 8203, 8232, 8234, 8239, 8240, 8287, 8288,
    12288, 12289]

def isBlank (c : Char) : Bool := inRanges blankBounds c.toNat

/-- Nothing but blanks, the empty text included. -/
def isBlankText (text : Text) : Bool := text.all (·.is isBlank)

/-- The word that is open at the front, and the complete words behind it. -/
def wordStep (p : CodePoint) (state : Text × List Text) : Text × List Text :=
  if p.is isBlank then ([], if state.1.isEmpty then state.2 else state.1 :: state.2)
  else (p :: state.1, state.2)

def words (text : Text) : List Text :=
  let state := text.foldr wordStep ([], [])
  if state.1.isEmpty then state.2 else state.1 :: state.2

/-- The words of a text with one space between neighbours: no line break is left. -/
def oneLine (text : Text) : Text := join " " (words text)

def trimBoth {α : Type} (inClass : α → Bool) (xs : List α) : List α :=
  ((xs.dropWhile inClass).reverse.dropWhile inClass).reverse

def trim (text : Text) : Text := trimBoth (·.is isBlank) text

/-! ## Digits

Decimal digits come in runs of ten that count up from a zero. A few more characters, such as
superscripts and circled numbers, are digits without being decimal. Both tables are those of
Unicode 14.
-/

def decimalZeros : List Nat :=
  [
    48, 1632, 1776, 1984, 2406, 2534, 2662, 2790, 2918, 3046, 3174, 3302, 3430, 3558, 3664, 3792,
    3872, 4160, 4240, 6112, 6160, 6470, 6608, 6784, 6800, 6992, 7088, 7232, 7248, 42528, 43216,
    43264, 43472, 43504, 43600, 44016, 65296, 66720, 68912, 69734, 69872, 69942, 70096, 70384,
    70736, 70864, 71248, 71360, 71472, 71904, 72016, 72784, 73040, 73120, 92768, 92864, 93008,
    120782, 120792, 120802, 120812, 120822, 123200, 123632, 125264, 130032
  ]

def decimalValue? (c : Char) : Option Nat :=
  (decimalZeros.find? fun z => z ≤ c.toNat && c.toNat < z + 10).map (c.toNat - ·)

def digitBounds : List Nat :=
  [
    48, 58, 178, 180, 185, 186, 1632, 1642, 1776, 1786, 1984, 1994, 2406, 2416, 2534, 2544, 2662,
    2672, 2790, 2800, 2918, 2928, 3046, 3056, 3174, 3184, 3302, 3312, 3430, 3440, 3558, 3568,
    3664, 3674, 3792, 3802, 3872, 3882, 4160, 4170, 4240, 4250, 4969, 4978, 6112, 6122, 6160,
    6170, 6470, 6480, 6608, 6619, 6784, 6794, 6800, 6810, 6992, 7002, 7088, 7098, 7232, 7242,
    7248, 7258, 8304, 8305, 8308, 8314, 8320, 8330, 9312, 9321, 9332, 9341, 9352, 9361, 9450,
    9451, 9461, 9470, 9471, 9472, 10102, 10111, 10112, 10121, 10122, 10131, 42528, 42538, 43216,
    43226, 43264, 43274, 43472, 43482, 43504, 43514, 43600, 43610, 44016, 44026, 65296, 65306,
    66720, 66730, 68160, 68164, 68912, 68922, 69216, 69225, 69714, 69723, 69734, 69744, 69872,
    69882, 69942, 69952, 70096, 70106, 70384, 70394, 70736, 70746, 70864, 70874, 71248, 71258,
    71360, 71370, 71472, 71482, 71904, 71914, 72016, 72026, 72784, 72794, 73040, 73050, 73120,
    73130, 92768, 92778, 92864, 92874, 93008, 93018, 120782, 120832, 123200, 123210, 123632,
    123642, 125264, 125274, 127232, 127243, 130032, 130042
  ]

def isDigit (c : Char) : Bool := inRanges digitBounds c.toNat

/-! ## Hexadecimal digits -/

def hexValue? (c : Char) : Option Nat :=
  if '0' ≤ c && c ≤ '9' then some (c.toNat - 48)
  else if 'a' ≤ c && c ≤ 'f' then some (c.toNat - 87)
  else if 'A' ≤ c && c ≤ 'F' then some (c.toNat - 55)
  else none

def ofHex? (cs : List Char) : Option Nat :=
  cs.foldl (fun n c => n.bind fun n => (hexValue? c).map (16 * n + ·)) (some 0)

/-- A number as exactly `width` hexadecimal digits in lower case. -/
def toHex : (width : Nat) → Nat → List Char
  | 0, _ => []
  | width + 1, n => toHex width (n / 16) ++ [Nat.digitChar (n % 16)]

/-! ## Integers

An integer in a setting or an argument may have white space around it, a sign, digits of any decimal
script, and single underscores between digits. One with very many digits is neither read nor written.
-/

/-- The most digits of an integer that is read or written. -/
def maxDigits : Nat := 4300

def isShort (n : Int) : Bool := (Nat.toDigits 10 n.natAbs).length ≤ maxDigits

def ofInt? (n : Int) : Option Text := if isShort n then some (toString n) else none

def groupedDigits? : List Char → Option (List Nat)
  | [] => none
  | [c] => (decimalValue? c).map ([·])
  | c :: '_' :: rest => do
    let d ← decimalValue? c
    let ds ← groupedDigits? rest
    some (d :: ds)
  | c :: rest => do
    let d ← decimalValue? c
    let ds ← groupedDigits? rest
    some (d :: ds)

def naturalOf? (cs : List Char) : Option Nat := do
  let ds ← groupedDigits? cs
  if maxDigits < ds.length then none
  else some (ds.foldl (fun n d => 10 * n + d) 0)

/-- White space in the narrow sense, without the information separators. -/
def isMargin (c : Char) : Bool := isBlank c && !inRanges [28, 32] c.toNat

def integer? (s : String) : Option Int :=
  match trimBoth isMargin s.toList with
  | '-' :: cs => (naturalOf? cs).map fun n => -(n : Int)
  | '+' :: cs => (naturalOf? cs).map Int.ofNat
  | cs => (naturalOf? cs).map Int.ofNat

end WorkflowCompiler.Text
