import WorkflowCompiler.Decimal.Binary64
import WorkflowCompiler.Text.Basic
import WorkflowCompiler.Text.Character
import WorkflowCompiler.Value.Basic

/-! # Reading JSON text

The reader takes the text from left to right and stops at the first fault, which it reports with
its place. Beyond the standard it takes `NaN` and the two infinities, and of two members with one
name the last value counts.
-/
namespace WorkflowCompiler.Json

inductive Problem where
  | noValue
  | noName
  | noColon
  | noComma
  | extraData
  | openString
  | badEscape
  | badUnicodeEscape
  | controlCharacter
  | byteOrderMark

def Problem.message : Problem → String
  | .noValue => "Expecting value"
  | .noName => "Expecting property name enclosed in double quotes"
  | .noColon => "Expecting ':' delimiter"
  | .noComma => "Expecting ',' delimiter"
  | .extraData => "Extra data"
  | .openString => "Unterminated string starting at"
  | .badEscape => "Invalid \\escape"
  | .badUnicodeEscape => "Invalid \\uXXXX escape"
  | .controlCharacter => "Invalid control character at"
  | .byteOrderMark => "Unexpected UTF-8 BOM (decode using utf-8-sig)"

inductive Fault where
  | malformed (problem : Problem) (offset : Nat)
  | longInteger (digits : Nat)

/-- What was read, the offset behind it, and the characters from there. -/
abbrev Scanned (α : Type) := α × Nat × List Char

def isSpace (c : Char) : Bool := c = ' ' || c = '\t' || c = '\n' || c = '\r'

def skipSpaces (pos : Nat) (cs : List Char) : Nat × List Char :=
  (pos + (cs.takeWhile isSpace).length, cs.dropWhile isSpace)

def simpleEscape? (c : Char) : Option Nat :=
  if c = '"' || c = '\\' || c = '/' then some c.toNat
  else if c = 'b' then some 8
  else if c = 'f' then some 12
  else if c = 'n' then some 10
  else if c = 'r' then some 13
  else if c = 't' then some 9
  else none

/-- The units of a string up to its closing quote; the string began at `start`. -/
def stringUnits (start : Nat) : Nat → List Char → Except Fault (Scanned (List Nat))
  | _, [] => .error (.malformed .openString start)
  | pos, '"' :: cs => .ok ([], pos + 1, cs)
  | _, ['\\'] => .error (.malformed .openString start)
  | pos, '\\' :: 'u' :: a :: b :: c :: d :: cs =>
    match cs.isEmpty, Text.ofHex? [a, b, c, d] with
    | false, some unit =>
      (stringUnits start (pos + 6) cs).map fun r => (unit :: r.1, r.2)
    | _, _ => .error (.malformed .badUnicodeEscape (pos + 1))
  | pos, '\\' :: 'u' :: _ => .error (.malformed .badUnicodeEscape (pos + 1))
  | pos, '\\' :: c :: cs =>
    match simpleEscape? c with
    | some unit => (stringUnits start (pos + 2) cs).map fun r => (unit :: r.1, r.2)
    | none => .error (.malformed .badEscape pos)
  | pos, c :: cs =>
    if c.toNat < 32 then .error (.malformed .controlCharacter pos)
    else (stringUnits start (pos + 1) cs).map fun r => (c.toNat :: r.1, r.2)

/-- A string whose opening quote stands right before `pos`. -/
def string (pos : Nat) (cs : List Char) : Except Fault (Scanned Text) :=
  (stringUnits (pos - 1) pos cs).map fun r => (Text.ofUnits r.1, r.2)

def spanDigits (cs : List Char) : List Char × List Char :=
  (cs.takeWhile Char.isDigit, cs.dropWhile Char.isDigit)

def digitsValue (ds : List Char) : Nat := ds.foldl (fun n d => 10 * n + (d.toNat - 48)) 0

/-- The whole part of a number: a zero, or digits that do not begin with one. -/
def wholePart (cs : List Char) : List Char × List Char :=
  match cs with
  | '0' :: rest => (['0'], rest)
  | _ => spanDigits cs

def fractionPart (cs : List Char) : Option (List Char × List Char) :=
  match cs with
  | '.' :: rest =>
    let r := spanDigits rest
    if r.1.isEmpty then none else some r
  | _ => none

structure Exponent where
  mark : List Char
  digits : List Char
  rest : List Char

def signPart (cs : List Char) : List Char × List Char :=
  match cs with
  | '-' :: rest => (['-'], rest)
  | '+' :: rest => (['+'], rest)
  | _ => ([], cs)

def exponentPart (cs : List Char) : Option Exponent :=
  match cs with
  | [] => none
  | e :: rest =>
    let sign := signPart rest
    let r := spanDigits sign.2
    if (e = 'e' || e = 'E') && !r.1.isEmpty then some ⟨e :: sign.1, r.1, r.2⟩ else none

/-- The value of an exponent, cut where it is beyond the range of the numbers anyway. -/
def Exponent.value (e : Exponent) : Int :=
  let n : Nat :=
    if 7 < (e.digits.dropWhile (· = '0')).length then 10000000 else digitsValue e.digits
  if e.mark.contains '-' then -(n : Int) else n

def Exponent.length (e : Exponent) : Nat := e.mark.length + e.digits.length

def number (pos : Nat) (cs : List Char) : Except Fault (Scanned Value) :=
  let (negative, body) :=
    match cs with
    | '-' :: rest => (true, rest)
    | _ => (false, cs)
  let (whole, afterWhole) := wholePart body
  if whole.isEmpty then .error (.malformed .noValue pos)
  else
    let fraction := fractionPart afterWhole
    let afterFraction := fraction.elim afterWhole (·.2)
    let exponent := exponentPart afterFraction
    let rest := exponent.elim afterFraction (·.rest)
    let next := pos + (if negative then 1 else 0) + whole.length
      + fraction.elim 0 (·.1.length + 1) + exponent.elim 0 (·.length)
    if fraction.isNone && exponent.isNone then
      if Text.maxDigits < whole.length then .error (.longInteger whole.length)
      else
        let n : Int := digitsValue whole
        .ok (.int (if negative then -n else n), next, rest)
    else
      let decimals := fraction.elim [] (·.1)
      let digits := (whole ++ decimals).dropWhile (· = '0')
      let e := exponent.elim 0 (·.value)
      let x := Decimal.ofDecimal negative (digitsValue digits) digits.length (e - decimals.length)
      .ok (.float x, next, rest)

def keywords : List (List Char × Value) :=
  [("null".toList, .null), ("true".toList, .bool true), ("false".toList, .bool false),
    ("NaN".toList, .float Decimal.nan), ("Infinity".toList, .float Decimal.infinity),
    ("-Infinity".toList, .float (-Decimal.infinity))]

def keyword? (pos : Nat) (cs : List Char) : Option (Scanned Value) :=
  (keywords.find? fun k => k.1.isPrefixOf cs).map fun k =>
    (k.2, pos + k.1.length, cs.drop k.1.length)

mutual

def value : (fuel : Nat) → Nat → List Char → Except Fault (Scanned Value)
  | 0, pos, _ => .error (.malformed .noValue pos)
  | fuel + 1, pos, cs =>
    match cs with
    | '"' :: rest => (string (pos + 1) rest).map fun r => (.str r.1, r.2)
    | '[' :: rest =>
      let (pos, rest) := skipSpaces (pos + 1) rest
      match rest with
      | ']' :: rest => .ok (.list [], pos + 1, rest)
      | _ => (items fuel pos rest).map fun r => (.list r.1, r.2)
    | '\x7b' :: rest =>
      let (pos, rest) := skipSpaces (pos + 1) rest
      match rest with
      | '\x7d' :: rest => .ok (.object [], pos + 1, rest)
      | _ => (members fuel pos rest).map fun r => (.object (Members.ofPairs r.1), r.2)
    | _ =>
      match keyword? pos cs with
      | some r => .ok r
      | none => number pos cs

/-- The items of a list up to its closing bracket; at least one has to follow. -/
def items : (fuel : Nat) → Nat → List Char → Except Fault (Scanned (List Value))
  | 0, pos, _ => .error (.malformed .noValue pos)
  | fuel + 1, pos, cs => do
    let (v, pos, cs) ← value fuel pos cs
    let (pos, cs) := skipSpaces pos cs
    match cs with
    | ']' :: rest => .ok ([v], pos + 1, rest)
    | ',' :: rest =>
      let (pos, rest) := skipSpaces (pos + 1) rest
      (items fuel pos rest).map fun r => (v :: r.1, r.2)
    | _ => .error (.malformed .noComma pos)

/-- The members of an object up to its closing brace; at least one has to follow. -/
def members : (fuel : Nat) → Nat → List Char → Except Fault (Scanned (List (Text × Value)))
  | 0, pos, _ => .error (.malformed .noName pos)
  | fuel + 1, pos, cs =>
    match cs with
    | '"' :: rest => do
      let (name, pos, cs) ← string (pos + 1) rest
      let (pos, cs) := skipSpaces pos cs
      match cs with
      | ':' :: rest =>
        let (pos, rest) := skipSpaces (pos + 1) rest
        let (v, pos, cs) ← value fuel pos rest
        let (pos, cs) := skipSpaces pos cs
        match cs with
        | '\x7d' :: rest => .ok ([(name, v)], pos + 1, rest)
        | ',' :: rest =>
          let (pos, rest) := skipSpaces (pos + 1) rest
          (members fuel pos rest).map fun r => ((name, v) :: r.1, r.2)
        | _ => .error (.malformed .noComma pos)
      | _ => .error (.malformed .noColon pos)
    | _ => .error (.malformed .noName pos)

end

/-- The value that a whole text holds. Every nested value takes at least one character more, so
twice the length is fuel enough. -/
def readChars (cs : List Char) : Except Fault Value :=
  match cs with
  | c :: _ =>
    if c.toNat = 0xFEFF then .error (.malformed .byteOrderMark 0) else whole
  | [] => whole
where
  whole : Except Fault Value := do
    let (pos, rest) := skipSpaces 0 cs
    let (v, pos, rest) ← value (2 * cs.length + 2) pos rest
    let (pos, rest) := skipSpaces pos rest
    if rest.isEmpty then .ok v else .error (.malformed .extraData pos)

def read (text : String) : Except Fault Value := readChars text.toList

def lineColumn (text : String) (offset : Nat) : Nat × Nat :=
  let before := text.toList.take offset
  (before.count '\n' + 1, (before.reverse.takeWhile (· ≠ '\n')).length + 1)

def Fault.message (text : String) : Fault → String
  | .malformed problem offset =>
    let (line, column) := lineColumn text offset
    problem.message ++ ": line " ++ toString line ++ " column " ++ toString column
      ++ " (char " ++ toString offset ++ ")"
  | .longInteger digits =>
    "Exceeds the limit (" ++ toString Text.maxDigits ++ " digits) for integer string conversion: "
      ++ "value has " ++ toString digits
      ++ " digits; use sys.set_int_max_str_digits() to increase the limit"

end WorkflowCompiler.Json
