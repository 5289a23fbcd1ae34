import WorkflowCompiler.Text.Basic
import WorkflowCompiler.Text.Character
import WorkflowCompiler.Text.Printable

/-! # Quoted text

Two ways to write a text between quotes. The first, for string literals, uses double quotes and
escapes only what has to be: the quote, the backslash and the control characters. The second, for
messages, prefers single quotes and escapes every code point that is not a printable character.
-/
namespace WorkflowCompiler.Text

def escapeChar (c : Char) : List Char :=
  if c = '"' then ['\\', '"']
  else if c = '\\' then ['\\', '\\']
  else if c = '\n' then ['\\', 'n']
  else if c = '\r' then ['\\', 'r']
  else if c = '\t' then ['\\', 't']
  else if c.toNat = 8 then ['\\', 'b']
  else if c.toNat = 12 then ['\\', 'f']
  else if c.toNat < 32 then '\\' :: 'u' :: toHex 4 c.toNat
  else [c]

def escape : CodePoint → Text
  | .char c => ofChars (escapeChar c)
  | .surrogate offset => [.surrogate offset]

def stringLiteral (text : Text) : Text := "\"" ++ text.flatMap escape ++ "\""

def numbered (c : Char) : List Char :=
  if c.toNat < 0x100 then '\\' :: 'x' :: toHex 2 c.toNat
  else if c.toNat < 0x10000 then '\\' :: 'u' :: toHex 4 c.toNat
  else '\\' :: 'U' :: toHex 8 c.toNat

def quoteChar (quote c : Char) : List Char :=
  if c = quote || c = '\\' then ['\\', c]
  else if c = '\n' then ['\\', 'n']
  else if c = '\r' then ['\\', 'r']
  else if c = '\t' then ['\\', 't']
  else if isPrintable c then [c]
  else numbered c

def quotePoint (quote : Char) : CodePoint → List Char
  | .char c => quoteChar quote c
  | .surrogate offset => '\\' :: 'u' :: toHex 4 (CodePoint.surrogate offset).toNat

def singleQuote : Char := Char.ofNat 39

/-- Single quotes, unless the text has one and has no double quote. -/
def quoteFor (text : Text) : Char :=
  if text.contains (.char singleQuote) && !text.contains (.char '"') then '"' else singleQuote

def quotation (text : Text) : String :=
  let quote := quoteFor text
  String.ofList (quote :: (text.flatMap (quotePoint quote) ++ [quote]))

end WorkflowCompiler.Text
