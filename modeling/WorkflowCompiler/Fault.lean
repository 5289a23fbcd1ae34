import WorkflowCompiler.Value.Text

/-! # Faults of the compiler

A fault says that a stage met something that the stages before it should have excluded, or that
was put together by hand. The compiler reports every fault in the same words; the messages here
are for those who call a single stage.
-/
namespace WorkflowCompiler

inductive Fault where
  /-- Terminated ports that cannot be searched. -/
  | portsNotSearchable (value : Value)
  /-- A graph was to be resolved that had not been validated. -/
  | notValidated
  /-- A walk came back to a node that it was still resolving. -/
  | reentered (id : Text)
  /-- An edge leads to a node that does not exist. -/
  | unknownNode (id : Text)
  | unknownLoopKind (value : Value)
  | unknownJoin (value : Value)
  /-- There is no block where one is needed. -/
  | noBlock
  /-- Something without a block has no head. -/
  | noHead
  /-- Something without a block cannot be described. -/
  | notDescribable
  /-- Two blocks have one key. -/
  | repeatedBlock (key : Text)
  | looseArm (arm owner : Text)
  /-- A template lacks a part. -/
  | missingPart (part : Text)
  /-- A kind that reports no outcome was split by outcome. -/
  | noOutcome (kind : Text)
  | noConstruct (profile role : Text)
  /-- A delay without an amount. -/
  | noAmount
  /-- A text that is not in a table of choices. -/
  | unknownChoice (value : Value)
  /-- A value that no table can be searched for. -/
  | notAChoice (value : Value)
  /-- An amount that cannot be multiplied. -/
  | notScalable (value : Value)
  /-- A number with more digits than are written. -/
  | longNumber

namespace Fault

def longNumberMessage : Text :=
  "Exceeds the limit (" ++ toString Text.maxDigits ++ " digits) for integer string conversion; "
    ++ "use sys.set_int_max_str_digits() to increase the limit"

/-- A message about a value. One that cannot be shown is what the message speaks of instead. -/
def about (v : Value) (text : Text → Text) : Text := v.quoted.elim longNumberMessage text

def message : Fault → Text
  | .portsNotSearchable v => about v ("ports cannot be looked up in " ++ ·)
  | .notValidated => "Resolver requires a ValidatedGraph, got Graph"
  | .reentered id =>
    "Resolver re-entered node '" ++ id ++ "'; the graph has an unchecked cycle"
  | .unknownNode id => "Resolver reached unknown node '" ++ id ++ "'"
  | .unknownLoopKind v => about v (· ++ " is not a valid LoopKind")
  | .unknownJoin v => about v (· ++ " is not a valid JoinStrategy")
  | .noBlock => "Emitter cannot render NoneType"
  | .noHead => "there is no block to begin with"
  | .notDescribable => "there is no block to describe"
  | .repeatedBlock key => "IR block '" ++ key ++ "' reached the emitter twice"
  | .looseArm arm owner => "Arm '" ++ arm ++ "' of '" ++ owner ++ "' is not a Sequence"
  | .missingPart part => "the part " ++ Text.quotation part ++ " is missing"
  | .noOutcome kind => "no outcome ports for " ++ kind
  | .noConstruct profile role =>
    "Profile '" ++ profile ++ "' has no construct for role '" ++ role ++ "'"
  | .noAmount => "the delay has no amount"
  | .unknownChoice v => about v (· ++ " is not among the choices")
  | .notAChoice v => about v (· ++ " cannot be a choice")
  | .notScalable v => about v (· ++ " cannot be multiplied")
  | .longNumber => longNumberMessage

end Fault

def Value.shown (v : Value) : Except Fault Text :=
  match v.text with
  | some text => .ok text
  | none => .error .longNumber

end WorkflowCompiler
