import WorkflowCompiler.Fault
import WorkflowCompiler.Graph.Basic
import WorkflowCompiler.Profile.Basic
import WorkflowCompiler.Storage.Path
import WorkflowCompiler.Text.WordCharacter

/-! # Profiles from values

A profile is given as an object of changes to one of the built-in profiles.
-/
namespace WorkflowCompiler.Profile

inductive Fault where
  | notAnObject
  | unknownKeys (keys : List Text)
  /-- A base that is no name at all. -/
  | baseNotAName (base : Value)
  | unknownBase (base : Text)
  | notAMap (key : Text)
  | notAnIdentifier (key member : Text)
  | unknownRoles (roles : List Text)
  | unknownSlots (slots : List Text)
  | notTexts (key : Text)
  /-- A number with more digits than are written. -/
  | longNumber

def Fault.message : Fault → Text
  | .notAnObject => "profile must be a JSON object"
  | .unknownKeys keys => "unknown profile keys: " ++ Text.join ", " keys
  | .baseNotAName base => base.typeName ++ " cannot be the name of a base profile"
  | .unknownBase base => "unknown base profile '" ++ base ++ "'"
  | .notAMap key => "'" ++ key ++ "' must be an object"
  | .notAnIdentifier key member =>
    "'" ++ key ++ "." ++ member ++ "' must be an identifier that is not a keyword"
  | .unknownRoles roles => "unknown construct roles: " ++ Text.join ", " roles
  | .unknownSlots slots => "unknown keyword slots: " ++ Text.join ", " slots
  | .notTexts key => "'" ++ key ++ "' must be a list of strings"
  | .longNumber => WorkflowCompiler.Fault.longNumberMessage

/-- Whether a fault is a mistake in the profile, and not trouble in telling what it says. -/
def Fault.isMistake : Fault → Bool
  | .baseNotAName _ | .longNumber => false
  | _ => true

def keys : List Text :=
  ["base", "name", "imports", "constructs", "keywords", "rootIdentifier", "entrypoint", "reserved",
    "identifierNames", "bodyAsList"]

def noSource : String := "<profile>"

def readText (value : Option Value) (default : Text) : Except Fault Text :=
  match value with
  | none => .ok default
  | some v =>
    match v.text with
    | some text => .ok text
    | none => .error .longNumber

def readBase (data : Members) : Except Fault Profile :=
  match data.get? "base" with
  | none => .ok standard
  | some (.list items) => .error (.baseNotAName (.list items))
  | some (.object members) => .error (.baseNotAName (.object members))
  | some base =>
    match base.str?.bind named? with
    | some profile => .ok profile
    | none => do
      let shown ← readText (some base) []
      .error (.unknownBase shown)

def isCodeName : Value → Bool
  | .str s => Text.isIdentifier s && !Identifier.isReserved s
  | _ => false

/-- The members of an object of names. Where names may be left out, null leaves one out. -/
def readNames (data : Members) (key : Text) (nullable : Bool) : Except Fault Members :=
  match data.get? key with
  | none => .ok []
  | some (.object members) =>
    match members.find? fun m => !(isCodeName m.2 || (nullable && m.2.isNull)) with
    | some m => .error (.notAnIdentifier key m.1)
    | none => .ok members
  | some _ => .error (.notAMap key)

def texts? : Value → Option (List Text)
  | .list items => items.mapM (·.str?)
  | _ => none

def readTexts (key : Text) (value : Option Value) (default : List Text) :
    Except Fault (List Text) :=
  match value with
  | none => .ok default
  | some v =>
    match texts? v with
    | some xs => .ok xs
    | none => .error (.notTexts key)

/-- The lines of an entry point; whatever counts as not given stands for none. -/
def readEntrypoint (data : Members) (base : Profile) : Except Fault (List Text) :=
  match data.get? "entrypoint" with
  | some v => if v.isGiven then readTexts "entrypoint" (some v) [] else .ok []
  | none => .ok base.entrypoint

/-- The name of a profile that gives none: that of its file or else that of its base. -/
def defaultName (source : String) (base : Profile) : Text :=
  if source = noSource then base.name else (Path.ofText source).stem

def unknownNames (members : Members) (known : List Text) : List Text :=
  Text.sort (members.names.filter fun name => !known.contains name)

def ofMembers (source : String) (data : Members) : Except Fault Profile := do
  let unknown := unknownNames data keys
  if !unknown.isEmpty then throw (.unknownKeys unknown)
  let base ← readBase data
  let constructs ← readNames data "constructs" false
  let roles := unknownNames constructs (Role.all.map Role.name)
  if !roles.isEmpty then throw (.unknownRoles roles)
  let keywords ← readNames data "keywords" true
  let slots := unknownNames keywords (Slot.all.map Slot.name)
  if !slots.isEmpty then throw (.unknownSlots slots)
  let name ← readText (data.get? "name") (defaultName source base)
  let imports ← readTexts "imports" (data.get? "imports") base.imports
  let root ← readText (data.get? "rootIdentifier") base.rootIdentifier
  let entrypoint ← readEntrypoint data base
  let reserved ← readTexts "reserved" (data.get? "reserved") base.reserved
  return {
    name
    imports
    construct := fun role =>
      ((constructs.get? role.name).bind Value.str?).getD (base.construct role)
    keyword := fun slot =>
      match keywords.get? slot.name with
      | some v => v.str?
      | none => base.keyword slot
    rootIdentifier := Identifier.ofName root Identifier.nodeFallback
    entrypoint
    reserved
    identifierNames := (data.get? "identifierNames").elim base.identifierNames Value.isGiven
    bodyAsList := (data.get? "bodyAsList").elim base.bodyAsList Value.isGiven }

def ofValue (source : String) : Value → Except Fault Profile
  | .object data => ofMembers source data
  | _ => .error .notAnObject

end WorkflowCompiler.Profile
