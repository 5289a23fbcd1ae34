import WorkflowCompiler.Storage.FileTree
import WorkflowCompiler.Text.Basic

/-! # File systems

All files there are, with the directory in which relative paths begin. An action that cannot be
carried out to its end keeps what it has done up to there.
-/
namespace WorkflowCompiler

structure FileSystem where
  root : FileTree
  /-- The names that lead from the root to the working directory. -/
  workingDirectory : List String

namespace FileSystem

/-- What an action leaves behind, and what it gives unless it fails. -/
abbrev Outcome (α : Type) := FileSystem × Except StorageFault α

def get? (fs : FileSystem) (names : List String) : Option FileEntry := fs.root.get? names

def put (fs : FileSystem) (names : List String) (new : FileTree) : FileSystem :=
  { fs with root := fs.root.put names new }

def maxNameBytes : Nat := 255

def maxPathBytes : Nat := 4095

def check (path : Path) : Except StorageFault Unit :=
  if path.parts.any fun part => part.toList.contains (Char.ofNat 0) then .error .nullInName
  else if maxPathBytes < path.text.utf8ByteSize then .error .nameTooLong
  else .ok ()

def enter (fs : FileSystem) (here : List String) (name : String) : Except StorageFault Unit :=
  match fs.get? here with
  | none => .error .missing
  | some (.file _) => .error .notADirectory
  | some .directory => if maxNameBytes < name.utf8ByteSize then .error .nameTooLong else .ok ()

def start (fs : FileSystem) (path : Path) : List String :=
  if path.root = "" then fs.workingDirectory else []

/-- Where a name leads. Two dots lead to the directory above; above the root there is none. -/
def step (here : List String) (part : String) : List String :=
  if part = ".." then here.dropLast else here ++ [part]

def place (fs : FileSystem) (path : Path) : List String := path.parts.foldl step (fs.start path)

/-- Goes on along the given names. Only the last one may be missing. -/
def follow (fs : FileSystem) (here : List String) : List String → Except StorageFault (List String)
  | [] => .ok here
  | part :: rest => do
    fs.enter here part
    fs.follow (step here part) rest

def find (fs : FileSystem) : Lookup := fun path => do
  check path
  match fs.get? (← fs.follow (fs.start path) path.parts) with
  | none => throw .missing
  | some entry => return entry

/-- Goes on along the given names and makes the directories that are missing. A file on the way is no
directory, but where one was `made` before it, the next one is made by its own name, which exists. -/
def makeFrom (fs : FileSystem) (made : Bool) (here : List String) :
    List String → Outcome (List String)
  | [] => (fs, .ok here)
  | part :: rest =>
    match fs.enter here part with
    | .error fault => (fs, .error fault)
    | .ok () =>
      let there := step here part
      match fs.get? there with
      | some .directory => fs.makeFrom made there rest
      | some (.file _) => (fs, .error (if rest.isEmpty || made then .exists else .notADirectory))
      | none => (fs.put there (.directory [])).makeFrom true there rest

def makeDirectory (fs : FileSystem) (path : Path) : Outcome (List String) :=
  match check path with
  | .error fault => (fs, .error fault)
  | .ok () => fs.makeFrom false (fs.start path) path.parts

/-- Writes a text to a file in a directory. A file is empty until its text is known to be one that can
be written. -/
def writeText (fs : FileSystem) (directory : List String) (name : String) (text : Text) :
    Outcome Unit :=
  match fs.enter directory name with
  | .error fault => (fs, .error fault)
  | .ok () =>
    match fs.get? (directory ++ [name]) with
    | some .directory => (fs, .error .isADirectory)
    | _ =>
      match text.toString? with
      | none => (fs.put (directory ++ [name]) (.file .empty), .error .notEncodable)
      | some content => (fs.put (directory ++ [name]) (.file content.toUTF8), .ok ())

end FileSystem

end WorkflowCompiler
