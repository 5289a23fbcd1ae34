import WorkflowCompiler.Storage.Path

/-! # Stored files

What a path leads to, and why it may lead nowhere.
-/
namespace WorkflowCompiler

inductive StorageFault where
  | missing
  | notADirectory
  | isADirectory
  | exists
  | nameTooLong
  /-- A name holds the null character. -/
  | nullInName
  /-- The bytes are no text. -/
  | notDecodable
  /-- The text cannot be written as bytes. -/
  | notEncodable
deriving DecidableEq

inductive FileEntry where
  | file (content : ByteArray)
  | directory

abbrev Lookup := Path → Except StorageFault FileEntry

namespace Lookup

def find? (find : Lookup) (path : Path) : Except StorageFault (Option FileEntry) :=
  match find path with
  | .ok entry => .ok (some entry)
  | .error .missing | .error .notADirectory | .error .nullInName => .ok none
  | .error fault => .error fault

/-- The text of a file, with line feeds at the ends of lines. -/
def readText (find : Lookup) (path : Path) : Except StorageFault String :=
  match find path with
  | .error fault => .error fault
  | .ok .directory => .error .isADirectory
  | .ok (.file content) =>
    match String.fromUTF8? content with
    | none => .error .notDecodable
    | some text => .ok (Text.unifyNewlines text)

end Lookup

/-! ## File trees

A directory holds files and other directories by their names.
-/

inductive FileTree where
  | file (content : ByteArray)
  | directory (children : List (String × FileTree))

namespace FileTree

def entry : FileTree → FileEntry
  | .file content => .file content
  | .directory _ => .directory

def child? : FileTree → String → Option FileTree
  | .file _, _ => none
  | .directory children, name => children.lookup name

def setChild : FileTree → String → FileTree → FileTree
  | .file content, _, _ => .file content
  | .directory children, name, child =>
    .directory ((name, child) :: children.filter (·.1 != name))

/-- What stands at the end of some names, which lead from one directory to the next. -/
def get? (tree : FileTree) : List String → Option FileEntry
  | [] => some tree.entry
  | name :: rest =>
    match tree.child? name with
    | none => none
    | some child => child.get? rest

/-- Sets what stands at the end of some names. Directories that are missing on the way are made. -/
def put (tree : FileTree) (names : List String) (new : FileTree) : FileTree :=
  match names with
  | [] => new
  | name :: rest =>
    tree.setChild name (((tree.child? name).getD (.directory [])).put rest new)

end FileTree

end WorkflowCompiler
