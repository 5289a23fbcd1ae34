import WorkflowCompiler.Text.Basic

/-! # Paths

A path is a list of names below a root. Empty names and single dots say nothing and are left out.
-/
namespace WorkflowCompiler

structure Path where
  /-- Empty for a relative path, else one slash or exactly two. -/
  root : String := ""
  parts : List String
deriving DecidableEq

namespace Path

def ofText (s : String) : Path :=
  let root :=
    match (s.toList.takeWhile (· = '/')).length with
    | 0 => ""
    | 2 => "//"
    | _ => "/"
  let names := (Text.pieces '/' s.toList).map String.ofList
  { root, parts := names.filter fun part => part != "" && part != "." }

def text (path : Path) : String :=
  let s := path.root ++ "/".intercalate path.parts
  if s = "" then "." else s

def join (path : Path) (name : String) : Path := { path with parts := path.parts ++ [name] }

def name (path : Path) : String := path.parts.getLastD ""

/-- A name without its suffix, and the suffix: what begins at the last dot, unless the dot is the
first or the last character. -/
def splitName (name : String) : String × String :=
  let reversed := name.toList.reverse
  let behind := reversed.takeWhile (· ≠ '.')
  match behind, reversed.drop behind.length with
  | b :: bs, '.' :: s :: ss =>
    (String.ofList (s :: ss).reverse, String.ofList ('.' :: (b :: bs).reverse))
  | _, _ => (name, "")

def stem (path : Path) : String := (splitName path.name).1

def suffix (path : Path) : String := (splitName path.name).2

end Path

end WorkflowCompiler
