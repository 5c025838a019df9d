import Monotype.Text

namespace Monotype

/-!
Paths, and a model of the files below a working directory.

A path is resolved by its text alone: empty parts and `.` are dropped and `..`
takes back the part before it, whatever the disk holds.  Reading fails in one of
four ways, each with its own wording.
-/

/-- A resolved path: the parts below `base`.  The base of an ordinary path is
empty; a path inside a tree that is known under another name has that name as
its base. -/
structure Path where
  base : Text := []
  parts : List Text := []
  deriving DecidableEq

namespace Path

def text (path : Path) : Text :=
  if path.base = [] ∧ path.parts = [] then "/"
  else path.base ++ path.parts.flatMap (fun part => CodeUnit.ofChar '/' :: part)

/-- Go on from a path by one part. -/
def descend (path : Path) (part : Text) : Path :=
  if part = [] ∨ part = ("." : Text) then path
  else if part = (".." : Text) then { path with parts := path.parts.dropLast }
  else { path with parts := path.parts ++ [part] }

/-- The path that a text names inside a directory. -/
def resolve (directory : Path) (name : Text) : Path :=
  let start : Path := if name.head? = some '/' then {} else directory
  (Text.splitOn '/' name).foldl descend start

end Path

inductive ReadFault where
  | missing
  | directory
  | insideFile
  | other (reason : Text)
  deriving DecidableEq

namespace ReadFault

def message (path : Path) : ReadFault -> Text
  | missing => "ENOENT: no such file or directory, open " ++ Text.quoted path.text
  | directory => "EISDIR: illegal operation on a directory, read"
  | insideFile => "ENOTDIR: not a directory, open " ++ Text.quoted path.text
  | other reason => reason

end ReadFault

/-- Files with their contents, and the directory in which a command runs. -/
structure FileTree where
  directory : Path
  files : List (Path × Text)

namespace FileTree

def isInside (inner outer : Path) : Bool :=
  inner.base = outer.base && outer.parts.length < inner.parts.length
    && inner.parts.take outer.parts.length = outer.parts

/-- A path is a directory if it leads to the working directory or to a file. -/
def isDirectory (tree : FileTree) (path : Path) : Bool :=
  path = tree.directory || path = {} || isInside tree.directory path
    || tree.files.any (fun file => isInside file.1 path)

def read (tree : FileTree) (path : Path) : Except ReadFault Text :=
  match tree.files.find? (fun file => file.1 = path) with
  | some file => .ok file.2
  | none =>
      if tree.isDirectory path then .error .directory
      else if tree.files.any (fun file => isInside path file.1) then .error .insideFile
      else .error .missing

end FileTree

end Monotype
