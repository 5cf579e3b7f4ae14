import UrReplay.Files.Tree.Basic
import UrReplay.Text.Utf8
/-!
# UrReplay.Files.Tree.Walk

Following a path through a tree.

A walk takes the pieces of a path one by one, from the top of the tree on if the path is absolute, and
from the working directory on if it is relative. Whatever is not the last piece must lead to a
directory. Links are followed wherever they stand, up to a limit that ends every circle of links. The
directory above the top is the top.
-/

namespace UrReplay.FileTree

/-- What a path leads to. -/
inductive Arrival
  | directory (location : Location)
  | file (location : Location) (content : Bytes)
  /-- Nothing, in a directory that exists. -/
  | vacant (location : Location)
  deriving Repr, DecidableEq

/-- The longest name, in bytes. -/
def nameLimit : Nat := 255

/-- The longest path, in bytes. -/
def pathLimit : Nat := 4095

/-- The most links that a walk follows. -/
def linkLimit : Nat := 40

/-- Where a path begins that is followed from a directory: an absolute one at the top. -/
def start (path : Path) (directory : Location) : Location :=
  if path.isAbsolute then [] else directory

/-- Walks over the pieces of a path. A link is left to `follow`, with the place where its target
begins and the pieces from there on. -/
def walkWith (tree : FileTree) (follow : Location → List Text → Except FileError Arrival)
    (place : Location) : List Text → Except FileError Arrival
  | [] => .ok (.directory place)
  | piece :: rest =>
    if Path.isIdle piece then walkWith tree follow place rest
    else if piece = ['.', '.'] then walkWith tree follow place.tail rest
    else if nameLimit < Utf8.size piece then .error .inaccessible
    else
      match tree.get? (piece :: place) with
      | none => if rest = [] then .ok (.vacant (piece :: place)) else .error .notFound
      | some .directory => walkWith tree follow (piece :: place) rest
      | some (.file content) =>
        if rest = [] then .ok (.file (piece :: place) content) else .error .inaccessible
      | some (.link target) => follow (start target place) (target.pieces ++ rest)

/-- Walks over the pieces of a path and follows at most `links` links. -/
def walk (tree : FileTree) :
    (links : Nat) → Location → List Text → Except FileError Arrival
  | 0 => walkWith tree fun _ _ => .error .inaccessible
  | links + 1 => walkWith tree (walk tree links)

/-- What a path leads to. The empty path leads nowhere. -/
def resolve (tree : FileTree) (path : Path) : Except FileError Arrival :=
  if path.text = [] then .error .notFound
  else if '\x00' ∈ path.text ∨ pathLimit < Utf8.size path.text then .error .inaccessible
  else walk tree linkLimit (start path tree.home) path.pieces

/-- The location that a path itself names: a link at its end is not followed. -/
def locate? (tree : FileTree) (path : Path) : Option Location := do
  let name ← path.pieces.getLast?
  if Path.isIdle name || name == ['.', '.'] then none
  else
    match walk tree linkLimit (start path tree.home) path.pieces.dropLast with
    | .ok (.directory up) => some (name :: up)
    | _ => none

end UrReplay.FileTree
