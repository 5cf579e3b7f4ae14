import UrReplay.Bytes
import UrReplay.Files.Path
/-!
# UrReplay.Files.Access

What the library asks of a file system: to read a file, to write a file, and to list a directory.
Programs that need files are generic in the monad that gives these operations, so the same program
runs on a file system and on a value that models one. Names are text here as in paths, so a name that
is not UTF-8 is none that these operations know.
-/

namespace UrReplay

/-- Why a file system refuses an operation. -/
inductive FileError
  /-- Nothing exists at the path. -/
  | notFound
  /-- All else: a directory where a file is needed, a file where a directory is needed, a path that
  cannot be followed. -/
  | inaccessible
  deriving Repr, DecidableEq

/-- An entry of a directory. -/
structure Listed where
  name : Text
  /-- Whether it is a file itself, and not a directory or a link. -/
  isFile : Bool
  deriving Repr, DecidableEq

/-- Access to a file system. -/
class MonadFiles (m : Type → Type) where
  /-- The content of the file at a path. -/
  readFile : Path → m (Except FileError Bytes)
  /-- Gives the file at a path a new content, and creates it if its directory exists. -/
  writeFile : Path → Bytes → m (Except FileError Unit)
  /-- The entries of the directory at a path, in any order. A file counts as a directory without
  entries. -/
  listDirectory : Path → m (Except FileError (List Listed))

end UrReplay
