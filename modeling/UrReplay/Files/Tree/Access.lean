import UrReplay.Files.Tree.Walk
/-!
# UrReplay.Files.Tree.Access

Reading, writing and listing in a tree, which makes `StateM FileTree` a monad with files, and
setting a tree up.
-/

namespace UrReplay.FileTree

/-- The content of the file that a path leads to. -/
def read (tree : FileTree) (path : Path) : Except FileError Bytes :=
  match tree.resolve path with
  | .ok (.file _ content) => .ok content
  | .ok (.vacant _) => .error .notFound
  | .ok (.directory _) => .error .inaccessible
  | .error e => .error e

/-- The tree after writing the file that a path leads to. -/
def write (tree : FileTree) (path : Path) (content : Bytes) : Except FileError FileTree :=
  match tree.resolve path with
  | .ok (.file location _) => .ok (tree.insert location (.file content))
  | .ok (.vacant location) => .ok (tree.insert location (.file content))
  | .ok (.directory _) => .error .inaccessible
  | .error e => .error e

/-- The entries of the directory that a path leads to. -/
def list (tree : FileTree) (path : Path) : Except FileError (List Listed) :=
  match tree.resolve path with
  | .ok (.directory location) => .ok (tree.children location)
  | .ok (.file ..) => .ok []
  | .ok (.vacant _) => .error .notFound
  | .error e => .error e

instance : MonadFiles (StateM FileTree) where
  readFile path := return (← get).read path
  writeFile path content := do
    match (← get).write path content with
    | .ok tree =>
      set tree
      return .ok ()
    | .error e => return .error e
  listDirectory path := return (← get).list path

/-! ### Setting up -/

/-- The tree with a directory at a path, if there is none. -/
def makeDirectory? (tree : FileTree) (path : Path) : Option FileTree :=
  match tree.resolve path with
  | .ok (.directory _) => some tree
  | .ok (.vacant location) => some (tree.insert location .directory)
  | _ => none

/-- The tree with directories at a path and at all paths in front of it. -/
def makeDirectories? (tree : FileTree) (path : Path) : Option FileTree :=
  let ends := (List.range path.pieces.length).map (· + 1)
  let paths := ends.map fun n => Path.mk (['/'].intercalate (path.pieces.take n))
  (paths.filter (·.text != [])).foldlM makeDirectory? tree

/-- The tree with an entry at a path, and the directories that lead to it. A file is written through
a link at its path; a link comes only where nothing is. -/
def put? (tree : FileTree) (path : Path) (entry : Entry) : Option FileTree := do
  match entry with
  | .directory => tree.makeDirectories? path
  | .file content => ((← tree.makeDirectories? path.parent).write path content).toOption
  | .link _ =>
    let tree ← tree.makeDirectories? path.parent
    let location ← tree.locate? path
    match tree.get? location with
    | none => some (tree.insert location entry)
    | some _ => none

/-- The tree without the file or link at a path. -/
def remove? (tree : FileTree) (path : Path) : Option FileTree := do
  let location ← tree.locate? path
  match tree.get? location with
  | some (.file _) | some (.link _) => some (tree.erase location)
  | _ => none

end UrReplay.FileTree
