import UrReplay.CommandLine.Run
/-!
# UrReplay.Main

The program: gives the command line the files of the operating system.
-/

namespace UrReplay

/-- The error of the library for one of the operating system. -/
def FileError.ofIO : IO.Error → FileError
  | .noFileOrDirectory .. => .notFound
  | _ => .inaccessible

/-- Runs an operation on files and keeps its error. -/
def attempt {α : Type} (action : IO α) : IO (Except FileError α) := do
  try
    return .ok (← action)
  catch e => return .error (.ofIO e)

/-- An entry of a directory, as the library sees it. -/
def Listed.ofEntry (entry : IO.FS.DirEntry) : IO Listed := do
  let metadata ← entry.path.symlinkMetadata
  return ⟨entry.fileName.toList, metadata.type == .file⟩

instance : MonadFiles IO where
  readFile path := attempt do
    return (← IO.FS.readBinFile path.display).toList
  writeFile path content := attempt do
    IO.FS.writeBinFile path.display content.toByteArray
  listDirectory path := attempt do
    let directory : IO.FS.DirEntry := ⟨path.display, ""⟩
    if (← directory.root.metadata).type == .dir then
      (← directory.root.readDir).toList.mapM Listed.ofEntry
    else return []

/-- The environment of the program. -/
def environment : IO Suite.Environment := do
  return {
    casesDirectory := (← IO.getEnv Suite.Environment.casesDirectoryName).map String.toList
    compareGolden := (← IO.getEnv Suite.Environment.compareGoldenName).map String.toList }

end UrReplay

open UrReplay in
def main (arguments : List String) : IO UInt32 := do
  let response ← CommandLine.run (m := IO) (← environment) (arguments.map String.toList)
  let output ← IO.getStdout
  output.putStr (response.output.render (← output.isTty))
  output.flush
  for line in (response.complaint.map Diagnostic.lines).getD [] do
    IO.eprintln line
  return response.status.toUInt32
