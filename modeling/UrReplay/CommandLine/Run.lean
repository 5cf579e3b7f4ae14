import UrReplay.CommandLine.Arguments
import UrReplay.Report.Lines
import UrReplay.Session.Resource
import UrReplay.Suite.Verify
/-!
# UrReplay.CommandLine.Run

The program as a function of its arguments, its environment and the files.

It exits with status 0 if there was a capture file and every one passed, with 1 if one failed or
none was found, and with 2 if its arguments make no sense.
-/

namespace UrReplay.CommandLine

/-- What the program does besides writing golden files. -/
structure Response where
  /-- The exit status. -/
  status : UInt8
  /-- What goes to standard output. -/
  output : Report.Document
  /-- What goes to standard error. -/
  complaint : Option Diagnostic := none
  deriving Repr, DecidableEq

/-- The name of the program and its version. -/
def versionLine : String := "ur-verify 0.1.0\n"

/-- The explanation of the arguments. -/
def helpText : String :=
  "Replays recorded UR fragment captures through a decoder and checks the results.\n\n"
    ++ "Usage: ur-verify [OPTIONS] [FILES]...\n\n"
    ++ "Arguments:\n"
    ++ "  [FILES]...  Capture files to verify. Defaults to discovering them in the cases "
    ++ "directory\n\n"
    ++ "Options:\n"
    ++ "      --generate-expected  Write a golden file for every successfully decoded capture\n"
    ++ "  -h, --help               Print help\n"
    ++ "  -V, --version            Print version\n"

variable {m : Type → Type} [Monad m] [MonadFiles m]

/-- Verifies capture files, or those that are found if none are given. -/
def verifyFiles (settings : Suite.Settings) (files : List Path) : m Response := do
  let banner := Report.banner settings.generateGolden
  let found ←
    if files.isEmpty then Discovery.discover settings.patterns settings.casesDirectory
    else pure (.ok files)
  match found with
  | .error e => return { status := 1, output := banner, complaint := some e.diagnostic }
  | .ok files =>
    let reports ← Suite.verifyAll Resource.Decoder settings files
    return {
      status := if (Suite.Summary.ofReports reports).allPassed then 0 else 1
      output := banner ++ Report.run reports }

/-- Runs the program. -/
def run (environment : Suite.Environment) (arguments : List Text) : m Response :=
  match Request.ofArguments arguments with
  | .error e => return { status := 2, output := [], complaint := some { message := e.message } }
  | .ok .help => return { status := 0, output := [.plain helpText] }
  | .ok .version => return { status := 0, output := [.plain versionLine] }
  | .ok (.verify request) =>
    verifyFiles { environment.settings with generateGolden := request.generateGolden } request.files

end UrReplay.CommandLine
