import UrReplay.Golden.Recorder
import UrReplay.Suite.Report
import UrReplay.Suite.Settings
/-!
# UrReplay.Suite.Verify

Replaying capture files, one after another, and recording or checking their golden files.
-/

namespace UrReplay.Suite

variable {ε : Type} (σ : Type) [FragmentDecoder σ ε] [Inhabited σ]
  {m : Type → Type} [Monad m] [MonadFiles m]

/-- Reports on a capture file: decodes it with a fresh decoder, then writes its golden file or
compares with it, as the settings say. -/
def verify (settings : Settings) (path : Path) : m FileReport := do
  let outcome := Outcome.ofFile σ path (← MonadFiles.readFile path)
  if settings.generateGolden then
    match ← Golden.record settings.naming outcome with
    | .ok written => return { outcome, written }
    | .error e => return { outcome, writeError := some e.message }
  else if settings.compareGolden then
    return { outcome, golden := ← Golden.check settings.naming outcome }
  else return { outcome }

/-- Reports on capture files, in order. -/
def verifyAll (settings : Settings) : List Path → m (List FileReport)
  | [] => return []
  | path :: paths => do
    let report ← verify σ settings path
    return report :: (← verifyAll settings paths)

end UrReplay.Suite
