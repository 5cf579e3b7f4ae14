import UrReplay.Discovery.Basic
import UrReplay.Golden.Naming
import UrReplay.Text.Blank
/-!
# UrReplay.Suite.Settings

What a run is asked to do: where captures are, how files are named, and what becomes of golden
files.
-/

namespace UrReplay.Suite

/-- The settings of a run. -/
structure Settings where
  /-- Where captures are looked for. -/
  casesDirectory : Path := ⟨"test_cases".toList⟩
  patterns : Discovery.Patterns := .standard
  naming : Golden.Naming := .standard
  /-- Write a golden file for every payload. -/
  generateGolden : Bool := false
  /-- Compare payloads with the golden files that exist; without effect if they are written. -/
  compareGolden : Bool := true
  deriving Repr, DecidableEq

/-- The variables of the environment that settings depend on. -/
structure Environment where
  casesDirectory : Option Text := none
  compareGolden : Option Text := none
  deriving Repr, DecidableEq

namespace Environment

/-- The name of the variable that says where captures are. -/
def casesDirectoryName : String := "UR_VERIFY_CASES_DIR"

/-- The name of the variable that can switch comparison off. -/
def compareGoldenName : String := "UR_VERIFY_COMPARE"

/-- Whether a value switches something off. Blanks around it and letter case do not count. -/
def isOff (value : Text) : Bool :=
  Text.lower value.trim ∈ ["0", "false", "off", "no"].map String.toList

/-- The settings that an environment asks for. An empty directory name counts as none. -/
def settings (environment : Environment) : Settings :=
  { casesDirectory :=
      match environment.casesDirectory with
      | none | some [] => ({} : Settings).casesDirectory
      | some directory => ⟨directory⟩
    compareGolden := !environment.compareGolden.any isOff }

end Environment

end UrReplay.Suite
