import UrReplay.Files.Path
/-!
# UrReplay.Golden.Naming

Which golden file belongs to a capture file. A golden file stands beside its capture under a name
derived from the name of the capture.
-/

namespace UrReplay.Golden

/-- Replaces the end of a name. -/
structure SuffixRule where
  input : Text
  output : Text
  deriving Repr, DecidableEq

/-- The name with the end that the rule asks for replaced, if it has that end. -/
def SuffixRule.rename? (rule : SuffixRule) (name : Text) : Option Text :=
  (rule.input.isSuffixOf? name).map (· ++ rule.output)

/-- How golden files are named. -/
structure Naming where
  /-- The first rule that applies to a name wins. -/
  rules : List SuffixRule
  /-- What follows a name that no rule applies to. -/
  fallback : Text
  deriving Repr, DecidableEq

namespace Naming

/-- Objects beside fragments, and expectations beside all else. -/
def standard : Naming where
  rules :=
    [ ⟨".UR_fragments.txt".toList, ".UR_object.txt".toList⟩,
      ⟨".txt".toList, ".expected".toList⟩ ]
  fallback := ".expected".toList

/-- The name of the golden file for a capture's name. -/
def goldenName (naming : Naming) (name : Text) : Text :=
  (naming.rules.findSome? (·.rename? name)).getD (name ++ naming.fallback)

/-- The path of the golden file for a capture's path. -/
def goldenPath (naming : Naming) (capture : Path) : Path :=
  capture.withFileName (naming.goldenName (capture.fileName?.getD []))

end Naming

end UrReplay.Golden
