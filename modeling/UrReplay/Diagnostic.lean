/-!
# UrReplay.Diagnostic

Errors that are shown to the user: what is wrong, the code that such an error is known by, and advice.
-/

namespace UrReplay

/-- An error as it is shown. -/
structure Diagnostic where
  /-- What is wrong. -/
  message : String
  /-- What the error is known by. -/
  code : Option String := none
  /-- What can be done about it. -/
  help : Option String := none
  deriving Repr, DecidableEq

/-- The lines that show an error. -/
def Diagnostic.lines (d : Diagnostic) : List String :=
  d.code.toList ++ ["error: " ++ d.message] ++ d.help.toList.map ("help: " ++ ·)

end UrReplay
