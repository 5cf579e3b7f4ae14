import UrReplay.Files.Path
/-!
# UrReplay.CommandLine.Arguments

What the arguments of the program ask for.

Arguments are read from left to right and the first one that decides the matter does: a request for
help or for the version, or a mistake. An argument that begins with a hyphen is an option, unless it
is the hyphen alone or comes after `--`; all others are capture files.
-/

namespace UrReplay.CommandLine

/-- What a run of the program is asked to do. -/
structure Arguments where
  /-- Write golden files. -/
  generateGolden : Bool := false
  /-- The capture files; none if they are to be looked for. -/
  files : List Path := []
  deriving Repr, DecidableEq

/-- What the program is asked for. -/
inductive Request
  | verify (arguments : Arguments)
  | help
  | version
  deriving Repr, DecidableEq

/-- Why arguments ask for nothing. -/
inductive UsageError
  | unknownOption (argument : Text)
  /-- A value for an option that takes none. -/
  | unexpectedValue (argument : Text)
  | repeatedOption (argument : Text)
  | emptyFileName
  deriving Repr, DecidableEq

/-- The options of the program. -/
inductive Flag
  | generateGolden
  | help
  | version
  deriving Repr, DecidableEq

/-- The option with a long name. -/
def Flag.ofName? (name : Text) : Option Flag :=
  if name = "generate-expected".toList then some generateGolden
  else if name = "help".toList then some help
  else if name = "version".toList then some version
  else none

/-- The option with a letter. -/
def Flag.ofLetter? : Char → Option Flag
  | 'h' => some help
  | 'V' => some version
  | _ => none

/-- What one argument is. -/
inductive Argument
  | file (name : Text)
  /-- The end of the options. -/
  | endOfOptions
  | flag (flag : Flag)
  | mistake (error : UsageError)
  deriving Repr, DecidableEq

/-- Reads an argument in front of the end of the options. The letters after a single hyphen are
options of their own; the first of them settles the argument, because no option with a letter lets
another follow. -/
def Argument.ofText : Text → Argument
  | ['-'] => file ['-']
  | ['-', '-'] => endOfOptions
  | '-' :: '-' :: text =>
    match Flag.ofName? (text.takeWhile (· ≠ '=')) with
    | none => mistake (.unknownOption ('-' :: '-' :: text))
    | some option =>
      if '=' ∈ text then mistake (.unexpectedValue ('-' :: '-' :: text)) else flag option
  | '-' :: letter :: text =>
    match Flag.ofLetter? letter with
    | none => mistake (.unknownOption ('-' :: letter :: text))
    | some option => flag option
  | name => file name

/-- The arguments with another file. -/
def Arguments.withFile (arguments : Arguments) (name : Text) : Arguments :=
  { arguments with files := arguments.files ++ [⟨name⟩] }

/-- Whether one of the files so far has no name. -/
def Arguments.hasEmptyName (arguments : Arguments) : Bool := arguments.files.any (·.text == [])

/-- Asks for a run with these arguments. -/
def Arguments.request (arguments : Arguments) : Except UsageError Request :=
  if arguments.hasEmptyName then .error .emptyFileName else .ok (.verify arguments)

/-- Reads the arguments after those read so far. The names of files are judged when an option
follows, or at the end. -/
def Arguments.readFrom (arguments : Arguments) : List Text → Except UsageError Request
  | [] => arguments.request
  | text :: rest =>
    match Argument.ofText text with
    | .file name => (arguments.withFile name).readFrom rest
    | .endOfOptions => (rest.foldl withFile arguments).request
    | .mistake error => .error error
    | .flag option =>
      if arguments.hasEmptyName then .error .emptyFileName
      else
        match option with
        | .help => .ok .help
        | .version => .ok .version
        | .generateGolden =>
          if arguments.generateGolden then .error (.repeatedOption text)
          else { arguments with generateGolden := true }.readFrom rest

/-- What the arguments of the program ask for. -/
def Request.ofArguments (arguments : List Text) : Except UsageError Request :=
  Arguments.readFrom {} arguments

/-- The wording of an error. -/
def UsageError.message : UsageError → String
  | unknownOption argument => "unexpected argument '" ++ String.ofList argument ++ "' found"
  | unexpectedValue argument => "unexpected value in '" ++ String.ofList argument ++ "'"
  | repeatedOption argument =>
    "the argument '" ++ String.ofList argument ++ "' cannot be used multiple times"
  | emptyFileName => "a file name must not be empty"

end UrReplay.CommandLine
