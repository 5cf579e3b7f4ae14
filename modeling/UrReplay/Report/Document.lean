/-!
# UrReplay.Report.Document

Text with colours, for terminals and for files: the same document can be written with escape
sequences or without.
-/

namespace UrReplay.Report

inductive Colour
  | red
  | green
  | cyan
  deriving Repr, DecidableEq

/-- How text looks. -/
structure Look where
  colour : Option Colour := none
  bold : Bool := false
  deriving Repr, DecidableEq

/-- A piece of a document. -/
inductive Span
  | plain (text : String)
  | styled (look : Look) (text : String)
  deriving Repr, DecidableEq

/-- A text with colours. -/
abbrev Document := List Span

/-- The digit for a colour. -/
def Colour.digit : Colour → String
  | red => "1"
  | green => "2"
  | cyan => "6"

/-- Goes back to the usual look. -/
def reset : String := "\x1b[0m"

/-- Goes over to a look. -/
def Look.sequence (look : Look) : String :=
  reset ++ (if look.bold then "\x1b[1m" else "")
    ++ (match look.colour with
      | none => ""
      | some colour => "\x1b[3" ++ colour.digit ++ "m")

/-- A piece as it is written. -/
def Span.render (coloured : Bool) : Span → String
  | plain text => text
  | styled look text => if coloured then look.sequence ++ text ++ reset else text

/-- A document as it is written. -/
def Document.render (coloured : Bool) (document : Document) : String :=
  String.join (document.map (Span.render coloured))

end UrReplay.Report
