import UrReplay.Proofs.Discovery.Language
/-!
# UrReplay.Proofs.Discovery.Expression

A pattern as a regular expression (`Pattern.expression`). Each piece of the pattern is escaped, `.*` stands for
each star, and the expression is anchored at both ends.

An `Expression` is what a text of the usual syntax means, as far as patterns need it. The text that a pattern is
written as is read as the characters of the pieces with runs between them (`ofText?_expression`), whichever
characters have a meaning of their own in the syntax. What is found in a name is then the whole name, and it is
woven from the pieces (`found_expression_iff`).
-/

namespace UrReplay.Discovery

/-- The characters that have a meaning of their own in a regular expression. -/
def syntaxChars : List Char :=
  ['\\', '.', '+', '*', '?', '(', ')', '|', '[', ']', '\x7b', '\x7d', '^', '$', '#', '&', '-', '~']

/-! ### Expressions -/

/-- A part of a regular expression. -/
inductive Symbol
  | char (c : Char)
  /-- One character. -/
  | one
  /-- Any number of characters. -/
  | run
  /-- Nothing, where the text begins. -/
  | start
  /-- Nothing, where the text ends. -/
  | finish
  deriving Repr, DecidableEq

/-- A regular expression whose symbols follow one another. -/
structure Expression where
  /-- Whether a line feed counts as a character. -/
  acrossLines : Bool
  symbols : List Symbol
  deriving Repr, DecidableEq

namespace Expression

/-- The symbols that a text means. -/
def readSymbols? : Text → Option (List Symbol)
  | [] => some []
  | '.' :: '*' :: rest => (readSymbols? rest).map (.run :: ·)
  | '.' :: rest => (readSymbols? rest).map (.one :: ·)
  | '^' :: rest => (readSymbols? rest).map (.start :: ·)
  | '$' :: rest => (readSymbols? rest).map (.finish :: ·)
  | '\\' :: c :: rest => if c ∈ syntaxChars then (readSymbols? rest).map (.char c :: ·) else none
  | c :: rest => if c ∈ syntaxChars then none else (readSymbols? rest).map (.char c :: ·)

/-- The expression that a text means, if it is made of symbols, with or without the flag for line feeds. -/
def ofText? : Text → Option Expression
  | '(' :: '?' :: 's' :: ')' :: rest => (readSymbols? rest).map (Expression.mk true)
  | text => (readSymbols? text).map (Expression.mk false)

/-- Whether a character may stand for any. -/
def Counts (acrossLines : Bool) (c : Char) : Prop := acrossLines = true ∨ c ≠ '\n'

/-- Symbols match a part of a text, between what stands before it and what stands after it. -/
inductive Spans (acrossLines : Bool) : List Symbol → Text → Text → Text → Prop
  | nil {before after : Text} : Spans acrossLines [] before [] after
  | char {c : Char} {symbols : List Symbol} {before matched after : Text} :
      Spans acrossLines symbols (before ++ [c]) matched after →
        Spans acrossLines (.char c :: symbols) before (c :: matched) after
  | one {c : Char} {symbols : List Symbol} {before matched after : Text} : Counts acrossLines c →
      Spans acrossLines symbols (before ++ [c]) matched after →
        Spans acrossLines (.one :: symbols) before (c :: matched) after
  | run {taken : Text} {symbols : List Symbol} {before matched after : Text} :
      (∀ c ∈ taken, Counts acrossLines c) → Spans acrossLines symbols (before ++ taken) matched after →
        Spans acrossLines (.run :: symbols) before (taken ++ matched) after
  | start {symbols : List Symbol} {matched after : Text} : Spans acrossLines symbols [] matched after →
      Spans acrossLines (.start :: symbols) [] matched after
  | finish {symbols : List Symbol} {before : Text} : Spans acrossLines symbols before [] [] →
      Spans acrossLines (.finish :: symbols) before [] []

/-- An expression is found in a text if it matches some part of it. -/
def Found (e : Expression) (t : Text) : Prop :=
  ∃ before matched after, t = before ++ (matched ++ after) ∧
    Spans e.acrossLines e.symbols before matched after

end Expression

/-! ### Patterns as expressions -/

/-- A text that means the characters of a piece. -/
def escape (piece : Text) : Text := piece.flatMap fun c => if c ∈ syntaxChars then ['\\', c] else [c]

/-- A pattern, written as a regular expression. -/
def Pattern.expression (pattern : Pattern) : Text :=
  "(?s)^".toList ++ (['.', '*'].intercalate ((Text.split '*' pattern.text).map escape) ++ ['$'])

/-- The symbols for the pieces of a pattern and the stars between them. -/
def symbolsOf (pieces : List Text) : List Symbol :=
  [Symbol.run].intercalate (pieces.map (·.map Symbol.char))

theorem symbolsOf_singleton (piece : Text) : symbolsOf [piece] = piece.map Symbol.char := by
  rw [symbolsOf, List.map_singleton, List.intercalate_singleton]

theorem symbolsOf_cons_cons (piece next : Text) (more : List Text) :
    symbolsOf (piece :: next :: more) = piece.map Symbol.char ++ .run :: symbolsOf (next :: more) := by
  simp [symbolsOf, List.intercalate_cons_cons]

open Expression (readSymbols? Spans)

variable {piece next rest before matched after : Text} {pieces more : List Text} {symbols : List Symbol}
  {acrossLines : Bool}

/-! ### Reading -/

theorem readSymbols?_of_not_mem {c : Char} (h : c ∉ syntaxChars) (rest : Text) :
    readSymbols? (c :: rest) = (readSymbols? rest).map (.char c :: ·) := by
  have hne : c ≠ '.' ∧ c ≠ '^' ∧ c ≠ '$' ∧ c ≠ '\\' := by
    simp only [syntaxChars, List.mem_cons, not_or] at h
    simp only [h, ne_eq, not_false_eq_true, and_self]
  rw [readSymbols?, if_neg h] <;> simp [hne]

theorem readSymbols?_of_mem {c : Char} (h : c ∈ syntaxChars) (rest : Text) :
    readSymbols? ('\\' :: c :: rest) = (readSymbols? rest).map (.char c :: ·) := by
  rw [readSymbols?, if_pos h]

/-- An escaped piece is read as its characters. -/
theorem readSymbols?_escape_append (piece rest : Text) :
    readSymbols? (escape piece ++ rest) = (readSymbols? rest).map (piece.map Symbol.char ++ ·) := by
  induction piece with
  | nil => simp [escape]
  | cons c piece ih =>
    have hescape : escape (c :: piece) = (if c ∈ syntaxChars then ['\\', c] else [c]) ++ escape piece := rfl
    rw [hescape, List.append_assoc]
    split
    · rename_i hc
      rw [List.cons_append, List.cons_append, List.nil_append, readSymbols?_of_mem hc, ih, Option.map_map]
      rfl
    · rename_i hc
      rw [List.singleton_append, readSymbols?_of_not_mem hc, ih, Option.map_map]
      rfl

theorem readSymbols?_intercalate (hne : pieces ≠ []) (rest : Text) :
    readSymbols? (['.', '*'].intercalate (pieces.map escape) ++ rest) =
      (readSymbols? rest).map (symbolsOf pieces ++ ·) := by
  induction pieces with
  | nil => exact absurd rfl hne
  | cons piece pieces ih =>
    cases pieces with
    | nil =>
      rw [symbolsOf_singleton, List.map_singleton, List.intercalate_singleton, readSymbols?_escape_append]
    | cons next more =>
      have hmore := ih (List.cons_ne_nil next more)
      have hrun (t : Text) : readSymbols? (['.', '*'] ++ t) = (readSymbols? t).map (.run :: ·) := rfl
      rw [List.map_cons] at hmore
      rw [List.map_cons, List.map_cons, List.intercalate_cons_cons, List.append_assoc, List.append_assoc,
        readSymbols?_escape_append, hrun, hmore, Option.map_map, Option.map_map, symbolsOf_cons_cons]
      congr 1
      funext symbols
      simp

theorem ofText?_expression (pattern : Pattern) :
    Expression.ofText? pattern.expression =
      some ⟨true, .start :: (symbolsOf (Text.split '*' pattern.text) ++ [.finish])⟩ := by
  have hread := readSymbols?_intercalate (Text.split_ne_nil '*' pattern.text) ['$']
  have htext (t : Text) : Expression.ofText? ("(?s)^".toList ++ t) =
      ((readSymbols? t).map (.start :: ·)).map (Expression.mk true) := rfl
  rw [Pattern.expression, htext, hread]
  rfl

/-! ### Matching -/

theorem spans_chars_append {before matched after : Text} :
    Spans acrossLines (piece.map Symbol.char ++ symbols) before matched after ↔
      ∃ rest, matched = piece ++ rest ∧ Spans acrossLines symbols (before ++ piece) rest after := by
  induction piece generalizing before matched with
  | nil => simp
  | cons c piece ih =>
    rw [List.map_cons, List.cons_append]
    constructor
    · intro h
      cases h with
      | char h =>
        obtain ⟨rest, rfl, h⟩ := ih.1 h
        exact ⟨rest, rfl, by rwa [List.append_cons]⟩
    · intro h
      obtain ⟨rest, rfl, h⟩ := h
      refine .char (ih.2 ⟨rest, rfl, ?_⟩)
      rwa [← List.append_cons]

theorem spans_run_cons {before matched after : Text} :
    Spans true (.run :: symbols) before matched after ↔
      ∃ taken rest, matched = taken ++ rest ∧ Spans true symbols (before ++ taken) rest after := by
  constructor
  · intro h
    cases h with
    | run _ h => exact ⟨_, _, rfl, h⟩
  · intro h
    obtain ⟨taken, rest, rfl, h⟩ := h
    exact .run (fun _ _ => .inl rfl) h

/-- Up to the end of a text, the symbols of a pattern match what its pieces are woven into. -/
theorem spans_symbolsOf_finish (hne : pieces ≠ []) {before matched after : Text} :
    Spans true (symbolsOf pieces ++ [.finish]) before matched after ↔ after = [] ∧ Woven pieces matched := by
  induction pieces generalizing before matched with
  | nil => exact absurd rfl hne
  | cons piece pieces ih =>
    cases pieces with
    | nil =>
      rw [symbolsOf_singleton, spans_chars_append, woven_singleton]
      constructor
      · intro h
        obtain ⟨rest, rfl, h⟩ := h
        cases h with
        | finish _ => exact ⟨rfl, List.append_nil piece⟩
      · intro h
        obtain ⟨rfl, rfl⟩ := h
        exact ⟨[], (List.append_nil matched).symm, .finish .nil⟩
    | cons next more =>
      rw [symbolsOf_cons_cons, List.append_assoc, spans_chars_append, woven_cons]
      simp only [List.cons_append, spans_run_cons, ih (List.cons_ne_nil next more)]
      constructor
      · intro h
        obtain ⟨_, rfl, taken, last, rfl, rfl, hwoven⟩ := h
        exact ⟨rfl, _, last, rfl, List.suffix_append taken last, hwoven⟩
      · intro h
        obtain ⟨rfl, rest, last, rfl, ⟨taken, rfl⟩, hwoven⟩ := h
        exact ⟨_, rfl, taken, last, rfl, rfl, hwoven⟩

theorem found_iff_woven (hne : pieces ≠ []) (t : Text) :
    Expression.Found ⟨true, .start :: (symbolsOf pieces ++ [.finish])⟩ t ↔ Woven pieces t := by
  constructor
  · intro h
    obtain ⟨before, matched, after, rfl, h⟩ := h
    cases h with
    | start h =>
      obtain ⟨rfl, hwoven⟩ := (spans_symbolsOf_finish hne).1 h
      simpa using hwoven
  · intro h
    exact ⟨[], t, [], by simp, .start ((spans_symbolsOf_finish hne).2 ⟨rfl, h⟩)⟩

/-- The stars cut a pattern into pieces, one more than there are stars. The pattern accepts a name exactly if the
name is the pieces with any texts in the gaps between them, one for each star. The expression that the pattern is
written as means the same: it is found in the names that the pattern accepts. -/
theorem accepts_exact (pattern : Pattern) (name : Text) :
    let pieces := Text.split '*' pattern.text
    (['*'].intercalate pieces = pattern.text ∧ (∀ piece ∈ pieces, '*' ∉ piece) ∧
        pieces.length = pattern.text.count '*' + 1) ∧
      (pattern.accepts name = true ↔
        ∃ gaps : List Text, gaps.length = pattern.text.count '*' ∧ name = weave pieces gaps) ∧
      ∃ e, Expression.ofText? pattern.expression = some e ∧
        (e.Found name ↔ pattern.accepts name = true) := by
  intro pieces
  have hlength : pieces.length = pattern.text.count '*' + 1 := Text.length_split '*' pattern.text
  have hwoven : Woven pieces name ↔
      ∃ gaps : List Text, gaps.length = pattern.text.count '*' ∧ name = weave pieces gaps := by
    simp only [Woven, hlength, Nat.add_right_cancel_iff]
  refine ⟨⟨Text.intercalate_split '*' pattern.text, fun piece => Text.not_mem_of_mem_split, hlength⟩,
    Pattern.accepts_iff_woven.trans hwoven, _, ofText?_expression pattern, ?_⟩
  rw [found_iff_woven (Text.split_ne_nil '*' pattern.text), Pattern.accepts_iff_woven]

example : (Pattern.mk "*a.b*a.b*".toList).accepts "a.ba.\na.b".toList = true := by decide

end UrReplay.Discovery
