import UrReplay.Proofs.Capture.Extent
/-!
# UrReplay.Proofs.Capture.Lines

The fragments of a text depend on its lines one by one (`ofText_lines`). What stands before a line feed and
what stands behind it give their fragments apart from each other, a carriage return in front of the line feed
gives nothing, and neither does a line without a marker. Such a line can be dropped wherever a line begins.
-/

namespace UrReplay.Fragment

variable {line ending before t t' : Text}

/-- A line begins where the text begins and behind every line feed. -/
def AtLineStart (before : Text) : Prop := before = [] ∨ ∃ s, before = s ++ ['\n']

/-- A text with a whole line in it, and the same text without that line. -/
inductive LineDropped (line : Text) : Text → Text → Prop
  /-- The line goes together with the end of it. -/
  | ended {before ending after : Text} : AtLineStart before → ending = ['\n'] ∨ ending = ['\r', '\n'] →
      LineDropped line (before ++ (line ++ (ending ++ after))) (before ++ after)
  /-- A last line that does not end goes alone. -/
  | unended {before : Text} : AtLineStart before → LineDropped line (before ++ line) before
  /-- A last line that does not end goes together with the end of the line before it. -/
  | last {before ending : Text} : ending = ['\n'] ∨ ending = ['\r', '\n'] →
      LineDropped line (before ++ (ending ++ line)) before

/-- A text, and the same text with a carriage return put in front of some of its line feeds. -/
inductive Returned : Text → Text → Prop
  | nil : Returned [] []
  | cons {t t' : Text} (c : Char) : Returned t t' → Returned (c :: t) (c :: t')
  | feed {t t' : Text} : Returned t t' → Returned ('\n' :: t) ('\r' :: '\n' :: t')

/-! ### Line feeds and carriage returns -/

theorem ofText_append_return_feed (s t : Text) : ofText (s ++ '\r' :: '\n' :: t) = ofText s ++ ofText t :=
  ofText_append_ending (.inr rfl) s t

theorem Returned.ofText_append_eq (h : Returned t t') (s : Text) : ofText (s ++ t') = ofText (s ++ t) := by
  induction h generalizing s with
  | nil => rfl
  | @cons t t' c _ ih => rw [List.append_cons s c t', List.append_cons s c t, ih]
  | @feed t t' _ ih =>
    have hrest : ofText t' = ofText t := ih []
    rw [ofText_append_return_feed, ofText_append_feed, hrest]

/-! ### Whole lines -/

theorem ofText_append_of_atLineStart (h : AtLineStart before) (t : Text) :
    ofText (before ++ t) = ofText before ++ ofText t := by
  rcases h with rfl | ⟨s, rfl⟩
  · rfl
  · have hnil : ofText [] = [] := rfl
    rw [List.append_assoc, List.singleton_append, ofText_append_feed, ofText_append_feed, hnil,
      List.append_nil]

theorem ofText_of_unmarked (hline : '\n' ∉ line) (h : ∀ start, ¬Marked (line.drop start)) :
    ofText line = [] := by
  rw [ofText_of_not_mem hline, ofLine?_of_unmarked h]
  rfl

theorem LineDropped.ofText_eq (h : LineDropped line t t') (hnone : ofText line = []) :
    ofText t = ofText t' := by
  cases h with
  | ended hbefore hending =>
    rw [ofText_append_of_atLineStart hbefore, ofText_append_of_atLineStart hbefore,
      ofText_append_ending hending, hnone, List.nil_append]
  | unended hbefore => rw [ofText_append_of_atLineStart hbefore, hnone, List.append_nil]
  | last hending => rw [ofText_append_ending hending, hnone, List.append_nil]

/-- Two texts with a line feed between them give the fragments of the first and then those of the second. A
carriage return in front of a line feed does not matter, and nor do carriage returns in front of any number of
them. Whole lines that have no marker can be put in and left out anywhere. -/
theorem ofText_lines :
    (∀ a b, ofText (a ++ '\n' :: b) = ofText a ++ ofText b) ∧
      (∀ a b, ofText (a ++ '\r' :: '\n' :: b) = ofText (a ++ '\n' :: b)) ∧
      (∀ t t', Returned t t' → ofText t' = ofText t) ∧
      (∀ line t t', '\n' ∉ line → (∀ start, ¬Marked (line.drop start)) → LineDropped line t t' →
        ofText t = ofText t') := by
  refine ⟨ofText_append_feed, fun a b => ?_, fun t t' h => h.ofText_append_eq [], ?_⟩
  · rw [ofText_append_return_feed, ofText_append_feed]
  · intro line t t' hline hunmarked hdropped
    exact hdropped.ofText_eq (ofText_of_unmarked hline hunmarked)

/-- A line that only looks as if it had a marker is dropped from between two lines with fragments. -/
theorem ofText_lines_between :
    let line := "u r:ur;".toList
    let t := "\"ur:a/b\r\n".toList ++ (line ++ (['\n'] ++ "ur:c/d,".toList))
    '\n' ∉ line ∧ (∀ start, ¬Marked (line.drop start)) ∧
      LineDropped line t "\"ur:a/b\r\nur:c/d,".toList ∧
      ofText t = [⟨"ur:a/b".toList⟩, ⟨"ur:c/d".toList⟩] := by
  intro line t
  have hline : '\n' ∉ line := by decide
  have hunmarked : ∀ start, ¬Marked (line.drop start) := markerFree_iff.1 (by decide)
  have hstart : AtLineStart "\"ur:a/b\r\n".toList := .inr ⟨"\"ur:a/b\r".toList, by decide⟩
  have hdropped : LineDropped line t "\"ur:a/b\r\nur:c/d,".toList := .ended hstart (.inl rfl)
  refine ⟨hline, hunmarked, hdropped, ?_⟩
  rw [ofText_lines.2.2.2 line t _ hline hunmarked hdropped]
  decide

end UrReplay.Fragment
