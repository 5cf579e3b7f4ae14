import UrReplay.Proofs.Golden.Content
import UrReplay.Proofs.Text.Trim
/-!
# UrReplay.Proofs.Golden.Layout

What a golden file may look like, apart from how it is read. Its first line ends at the first line feed
(`FirstLine`), and shows digits between blanks, behind the marker or without it (`Shows`). Every text has one
first line and every line shows one text of digits, and these are the digits that are read
(`digits_eq_iff`). So a text that `Records` a payload is one that spells it (`records_iff_spells`).
-/

namespace UrReplay.Golden

open Text (IsBlanks IsTrimmed)

variable {content line ds : Text} {payload : Bytes}

/-- The first line of a text. A carriage return in front of the line feed belongs to it here, and is one of
the blanks at its end. -/
inductive FirstLine : Text → Text → Prop
  | whole {line : Text} (h : '\n' ∉ line) : FirstLine line line
  | ended {line : Text} (h : '\n' ∉ line) (rest : Text) : FirstLine (line ++ '\n' :: rest) line

/-- The digits on a line: what stands between the blanks at its ends, without the marker if it begins with
one. Of two markers the second one stays. -/
inductive Shows : Text → Text → Prop
  | marked {before ds after : Text} (hbefore : IsBlanks before) (h : IsTrimmed (marker ++ ds))
      (hafter : IsBlanks after) : Shows (before ++ (marker ++ ds) ++ after) ds
  | plain {before ds after : Text} (hbefore : IsBlanks before) (h : IsTrimmed ds)
      (hmarker : ¬marker <+: ds) (hafter : IsBlanks after) : Shows (before ++ ds ++ after) ds

/-- The first line of a text shows the digits of a payload, in either letter case. The empty payload has no
digits, and no text records it. -/
inductive Records : Text → Bytes → Prop
  | intro {content line ds : Text} {payload : Bytes} (hline : FirstLine content line)
      (hshows : Shows line ds) (hpayload : payload ≠ []) (hdigits : ds.lower = Hex.encode payload) :
      Records content payload

/-! ### The first line -/

theorem exists_firstLine (content : Text) : ∃ line, FirstLine content line := by
  by_cases h : '\n' ∈ content
  · obtain ⟨line, rest, hcontent, hline⟩ := List.eq_append_cons_of_mem h
    exact ⟨line, hcontent ▸ .ended hline rest⟩
  · exact ⟨content, .whole h⟩

theorem trim_withoutFinalReturn (line : Text) : (Text.withoutFinalReturn line).trim = line.trim := by
  rcases Text.withoutFinalReturn_eq line with hsame | hreturn
  · rw [hsame]
  · have hblank : IsBlanks ['\r'] := by
      intro c hc
      obtain rfl := List.mem_singleton.1 hc
      decide
    have htrim := Text.trim_append_blanks hblank (Text.withoutFinalReturn line)
    rw [hreturn] at htrim
    exact htrim.symm

/-- The first line is the first one that is read, up to blanks at its end. -/
theorem FirstLine.trim_eq (h : FirstLine content line) :
    (content.lines.head?.getD []).trim = line.trim := by
  cases h with
  | whole h =>
    rw [Text.lines_of_not_mem h]
    cases content with
    | nil => rfl
    | cons c content => rfl
  | ended h rest =>
    rw [Text.lines_append h, List.head?_cons, Option.getD_some, trim_withoutFinalReturn]

/-! ### The digits -/

theorem exists_shows (line : Text) : ∃ ds, Shows line ds := by
  obtain ⟨before, after, hbefore, hafter, hline⟩ := Text.exists_eq_trim line
  have htrimmed := Text.isTrimmed_trim line
  generalize line.trim = t at hline htrimmed
  rw [hline]
  by_cases hmarker : marker <+: t
  · obtain ⟨ds, rfl⟩ := hmarker
    exact ⟨ds, .marked hbefore htrimmed hafter⟩
  · exact ⟨t, .plain hbefore htrimmed hmarker hafter⟩

/-- A line shows what is left when it has been trimmed and stripped of a marker. -/
theorem Shows.getD_isPrefixOf? (h : Shows line ds) :
    (marker.isPrefixOf? line.trim).getD line.trim = ds := by
  cases h with
  | marked hbefore h hafter =>
    have hstrip : marker.isPrefixOf? (marker ++ ds) = some ds :=
      List.isPrefixOf?_eq_some_iff_append_eq.2 rfl
    rw [Text.trim_eq_of_padded hbefore h hafter, hstrip, Option.getD_some]
  | plain hbefore h hmarker hafter =>
    have hkeep : marker.isPrefixOf? ds = none := by
      rw [Option.eq_none_iff_forall_not_mem]
      intro rest hrest
      exact hmarker ⟨rest, List.isPrefixOf?_eq_some_iff_append_eq.1 hrest⟩
    rw [Text.trim_eq_of_padded hbefore h hafter, hkeep, Option.getD_none]

/-- The digits of a text are those that its first line shows. -/
theorem digits_eq_iff : digits content = ds ↔ ∃ line, FirstLine content line ∧ Shows line ds := by
  have hread {line ds : Text} (hline : FirstLine content line) (hshows : Shows line ds) :
      digits content = ds := by
    rw [digits, hline.trim_eq, hshows.getD_isPrefixOf?]
  constructor
  · rintro rfl
    -- The text has some first line, and the digits on it can only be the ones that are read.
    obtain ⟨line, hline⟩ := exists_firstLine content
    obtain ⟨ds, hshows⟩ := exists_shows line
    exact ⟨line, hline, hread hline hshows ▸ hshows⟩
  · intro h
    obtain ⟨line, hline, hshows⟩ := h
    exact hread hline hshows

theorem records_iff_spells : Records content payload ↔ Spells content payload := by
  constructor
  · intro h
    cases h with
    | intro hline hshows hpayload hdigits =>
      exact ⟨hpayload, digits_eq_iff.2 ⟨_, hline, hshows⟩ ▸ hdigits⟩
  · intro h
    obtain ⟨line, hline, hshows⟩ := digits_eq_iff.1 (Eq.refl (digits content))
    exact .intro hline hshows h.1 h.2

end UrReplay.Golden
