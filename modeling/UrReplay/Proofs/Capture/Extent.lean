import UrReplay.Proofs.Capture.Marker
/-!
# UrReplay.Proofs.Capture.Extent

Where the fragment in a line begins and ends (`ofLine?_exact`).

An `Extent` says it without a search: a line falls into what stands before a fragment, the fragment, and
what stands after it. What the search cuts out has an extent (`exists_extent`), and what has an extent is
cut out (`Extent.ofLine?_eq`). So a line has at most one extent (`Extent.unique`). A fragment is an extent of
itself (`Extent.own`), which is why cutting it again gives the same.
-/

namespace UrReplay.Fragment

variable {line before text after tail : Text} {start : Nat}

/-- The characters that end a fragment. -/
def delimiters : List Char := ['"', ',', '\r', '\n']

/-- A line falls into what stands before a fragment, the fragment, and what stands after it. -/
structure Extent (line before text after : Text) : Prop where
  split : line = before ++ (text ++ after)
  marked : Marked text
  /-- There is something behind the three bytes of the marker. -/
  long : 3 < Utf8.size text
  first : ∀ start < before.length, ¬Marked (line.drop start)
  plain : ∀ c ∈ text, c ∉ delimiters
  ends : ∀ c ∈ after.head?, c ∈ delimiters

theorem isDelimiter_iff {c : Char} : isDelimiter c = true ↔ c ∈ delimiters := by
  simp [isDelimiter, delimiters, or_assoc]

theorem isDelimiter_eq_false_iff {c : Char} : isDelimiter c = false ↔ c ∉ delimiters := by
  rw [← isDelimiter_iff, Bool.not_eq_true]

/-! ### Tokens -/

theorem takeWhile_token (htext : ∀ c ∈ text, isDelimiter c = false)
    (hafter : ∀ c ∈ after.head?, isDelimiter c = true) :
    (text ++ after).takeWhile (!isDelimiter ·) = text := by
  rw [List.takeWhile_append_of_pos fun c hc => by rw [htext c hc]; rfl]
  cases after with
  | nil => rw [List.takeWhile_nil, List.append_nil]
  | cons c after => simp [hafter c rfl]

/-- Nothing in a marker is a delimiter. -/
theorem takeWhile_marker {u r : Char} (hu : u = 'u' ∨ u = 'U') (hr : r = 'r' ∨ r = 'R') (rest : Text) :
    (u :: r :: ':' :: rest).takeWhile (!isDelimiter ·) =
      u :: r :: ':' :: rest.takeWhile (!isDelimiter ·) := by
  rcases hu with rfl | rfl <;> rcases hr with rfl | rfl <;> simp [isDelimiter]

theorem Marked.takeWhile (h : Marked tail) : Marked (tail.takeWhile (!isDelimiter ·)) := by
  obtain ⟨rest, hu, hr⟩ := h
  rw [takeWhile_marker hu hr]
  exact .intro _ hu hr

/-- There is nothing behind a marker exactly if a delimiter follows it, or the end of the line. -/
theorem Marked.length_takeWhile_le_iff (h : Marked tail) :
    (tail.takeWhile (!isDelimiter ·)).length ≤ 3 ↔ ∀ c ∈ (tail.drop 3).head?, c ∈ delimiters := by
  obtain ⟨rest, hu, hr⟩ := h
  rw [takeWhile_marker hu hr]
  cases rest with
  | nil => simp
  | cons c rest =>
    by_cases hc : isDelimiter c = true
    · simp [hc, ← isDelimiter_iff]
    · simp [hc, ← isDelimiter_iff]

theorem Marked.lt_size_iff (h : Marked text) : 3 < Utf8.size text ↔ 3 < text.length := by
  refine ⟨fun hsize => ?_, fun hlength => hlength.trans_le (Utf8.length_le_size text)⟩
  obtain ⟨rest, hu, hr⟩ := h
  cases rest with
  | nil => rcases hu with rfl | rfl <;> rcases hr with rfl | rfl <;> exact absurd hsize (by decide)
  | cons c rest => simp

/-! ### Extents -/

namespace Extent

variable {before' text' after' : Text}

theorem drop_length (h : Extent line before text after) : line.drop before.length = text ++ after := by
  rw [h.split, List.drop_left]

theorem isFirstMarker (h : Extent line before text after) : IsFirstMarker line before.length :=
  ⟨by rw [h.drop_length]; exact h.marked.append after, h.first⟩

/-- What has an extent is cut out. -/
theorem ofLine?_eq (h : Extent line before text after) : ofLine? line = some ⟨text⟩ := by
  have htext : ∀ c ∈ text, isDelimiter c = false := fun c hc => isDelimiter_eq_false_iff.2 (h.plain c hc)
  have hafter : ∀ c ∈ after.head?, isDelimiter c = true := fun c hc => isDelimiter_iff.2 (h.ends c hc)
  have hlong : ¬text.length ≤ Resource.scheme.length := Nat.not_le.2 (h.marked.lt_size_iff.1 h.long)
  rw [ofLine?, fromMarker?_of_isFirstMarker h.isFirstMarker, h.drop_length]
  simp only [Option.bind_eq_bind, Option.bind_some, takeWhile_token htext hafter, if_neg hlong]

theorem unique (h : Extent line before text after) (h' : Extent line before' text' after') :
    before = before' ∧ text = text' ∧ after = after' := by
  have htext : text = text' := by
    have heq := h.ofLine?_eq.symm.trans h'.ofLine?_eq
    exact congrArg Fragment.text (Option.some.inj heq)
  subst htext
  have hlength := h.isFirstMarker.unique h'.isFirstMarker
  obtain ⟨hbefore, hrest⟩ := List.append_inj (h.split.symm.trans h'.split) hlength
  exact ⟨hbefore, rfl, List.append_cancel_left hrest⟩

theorem own (h : Extent line before text after) : Extent text [] text [] where
  split := by simp
  marked := h.marked
  long := h.long
  first := fun start hstart => absurd hstart (Nat.not_lt_zero start)
  plain := h.plain
  ends := nofun

/-- The fragment begins at the first marker that a search through the bytes of the line meets. -/
theorem isFirstInBytes (h : Extent line before text after) :
    IsFirstInBytes (Utf8.encode line) (Utf8.size before) := by
  have hfirst := h.isFirstMarker
  rw [h.split] at hfirst ⊢
  exact isFirstInBytes_size hfirst

/-- What stands before a fragment has no marker of its own, and none that runs on into the fragment, so the
first one is that of the fragment. -/
theorem of_append (hbefore : MarkerFree before) (hmarked : Marked text) (hlong : 3 < Utf8.size text)
    (htext : ∀ c ∈ text, isDelimiter c = false) (hafter : ∀ c ∈ after.head?, isDelimiter c = true) :
    Extent (before ++ text ++ after) before text after where
  split := List.append_assoc before text after
  marked := hmarked
  long := hlong
  first := by
    intro start hstart h
    rw [List.append_assoc, List.drop_append_of_le_length (Nat.le_of_lt hstart)] at h
    have hne : before.drop start ≠ [] := fun hnil => Nat.not_le.2 hstart (List.drop_eq_nil_iff.1 hnil)
    exact markerFree_iff.1 hbefore start (h.of_append hne (hmarked.append after))
  plain := fun c hc => isDelimiter_eq_false_iff.1 (htext c hc)
  ends := fun c hc => isDelimiter_iff.1 (hafter c hc)

end Extent

/-- What is cut out of a line has an extent. -/
theorem exists_extent {f : Fragment} (h : ofLine? line = some f) :
    ∃ before after, Extent line before f.text after := by
  rw [ofLine?] at h
  simp only [Option.bind_eq_bind, Option.bind_eq_some_iff, Option.ite_none_left_eq_some,
    Option.some.injEq] at h
  obtain ⟨tail, htail, hlong, rfl⟩ := h
  obtain ⟨start, hfirst, rfl⟩ := fromMarker?_eq_some_iff.1 htail
  have htoken := hfirst.marked.takeWhile
  refine ⟨line.take start, (line.drop start).dropWhile (!isDelimiter ·), ?_, htoken, ?_, ?_, ?_, ?_⟩
  · rw [List.takeWhile_append_dropWhile, List.take_append_drop]
  · exact htoken.lt_size_iff.2 (Nat.lt_of_not_le hlong)
  · intro earlier hearlier
    exact hfirst.first earlier (hearlier.trans_le (List.length_take_le start line))
  · intro c hc
    have hplain := List.mem_takeWhile_imp hc
    rw [Bool.not_eq_true'] at hplain
    exact isDelimiter_eq_false_iff.1 hplain
  · intro c hc
    have hstop := List.head?_dropWhile_not (!isDelimiter ·) (line.drop start)
    rw [Option.mem_def.1 hc] at hstop
    exact isDelimiter_iff.1 (by simpa using hstop)

theorem ofLine?_of_unmarked (h : ∀ start, ¬Marked (line.drop start)) : ofLine? line = none := by
  rw [ofLine?, fromMarker?_of_unmarked h]
  rfl

theorem ofLine?_eq_none_iff : ofLine? line = none ↔
    (∀ start, ¬Marked (line.drop start)) ∨
      ∃ start, IsFirstMarker line start ∧ ∀ c ∈ (line.drop (start + 3)).head?, c ∈ delimiters := by
  have hcut (start : Nat) (hfirst : IsFirstMarker line start) : ofLine? line = none ↔
      ∀ c ∈ (line.drop (start + 3)).head?, c ∈ delimiters := by
    rw [← List.drop_drop, ← hfirst.marked.length_takeWhile_le_iff, ofLine?,
      fromMarker?_of_isFirstMarker hfirst]
    simp [Resource.scheme]
  constructor
  · intro hnone
    cases htail : fromMarker? line with
    | none => exact .inl (fromMarker?_eq_none_iff.1 htail)
    | some tail =>
      obtain ⟨first, hfirst, -⟩ := fromMarker?_eq_some_iff.1 htail
      exact .inr ⟨first, hfirst, (hcut first hfirst).1 hnone⟩
  · intro h
    rcases h with hunmarked | ⟨start, hfirst, hends⟩
    · exact ofLine?_of_unmarked hunmarked
    · exact (hcut start hfirst).2 hends

/-- A line gives a fragment exactly if it has an extent with that fragment, which begins at the first marker
in any letter case, is longer than the marker and goes up to the first delimiter or the end of the line. There
is only one, and the bytes of the line have their first marker at the same place. A line gives none exactly
if it has no marker, or its first marker is followed by a delimiter or by nothing. What is cut out of a line is
cut out of itself again. -/
theorem ofLine?_exact (line : Text) :
    (∀ f, ofLine? line = some f ↔ ∃ before after, Extent line before f.text after) ∧
      (∀ before text after before' text' after',
        Extent line before text after → Extent line before' text' after' →
          before = before' ∧ text = text' ∧ after = after') ∧
      (∀ before text after, Extent line before text after →
        IsFirstInBytes (Utf8.encode line) (Utf8.size before)) ∧
      (ofLine? line = none ↔
        (∀ start, ¬Marked (line.drop start)) ∨
          ∃ start, IsFirstMarker line start ∧ ∀ c ∈ (line.drop (start + 3)).head?, c ∈ delimiters) ∧
      (∀ f, ofLine? line = some f → ofLine? f.text = some f) := by
  refine ⟨fun f => ⟨exists_extent, ?_⟩, fun _ _ _ _ _ _ => Extent.unique, fun _ _ _ => Extent.isFirstInBytes,
    ofLine?_eq_none_iff, ?_⟩
  · intro h
    obtain ⟨before, after, hextent⟩ := h
    exact hextent.ofLine?_eq
  · intro f hf
    obtain ⟨before, after, hextent⟩ := exists_extent hf
    exact hextent.own.ofLine?_eq

/-- What looks like a marker, a character of two bytes in front of the first marker, and a second marker
behind the delimiter. -/
theorem ofLine?_exact_second_marker :
    let line := "urü: ur;uR:x/1\r,ur:y".toList
    Extent line "urü: ur;".toList "uR:x/1".toList "\r,ur:y".toList ∧
      ofLine? line = some ⟨"uR:x/1".toList⟩ := by
  intro line
  have hextent : Extent line "urü: ur;".toList "uR:x/1".toList "\r,ur:y".toList :=
    ⟨by decide, by decide, by decide +kernel, by decide +kernel, by simp [delimiters],
      by simp [delimiters]⟩
  exact ⟨hextent, ((ofLine?_exact line).1 ⟨"uR:x/1".toList⟩).2 ⟨_, _, hextent⟩⟩

end UrReplay.Fragment
