import UrReplay.Proofs.Capture.Fragment
import UrReplay.Proofs.Text.Lower
import UrReplay.Proofs.Text.Utf8
/-!
# UrReplay.Proofs.Capture.Marker

The first marker in a line. Said without a search, it is at the first place from which on the line is
`Marked`; the search stops there (`fromMarker?_of_isFirstMarker`), and finds nothing only if there is no
such place (`fromMarker?_eq_none_iff`).

The bytes of a line have their first marker at the same place (`isFirstInBytes_size`). A marker is ASCII,
and a character that is not has no byte in ASCII, so a marker in the bytes begins where a character does
(`markedBytes_drop_encode_iff`).
-/

namespace UrReplay.Fragment

open Resource (scheme)

variable {line before rest tail : Text} {start offset : Nat}

/-- A marker stands at the front of a text, each letter of it in either case. -/
inductive Marked : Text → Prop
  | intro {u r : Char} (rest : Text) : u = 'u' ∨ u = 'U' → r = 'r' ∨ r = 'R' →
      Marked (u :: r :: ':' :: rest)

/-- There is a marker at a place in a line, and none at an earlier one. -/
structure IsFirstMarker (line : Text) (start : Nat) : Prop where
  marked : Marked (line.drop start)
  first : ∀ earlier < start, ¬Marked (line.drop earlier)

theorem hasMarker_iff_marked {t : Text} : hasMarker t = true ↔ Marked t := by
  have hu (c : Char) : c.toLower = 'u' ↔ c = 'u' ∨ c = 'U' := toLower_eq_iff rfl
  have hr (c : Char) : c.toLower = 'r' ↔ c = 'r' ∨ c = 'R' := toLower_eq_iff rfl
  have hcolon (c : Char) : c.toLower = ':' ↔ c = ':' := toLower_eq_iff_of_not_isAlpha rfl
  constructor
  · intro h
    match t with
    | [] => simp [hasMarker, scheme] at h
    | [_] => simp [hasMarker, scheme] at h
    | [_, _] => simp [hasMarker, scheme] at h
    | u :: r :: colon :: rest =>
      simp only [hasMarker, scheme, List.length_cons, List.length_nil, List.take_succ_cons, List.take_zero,
        Text.lower_cons, Text.lower_nil, beq_iff_eq, List.cons.injEq, hu, hr, hcolon, and_true] at h
      obtain ⟨hu, hr, rfl⟩ := h
      exact .intro rest hu hr
  · intro h
    obtain ⟨rest, hu', hr'⟩ := h
    simp [hasMarker, scheme, (hu _).2 hu', (hr _).2 hr']

instance (t : Text) : Decidable (Marked t) := decidable_of_iff _ hasMarker_iff_marked

theorem not_marked_nil : ¬Marked [] := nofun

theorem marked_iff_prefix {t : Text} : Marked t ↔ scheme <+: t.lower :=
  hasMarker_iff_marked.symm.trans hasMarker_iff

theorem Marked.append {t : Text} (h : Marked t) (after : Text) : Marked (t ++ after) := by
  obtain ⟨rest, hu, hr⟩ := h
  exact .intro (rest ++ after) hu hr

/-- A marker at the front of two texts lies in the first one, if the second begins with one, too: no end of a
marker begins another one. -/
theorem Marked.of_append {s t : Text} (h : Marked (s ++ t)) (hs : s ≠ []) (ht : Marked t) : Marked s := by
  obtain ⟨after, hu, -⟩ := ht
  generalize hline : s ++ _ = line at h
  obtain ⟨rest, hu', hr'⟩ := h
  match s with
  | [] => exact absurd rfl hs
  | [_] =>
    simp only [List.cons_append, List.nil_append, List.cons.injEq] at hline
    obtain ⟨-, rfl, -⟩ := hline
    rcases hu with rfl | rfl <;> exact absurd hr' (by decide)
  | [_, _] =>
    simp only [List.cons_append, List.nil_append, List.cons.injEq] at hline
    obtain ⟨-, -, rfl, -⟩ := hline
    exact absurd hu (by decide)
  | _ :: _ :: _ :: s =>
    simp only [List.cons_append, List.cons.injEq] at hline
    obtain ⟨rfl, rfl, rfl, -⟩ := hline
    exact .intro s hu' hr'

/-- A text without a marker has none at any place. -/
theorem markerFree_iff {t : Text} : MarkerFree t ↔ ∀ start, ¬Marked (t.drop start) := by
  have hinfix : scheme <:+: t.lower ↔ ∃ start, Marked (t.drop start) := by
    constructor
    · intro h
      obtain ⟨s, rest, heq⟩ := h
      refine ⟨s.length, marked_iff_prefix.2 ?_⟩
      rw [Text.lower, List.map_drop, ← Text.lower, ← heq, List.append_assoc, List.drop_left]
      exact List.prefix_append _ _
    · intro h
      obtain ⟨start, hmarked⟩ := h
      have hprefix := marked_iff_prefix.1 hmarked
      rw [Text.lower, List.map_drop] at hprefix
      exact hprefix.isInfix.trans (List.drop_suffix _ _).isInfix
  rw [MarkerFree, hinfix, not_exists]

/-! ### The first marker -/

theorem IsFirstMarker.unique {start' : Nat} (h : IsFirstMarker line start) (h' : IsFirstMarker line start') :
    start = start' := by
  rcases Nat.lt_trichotomy start start' with hlt | heq | hlt
  · exact absurd h.marked (h'.first start hlt)
  · exact heq
  · exact absurd h'.marked (h.first start' hlt)

theorem exists_isFirstMarker (h : Marked (line.drop start)) : ∃ first, IsFirstMarker line first := by
  classical
  have hexists : ∃ start, Marked (line.drop start) := ⟨start, h⟩
  exact ⟨Nat.find hexists, Nat.find_spec hexists, fun _ => Nat.find_min hexists⟩

theorem IsFirstMarker.of_cons {c : Char} (h : IsFirstMarker (c :: line) (start + 1)) :
    IsFirstMarker line start :=
  ⟨h.marked, fun earlier hearlier => h.first (earlier + 1) (by omega)⟩

theorem fromMarker?_of_isFirstMarker (h : IsFirstMarker line start) :
    fromMarker? line = some (line.drop start) := by
  induction line generalizing start with
  | nil =>
    have hmarked := h.marked
    rw [List.drop_nil] at hmarked
    exact absurd hmarked not_marked_nil
  | cons c line ih =>
    cases start with
    | zero =>
      have hmarker : hasMarker (c :: line) = true := hasMarker_iff_marked.2 h.marked
      rw [fromMarker?, if_pos hmarker, List.drop_zero]
    | succ start =>
      have hnone : ¬hasMarker (c :: line) = true := fun hmarker =>
        h.first 0 (Nat.succ_pos start) (hasMarker_iff_marked.1 hmarker)
      rw [fromMarker?, if_neg hnone, ih h.of_cons, List.drop_succ_cons]

theorem fromMarker?_of_unmarked (h : ∀ start, ¬Marked (line.drop start)) : fromMarker? line = none := by
  induction line with
  | nil => rfl
  | cons c line ih =>
    have hnone : ¬hasMarker (c :: line) = true := fun hmarker => h 0 (hasMarker_iff_marked.1 hmarker)
    rw [fromMarker?, if_neg hnone, ih fun start => h (start + 1)]

theorem fromMarker?_eq_none_iff : fromMarker? line = none ↔ ∀ start, ¬Marked (line.drop start) := by
  refine ⟨fun hnone start hmarked => ?_, fromMarker?_of_unmarked⟩
  obtain ⟨first, hfirst⟩ := exists_isFirstMarker hmarked
  rw [fromMarker?_of_isFirstMarker hfirst] at hnone
  exact absurd hnone nofun

theorem fromMarker?_eq_some_iff :
    fromMarker? line = some tail ↔ ∃ start, IsFirstMarker line start ∧ line.drop start = tail := by
  constructor
  · intro h
    by_cases hmarked : ∃ start, Marked (line.drop start)
    · obtain ⟨start, hmarked⟩ := hmarked
      obtain ⟨first, hfirst⟩ := exists_isFirstMarker hmarked
      rw [fromMarker?_of_isFirstMarker hfirst] at h
      exact ⟨first, hfirst, Option.some.inj h⟩
    · rw [fromMarker?_of_unmarked (not_exists.1 hmarked)] at h
      exact absurd h nofun
  · intro h
    obtain ⟨start, hfirst, rfl⟩ := h
    exact fromMarker?_of_isFirstMarker hfirst

/-! ### Markers in bytes -/

/-- A marker stands at the front of some bytes, each letter of it in either case. -/
inductive MarkedBytes : Bytes → Prop
  | intro {u r : UInt8} (rest : Bytes) : u = 0x75 ∨ u = 0x55 → r = 0x72 ∨ r = 0x52 →
      MarkedBytes (u :: r :: 0x3A :: rest)

/-- There is a marker at a place in some bytes, and none at an earlier one. -/
structure IsFirstInBytes (bytes : Bytes) (offset : Nat) : Prop where
  marked : MarkedBytes (bytes.drop offset)
  first : ∀ earlier < offset, ¬MarkedBytes (bytes.drop earlier)

theorem MarkedBytes.ascii_head {bytes : Bytes} (h : MarkedBytes bytes) :
    ∃ b ∈ bytes.head?, b.toNat < 128 := by
  obtain ⟨rest, rfl | rfl, -⟩ := h <;> exact ⟨_, rfl, by decide⟩

theorem markedBytes_encode_iff {t : Text} : MarkedBytes (Utf8.encode t) ↔ Marked t := by
  constructor
  · intro h
    generalize hbytes : Utf8.encode t = bytes at h
    obtain @⟨u, r, rest, hu, hr⟩ := h
    have huAscii : u.toNat < 128 := by rcases hu with rfl | rfl <;> decide
    have hrAscii : r.toNat < 128 := by rcases hr with rfl | rfl <;> decide
    obtain ⟨t, rfl, hsecond⟩ := Utf8.exists_of_encode_eq_cons huAscii hbytes
    obtain ⟨t, rfl, hthird⟩ := Utf8.exists_of_encode_eq_cons hrAscii hsecond
    obtain ⟨t, rfl, -⟩ := Utf8.exists_of_encode_eq_cons (by decide) hthird
    have huLetter : Char.ofNat u.toNat = 'u' ∨ Char.ofNat u.toNat = 'U' := by
      rcases hu with rfl | rfl <;> decide
    have hrLetter : Char.ofNat r.toNat = 'r' ∨ Char.ofNat r.toNat = 'R' := by
      rcases hr with rfl | rfl <;> decide
    exact .intro t huLetter hrLetter
  · rintro ⟨rest, rfl | rfl, rfl | rfl⟩ <;> exact .intro _ (by decide) (by decide)

/-- No marker begins within the bytes of one character. -/
theorem not_markedBytes_of_mid {c : Char} (hpos : 0 < offset)
    (hinside : offset < (String.utf8EncodeChar c).length) (bytes : Bytes) :
    ¬MarkedBytes ((String.utf8EncodeChar c).drop offset ++ bytes) := by
  intro h
  have hc : 128 ≤ c.toNat := by
    by_contra hascii
    rw [Utf8.encodeChar_of_ascii (Nat.lt_of_not_le hascii), List.length_singleton] at hinside
    omega
  obtain ⟨b, hb, hascii⟩ := h.ascii_head
  have hne : (String.utf8EncodeChar c).drop offset ≠ [] := by
    rw [Ne, List.drop_eq_nil_iff]
    exact Nat.not_le.2 hinside
  rw [List.head?_append_of_ne_nil _ hne] at hb
  have hhigh := Utf8.high_of_mem_encodeChar hc b (List.mem_of_mem_drop (List.mem_of_mem_head? hb))
  omega

/-- A marker in the bytes of a line begins where a character does. -/
theorem markedBytes_drop_encode_iff :
    MarkedBytes ((Utf8.encode line).drop offset) ↔
      ∃ before rest, line = before ++ rest ∧ Utf8.size before = offset ∧ Marked rest := by
  constructor
  · intro h
    induction line generalizing offset with
    | nil =>
      obtain ⟨b, hb, -⟩ := h.ascii_head
      simp at hb
    | cons c line ih =>
      rcases Nat.eq_zero_or_pos offset with rfl | hpos
      · exact ⟨[], c :: line, rfl, rfl, markedBytes_encode_iff.1 h⟩
      · rw [Utf8.encode_cons] at h
        by_cases hinside : offset < (String.utf8EncodeChar c).length
        · rw [List.drop_append_of_le_length (Nat.le_of_lt hinside)] at h
          exact absurd h (not_markedBytes_of_mid hpos hinside _)
        · rw [List.drop_append, List.drop_eq_nil_of_le (Nat.le_of_not_lt hinside), List.nil_append] at h
          obtain ⟨before, rest, rfl, hsize, hmarked⟩ := ih h
          refine ⟨c :: before, rest, rfl, ?_, hmarked⟩
          rw [Utf8.size, Utf8.encode_cons, List.length_append, ← Utf8.size, hsize]
          omega
  · intro h
    obtain ⟨before, rest, rfl, rfl, hmarked⟩ := h
    rw [Utf8.encode_append, Utf8.size, List.drop_left]
    exact markedBytes_encode_iff.2 hmarked

/-- The first marker in the bytes of a line begins where the first one in its characters does. -/
theorem isFirstInBytes_size (h : IsFirstMarker (before ++ rest) before.length) :
    IsFirstInBytes (Utf8.encode (before ++ rest)) (Utf8.size before) := by
  have hmarked : Marked rest := by simpa using h.marked
  refine ⟨markedBytes_drop_encode_iff.2 ⟨before, rest, rfl, rfl, hmarked⟩, ?_⟩
  intro offset hoffset hbytes
  obtain ⟨before', rest', hsplit, rfl, hmarked'⟩ := markedBytes_drop_encode_iff.1 hbytes
  rcases List.append_eq_append_iff.1 hsplit with ⟨between, rfl, -⟩ | ⟨between, rfl, rfl⟩
  · rw [Utf8.size_append] at hoffset
    omega
  · have hne : between ≠ [] := by
      rintro rfl
      simp at hoffset
    have hlt : before'.length < (before' ++ between).length := by
      simpa using List.length_pos_of_ne_nil hne
    exact h.first before'.length hlt (by simpa using hmarked')

end UrReplay.Fragment
