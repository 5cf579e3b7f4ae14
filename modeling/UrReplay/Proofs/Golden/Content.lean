import UrReplay.Golden.Check
import UrReplay.Proofs.Except
import UrReplay.Proofs.Text.Hex
import UrReplay.Proofs.Text.Lines
/-!
# UrReplay.Proofs.Golden.Content

What a golden file says. Its text `Spells` a payload if the digits on its first line do, and exactly then
the payload is read from it (`parse_eq_ok_iff`). What is written for a payload spells it, unless the
payload is empty (`spells_render`). A payload passes if there is no golden file, or one that spells it
(`isFailure_ofFile_eq_false_iff`).
-/

namespace UrReplay.Golden

variable {content : Text} {payload : Bytes} {path : Path} {file : Except FileError Bytes}

/-- The first line of a golden file spells the payload: there are digits, in either letter case, and they
are those of the payload. -/
def Spells (content : Text) (payload : Bytes) : Prop :=
  payload ≠ [] ∧ (digits content).lower = Hex.encode payload

instance (content : Text) (payload : Bytes) : Decidable (Spells content payload) :=
  inferInstanceAs (Decidable (_ ∧ _))

theorem parse_eq_ok_iff : parse content = .ok payload ↔ Spells content payload := by
  rw [parse, Spells]
  by_cases hempty : digits content = []
  · rw [if_pos hempty, hempty]
    refine ⟨nofun, fun ⟨hne, heq⟩ => ?_⟩
    exact absurd (Hex.encode_eq_nil_iff.1 heq.symm) hne
  · rw [if_neg hempty, Except.mapError_eq_ok_iff, Hex.decode_eq_ok_iff]
    refine ⟨fun heq => ⟨?_, heq⟩, And.right⟩
    rintro rfl
    have hlength := congrArg List.length heq
    rw [Text.length_lower] at hlength
    exact hempty (List.eq_nil_of_length_eq_zero hlength)

/-! ### Writing -/

/-- There is neither a blank nor a line end in what is written before the end of the line. -/
theorem isBlank_of_mem_written {c : Char} (h : c ∈ marker ++ Hex.encode payload) : isBlank c = false := by
  rcases List.mem_append.1 h with h | h
  · have hall : ∀ c ∈ marker, 0x21 ≤ c.toNat ∧ c.toNat ≤ 0x7E := by simp [marker]
    obtain ⟨hfirst, hlast⟩ := hall c h
    exact isBlank_eq_false hfirst hlast
  · obtain ⟨n, hn, rfl⟩ := Hex.exists_of_mem_encode h
    obtain ⟨hfirst, hlast, -⟩ := Hex.digit_plain hn
    exact isBlank_eq_false hfirst hlast

theorem digits_render (payload : Bytes) : digits (render payload) = Hex.encode payload := by
  have hblank {c : Char} (hc : c ∈ marker ++ Hex.encode payload) : isBlank c = false :=
    isBlank_of_mem_written hc
  have hfeed : '\n' ∉ marker ++ Hex.encode payload := fun h => absurd (hblank h) (by decide)
  have hreturn : '\r' ∉ marker ++ Hex.encode payload := fun h => absurd (hblank h) (by decide)
  have hline : Text.withoutFinalReturn (marker ++ Hex.encode payload) = marker ++ Hex.encode payload := by
    refine (Text.withoutFinalReturn_eq _).resolve_right fun h => hreturn ?_
    rw [← h]
    exact List.mem_append_right _ List.mem_cons_self
  have hmarker : marker.isPrefixOf? (marker ++ Hex.encode payload) = some (Hex.encode payload) := rfl
  rw [digits, render, Text.lines_append hfeed, List.head?_cons, Option.getD_some, hline,
    Text.trim_eq_self fun c hc => hblank hc, hmarker, Option.getD_some]

/-- What is written for a payload spells it. Of an empty payload nothing can be read back. -/
theorem spells_render (h : payload ≠ []) : Spells (render payload) payload := by
  refine ⟨h, ?_⟩
  rw [digits_render, Hex.lower_encode]

/-! ### Reading -/

theorem payloadOfFile_eq_none_iff (path : Path) : payloadOfFile path file = .ok none ↔ file = .error .notFound := by
  cases file with
  | error e => cases e <;> simp [payloadOfFile]
  | ok bytes =>
    rw [payloadOfFile]
    cases Utf8.decode? bytes with
    | none => simp
    | some content => cases hparse : parse content <;> simp [hparse]

theorem payloadOfFile_eq_some_iff (path : Path) :
    payloadOfFile path file = .ok (some payload) ↔
      ∃ content, file = .ok (Utf8.encode content) ∧ Spells content payload := by
  simp only [← parse_eq_ok_iff]
  cases file with
  | error e => cases e <;> simp [payloadOfFile]
  | ok bytes =>
    simp only [Except.ok.injEq, ← Utf8.decode?_eq_some_iff, payloadOfFile]
    cases Utf8.decode? bytes with
    | none => simp
    | some content => cases hparse : parse content <;> simp [hparse]

/-! ### Comparing -/

theorem isFailure_ofFile_inaccessible :
    (Check.ofFile path (.error .inaccessible) payload).isFailure = true := rfl

theorem ofFile_of_spells (h : Spells content payload) :
    Check.ofFile path (.ok (Utf8.encode content)) payload = .matched := by
  rw [Check.ofFile, (payloadOfFile_eq_some_iff path).2 ⟨content, rfl, h⟩]
  exact if_pos rfl

/-- A payload passes if there is no golden file, or one that spells it. -/
theorem isFailure_ofFile_eq_false_iff :
    (Check.ofFile path file payload).isFailure = false ↔
      file = .error .notFound ∨ ∃ content, file = .ok (Utf8.encode content) ∧ Spells content payload := by
  rw [← payloadOfFile_eq_none_iff path, ← payloadOfFile_eq_some_iff path, Check.ofFile]
  cases payloadOfFile path file with
  | error e => simp [Check.isFailure]
  | ok recorded =>
    cases recorded with
    | none => simp [Check.isFailure]
    | some expected => by_cases hsame : expected = payload <;> simp [hsame, Check.isFailure]

end UrReplay.Golden
