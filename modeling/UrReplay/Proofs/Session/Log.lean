import UrReplay.Session.Basic
/-!
# UrReplay.Proofs.Session.Log

What a session asks of a decoder, and what it is told.

* A `Recorder` passes every fragment on to a decoder and writes down the answer. It does not change the
  session (`feedFrom_recorder`), so what it has written down in the end is the `log` of the session,
  and says which fragments were `accepted`.
* A decoder is `Steady` if it keeps its state when it rejects a fragment. Then a session depends on the
  accepted fragments alone (`feed_accepted`), a fragment that is rejected can be left out
  (`feed_insert`), and no decoder that is complete is asked anything (`exists_of_mem_log`).
-/

namespace UrReplay

/-- A decoder with the fragments that were submitted to it, and its answers. -/
structure Recorder (σ ε : Type) where
  decoder : σ
  log : List (Fragment × Except ε Unit)

namespace Session

open FragmentDecoder (submit isComplete)

variable {σ ε : Type} [FragmentDecoder σ ε] {n : Nat} {d d' : σ} {fragment : Fragment}
  {fragments rest : List Fragment} {e : ε}

instance : FragmentDecoder (Recorder σ ε) ε where
  submit r fragment :=
    let (answer, decoder) := submit r.decoder fragment
    (answer, { decoder, log := r.log ++ [(fragment, answer)] })
  isComplete r := isComplete r.decoder
  isSuccessful r := FragmentDecoder.isSuccessful r.decoder
  payload? r := FragmentDecoder.payload? r.decoder
  statusDetail? r := FragmentDecoder.statusDetail? r.decoder

/-- Every fragment that a session submits, with the answer of the decoder. -/
def log (d : σ) (fragments : List Fragment) : List (Fragment × Except ε Unit) :=
  (feed (⟨d, []⟩ : Recorder σ ε) fragments).2.log

/-- The fragments that a session submits and that are accepted. -/
def accepted (d : σ) (fragments : List Fragment) : List Fragment :=
  ((log d fragments).filter fun entry => entry.2.isOk).map Prod.fst

/-! ### One fragment

A fragment is rejected, or it is the last one, or the session goes on after it. -/

theorem feedFrom_cons_of_rejected (h : submit d fragment = (.error e, d')) :
    feedFrom n d (fragment :: rest) = feedFrom n d' rest := by
  rw [feedFrom, h]

theorem feedFrom_cons_of_last (h : submit d fragment = (.ok (), d')) (hd' : isComplete d' = true) :
    feedFrom n d (fragment :: rest) = (n + 1, d') := by
  rw [feedFrom, h]
  exact if_pos hd'

theorem feedFrom_cons_of_accepted (h : submit d fragment = (.ok (), d'))
    (hd' : isComplete d' = false) :
    feedFrom n d (fragment :: rest) = feedFrom (n + 1) d' rest := by
  rw [feedFrom, h]
  exact if_neg (by rw [hd']; exact Bool.false_ne_true)

/-- Induction along a session. -/
theorem feed_induction {motive : σ → List Fragment → Prop} (nil : ∀ d : σ, motive d [])
    (rejected : ∀ (d : σ) (fragment : Fragment) (rest : List Fragment) (e : ε) (d' : σ),
      submit d fragment = (.error e, d') → motive d' rest → motive d (fragment :: rest))
    (last : ∀ (d : σ) (fragment : Fragment) (rest : List Fragment) (d' : σ),
      submit d fragment = (.ok (), d') → isComplete d' = true → motive d (fragment :: rest))
    (accepted : ∀ (d : σ) (fragment : Fragment) (rest : List Fragment) (d' : σ),
      submit d fragment = (.ok (), d') → isComplete d' = false → motive d' rest →
      motive d (fragment :: rest))
    (d : σ) (fragments : List Fragment) : motive d fragments := by
  induction fragments generalizing d with
  | nil => exact nil d
  | cons fragment rest ih =>
    rcases hsubmit : submit d fragment with ⟨e | _, d'⟩
    · exact rejected d fragment rest e d' hsubmit (ih d')
    · cases hd' : isComplete d' with
      | true => exact last d fragment rest d' hsubmit hd'
      | false => exact accepted d fragment rest d' hsubmit hd' (ih d')

theorem submit_recorder (entries : List (Fragment × Except ε Unit)) {answer : Except ε Unit}
    (h : submit d fragment = (answer, d')) :
    submit (⟨d, entries⟩ : Recorder σ ε) fragment =
      (answer, ⟨d', entries ++ [(fragment, answer)]⟩) := by
  show ((submit d fragment).1, (⟨(submit d fragment).2,
    entries ++ [(fragment, (submit d fragment).1)]⟩ : Recorder σ ε)) = _
  rw [h]

/-- Recording adds to a log what happens, and does not change what happens. -/
theorem feedFrom_recorder (n : Nat) (d : σ) (entries : List (Fragment × Except ε Unit))
    (fragments : List Fragment) :
    feedFrom n (⟨d, entries⟩ : Recorder σ ε) fragments =
      ((feedFrom n d fragments).1, ⟨(feedFrom n d fragments).2, entries ++ log d fragments⟩) := by
  unfold log feed
  induction d, fragments using feed_induction generalizing n entries with
  | nil d => simp [feedFrom]
  | rejected d fragment rest e d' h ih =>
    rw [feedFrom_cons_of_rejected h, feedFrom_cons_of_rejected (submit_recorder _ h),
      feedFrom_cons_of_rejected (submit_recorder _ h), ih]
    simp [ih 0 [(fragment, .error e)]]
  | last d fragment rest d' h hd' =>
    rw [feedFrom_cons_of_last h hd', feedFrom_cons_of_last (submit_recorder _ h) hd',
      feedFrom_cons_of_last (submit_recorder _ h) hd']
    simp
  | accepted d fragment rest d' h hd' ih =>
    rw [feedFrom_cons_of_accepted h hd', feedFrom_cons_of_accepted (submit_recorder _ h) hd',
      feedFrom_cons_of_accepted (submit_recorder _ h) hd', ih]
    simp [ih 1 [(fragment, .ok ())]]

theorem log_cons_of_rejected (h : submit d fragment = (.error e, d')) :
    log d (fragment :: rest) = (fragment, .error e) :: log d' rest := by
  rw [log, feed, feedFrom_cons_of_rejected (submit_recorder _ h), feedFrom_recorder]
  rfl

theorem log_cons_of_last (h : submit d fragment = (.ok (), d')) (hd' : isComplete d' = true) :
    log d (fragment :: rest) = [(fragment, .ok ())] := by
  rw [log, feed, feedFrom_cons_of_last (submit_recorder _ h) hd']
  rfl

theorem log_cons_of_accepted (h : submit d fragment = (.ok (), d')) (hd' : isComplete d' = false) :
    log d (fragment :: rest) = (fragment, .ok ()) :: log d' rest := by
  rw [log, feed, feedFrom_cons_of_accepted (submit_recorder _ h) hd', feedFrom_recorder]
  rfl

theorem accepted_cons_of_rejected (h : submit d fragment = (.error e, d')) :
    accepted d (fragment :: rest) = accepted d' rest := by
  rw [accepted, log_cons_of_rejected h]
  rfl

theorem accepted_cons_of_last (h : submit d fragment = (.ok (), d')) (hd' : isComplete d' = true) :
    accepted d (fragment :: rest) = [fragment] := by
  rw [accepted, log_cons_of_last h hd']
  rfl

theorem accepted_cons_of_accepted (h : submit d fragment = (.ok (), d'))
    (hd' : isComplete d' = false) :
    accepted d (fragment :: rest) = fragment :: accepted d' rest := by
  rw [accepted, log_cons_of_accepted h hd']
  rfl

/-! ### Any decoder -/

/-- A session submits its fragments in order, up to some point. -/
theorem isPrefix_map_fst_log (d : σ) (fragments : List Fragment) :
    (log d fragments).map Prod.fst <+: fragments := by
  induction d, fragments using feed_induction with
  | nil d => exact List.prefix_refl []
  | rejected d fragment rest e d' h ih =>
    rw [log_cons_of_rejected h]
    exact List.cons_prefix_cons.2 ⟨rfl, ih⟩
  | last d fragment rest d' h hd' =>
    rw [log_cons_of_last h hd']
    exact List.cons_prefix_cons.2 ⟨rfl, List.nil_prefix⟩
  | accepted d fragment rest d' h hd' ih =>
    rw [log_cons_of_accepted h hd']
    exact List.cons_prefix_cons.2 ⟨rfl, ih⟩

theorem accepted_sublist (d : σ) (fragments : List Fragment) :
    (accepted d fragments).Sublist fragments :=
  (List.filter_sublist.map Prod.fst).trans (isPrefix_map_fst_log d fragments).sublist

/-- What counts as consumed is what is accepted. -/
theorem fst_feedFrom (n : Nat) (d : σ) (fragments : List Fragment) :
    (feedFrom n d fragments).1 = n + (accepted d fragments).length := by
  induction d, fragments using feed_induction generalizing n with
  | nil d => rfl
  | rejected d fragment rest e d' h ih =>
    rw [feedFrom_cons_of_rejected h, accepted_cons_of_rejected h, ih]
  | last d fragment rest d' h hd' =>
    rw [feedFrom_cons_of_last h hd', accepted_cons_of_last h hd']
    rfl
  | accepted d fragment rest d' h hd' ih =>
    rw [feedFrom_cons_of_accepted h hd', accepted_cons_of_accepted h hd', ih, List.length_cons,
      Nat.add_assoc, Nat.add_comm 1]

/-- What a session observes is what feeding makes of the decoder, except for the number of
fragments. -/
theorem runWith_congr {fragments fragments' : List Fragment}
    (h : feed d fragments = feed d fragments') :
    runWith d fragments = { runWith d fragments' with available := fragments.length } := by
  simp only [runWith, h]

/-! ### Steady decoders -/

/-- A decoder that rejects a fragment keeps its state. -/
def Steady (σ : Type) {ε : Type} [FragmentDecoder σ ε] : Prop :=
  ∀ (d : σ) (fragment : Fragment) (e : ε) (d' : σ), submit d fragment = (.error e, d') → d' = d

/-- Rejected fragments have no influence. -/
theorem feedFrom_accepted (hsteady : Steady σ) (n : Nat) (d : σ) (fragments : List Fragment) :
    feedFrom n d (accepted d fragments) = feedFrom n d fragments := by
  induction d, fragments using feed_induction generalizing n with
  | nil d => rfl
  | rejected d fragment rest e d' h ih =>
    obtain rfl := hsteady d fragment e d' h
    rw [feedFrom_cons_of_rejected h, accepted_cons_of_rejected h, ih]
  | last d fragment rest d' h hd' =>
    rw [accepted_cons_of_last h hd', feedFrom_cons_of_last h hd', feedFrom_cons_of_last h hd']
  | accepted d fragment rest d' h hd' ih =>
    rw [accepted_cons_of_accepted h hd', feedFrom_cons_of_accepted h hd',
      feedFrom_cons_of_accepted h hd', ih]

/-- Fragments are fed in two goes, unless the first one completes the decoder. -/
theorem feedFrom_append (hsteady : Steady σ) (n : Nat) {d : σ} (hd : isComplete d = false)
    (before after : List Fragment) :
    feedFrom n d (before ++ after) =
      if isComplete (feedFrom n d before).2 then feedFrom n d before
      else feedFrom (feedFrom n d before).1 (feedFrom n d before).2 after := by
  induction d, before using feed_induction generalizing n with
  | nil d =>
    rw [List.nil_append, feedFrom, if_neg (by rw [hd]; exact Bool.false_ne_true)]
  | rejected d fragment rest e d' h ih =>
    obtain rfl := hsteady d fragment e d' h
    rw [List.cons_append, feedFrom_cons_of_rejected h, feedFrom_cons_of_rejected h, ih n hd]
  | last d fragment rest d' h hd' =>
    rw [List.cons_append, feedFrom_cons_of_last h hd', feedFrom_cons_of_last h hd', if_pos hd']
  | accepted d fragment rest d' h hd' ih =>
    rw [List.cons_append, feedFrom_cons_of_accepted h hd', feedFrom_cons_of_accepted h hd',
      ih (n + 1) hd']

/-- Once the decoder is complete, further fragments have no influence. -/
theorem feed_append_of_isComplete (hsteady : Steady σ) (hd : isComplete d = false)
    {before : List Fragment} (hbefore : isComplete (feed d before).2 = true)
    (surplus : List Fragment) : feed d (before ++ surplus) = feed d before := by
  rw [feed, feedFrom_append hsteady 0 hd]
  exact if_pos hbefore

/-- A fragment that is rejected where it stands can be left out. -/
theorem feed_insert (hsteady : Steady σ) (hd : isComplete d = false) {before : List Fragment}
    (hrejected : submit (feed d before).2 fragment = (.error e, d')) (after : List Fragment) :
    feed d (before ++ fragment :: after) = feed d (before ++ after) := by
  obtain rfl := hsteady _ _ _ _ hrejected
  rw [feed] at hrejected
  rw [feed, feed, feedFrom_append hsteady 0 hd, feedFrom_append hsteady 0 hd,
    feedFrom_cons_of_rejected hrejected]

/-- Every answer in the log is that of a decoder that is not complete. -/
theorem exists_of_mem_log (hsteady : Steady σ) (hd : isComplete d = false)
    {entry : Fragment × Except ε Unit} (h : entry ∈ log d fragments) :
    ∃ d' : σ, isComplete d' = false ∧ (submit d' entry.1).1 = entry.2 := by
  induction d, fragments using feed_induction with
  | nil d => exact absurd h List.not_mem_nil
  | rejected d fragment rest e d' hsubmit ih =>
    obtain rfl := hsteady d fragment e d' hsubmit
    rw [log_cons_of_rejected hsubmit] at h
    rcases List.mem_cons.1 h with rfl | h
    · exact ⟨d', hd, congrArg Prod.fst hsubmit⟩
    · exact ih hd h
  | last d fragment rest d' hsubmit hd' =>
    rw [log_cons_of_last hsubmit hd'] at h
    obtain rfl := List.mem_singleton.1 h
    exact ⟨d, hd, congrArg Prod.fst hsubmit⟩
  | accepted d fragment rest d' hsubmit hd' ih =>
    rw [log_cons_of_accepted hsubmit hd'] at h
    rcases List.mem_cons.1 h with rfl | h
    · exact ⟨d, hd, congrArg Prod.fst hsubmit⟩
    · exact ih hd' h

end Session

end UrReplay
