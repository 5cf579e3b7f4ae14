import UrReplay.Proofs.Session.Log
import UrReplay.Session.Scripted
/-!
# UrReplay.Proofs.Session.Contract

What a session does with any decoder, also with one that changes when it rejects a fragment.

* The submitted fragments are the shortest beginning of the list that `Completes` the decoder, or all of
  them if none does (`submitted_shortest`). The answers are those of a decoder that is fed these fragments
  and nothing else (`log_eq_answers`), and the session reads its result off what has become of it
  (`runWith_contract`).
* Whether the decoder is complete is asked after accepted fragments only. So a decoder that is complete
  from the start, or that a rejection completes, is fed one more fragment, and no other one is
  (`first_or_rejected_before`).
-/

namespace UrReplay.Session

open FragmentDecoder (submit isComplete isSuccessful payload? statusDetail?)

variable {σ ε : Type} [FragmentDecoder σ ε] {d d' : σ} {fragment : Fragment}
  {fragments rest : List Fragment} {answer : Except ε Unit}

/-- What becomes of a decoder that is fed fragments one after another, whatever it answers. -/
def stateAfter (d : σ) (fragments : List Fragment) : σ :=
  fragments.foldl (fun d fragment => (submit d fragment).2) d

/-- The fragments, each with the answer of a decoder that is fed all of them. -/
def answers (d : σ) : List Fragment → List (Fragment × Except ε Unit)
  | [] => []
  | fragment :: rest => (fragment, (submit d fragment).1) :: answers (submit d fragment).2 rest

/-- The last of the fragments is accepted and leaves the decoder complete. -/
def Completes (d : σ) (fragments : List Fragment) : Prop :=
  ∃ before last, fragments = before ++ [last] ∧ (submit (stateAfter d before) last).1 = .ok () ∧
    isComplete (stateAfter d fragments) = true

/-- The fragments that a session submits. -/
def submitted (d : σ) (fragments : List Fragment) : List Fragment :=
  (log d fragments).map Prod.fst

theorem stateAfter_cons (h : submit d fragment = (answer, d')) (rest : List Fragment) :
    stateAfter d (fragment :: rest) = stateAfter d' rest := by
  rw [stateAfter, List.foldl_cons, h, stateAfter]

theorem answers_cons (h : submit d fragment = (answer, d')) (rest : List Fragment) :
    answers d (fragment :: rest) = (fragment, answer) :: answers d' rest := by
  rw [answers, h]

/-! ### The shortest beginning that completes a decoder -/

theorem not_completes_nil (d : σ) : ¬Completes d [] := by
  rintro ⟨before, last, h, -⟩
  exact absurd h.symm (List.append_ne_nil_of_right_ne_nil before (List.cons_ne_nil last []))

/-- Either the first fragment is the only one and completes the decoder, or the others complete what it
has made of the decoder. -/
theorem completes_cons (h : submit d fragment = (answer, d')) (rest : List Fragment) :
    Completes d (fragment :: rest) ↔
      (rest = [] ∧ answer = .ok () ∧ isComplete d' = true) ∨ Completes d' rest := by
  constructor
  · rintro ⟨before, last, hsplit, hlast, hcomplete⟩
    rw [stateAfter_cons h] at hcomplete
    cases before with
    | nil =>
      obtain ⟨rfl, rfl⟩ := List.cons.inj hsplit
      have hanswer : (submit d fragment).1 = .ok () := hlast
      rw [h] at hanswer
      exact .inl ⟨rfl, hanswer, hcomplete⟩
    | cons first before =>
      obtain ⟨rfl, rfl⟩ := List.cons.inj hsplit
      rw [stateAfter_cons h] at hlast
      exact .inr ⟨before, last, rfl, hlast, hcomplete⟩
  · rintro (⟨rfl, hanswer, hcomplete⟩ | ⟨before, last, rfl, hlast, hcomplete⟩)
    · refine ⟨[], fragment, rfl, ?_, ?_⟩
      · show (submit d fragment).1 = .ok ()
        rw [h, hanswer]
      · rw [stateAfter_cons h]
        exact hcomplete
    · refine ⟨fragment :: before, last, rfl, ?_, ?_⟩
      · rw [stateAfter_cons h]
        exact hlast
      · rw [stateAfter_cons h]
        exact hcomplete

/-- What a session submits is the shortest beginning that completes the decoder, or everything. -/
def IsShortest (d : σ) (fragments submitted : List Fragment) : Prop :=
  (Completes d submitted ∧
      ∀ beginning, beginning <+: fragments → Completes d beginning → submitted <+: beginning) ∨
    (submitted = fragments ∧ ∀ beginning, beginning <+: fragments → ¬Completes d beginning)

/-- A fragment that does not end the session stands in front of what the others make of it. -/
theorem IsShortest.cons {submitted : List Fragment} (h : submit d fragment = (answer, d'))
    (hgoes : ¬(answer = .ok () ∧ isComplete d' = true)) (hrest : IsShortest d' rest submitted) :
    IsShortest d (fragment :: rest) (fragment :: submitted) := by
  have hcompletes (fragments : List Fragment) :
      Completes d (fragment :: fragments) ↔ Completes d' fragments := by
    rw [completes_cons h]
    exact or_iff_right fun hlast => hgoes hlast.2
  rcases hrest with ⟨hcomplete, hshortest⟩ | ⟨rfl, hnone⟩
  · refine .inl ⟨(hcompletes submitted).2 hcomplete, ?_⟩
    intro beginning hbeginning hcompleted
    rcases List.prefix_cons_iff.1 hbeginning with rfl | ⟨beginning, rfl, htail⟩
    · exact absurd hcompleted (not_completes_nil d)
    · exact List.cons_prefix_cons.2
        ⟨rfl, hshortest beginning htail ((hcompletes beginning).1 hcompleted)⟩
  · refine .inr ⟨rfl, ?_⟩
    intro beginning hbeginning hcompleted
    rcases List.prefix_cons_iff.1 hbeginning with rfl | ⟨beginning, rfl, htail⟩
    · exact not_completes_nil d hcompleted
    · exact hnone beginning htail ((hcompletes beginning).1 hcompleted)

theorem submitted_shortest (d : σ) (fragments : List Fragment) :
    IsShortest d fragments (submitted d fragments) := by
  induction d, fragments using feed_induction with
  | nil d =>
    refine .inr ⟨rfl, ?_⟩
    intro beginning hbeginning
    rw [List.prefix_nil.1 hbeginning]
    exact not_completes_nil d
  | rejected d fragment rest e d' h ih =>
    rw [submitted, log_cons_of_rejected h]
    exact ih.cons h (by simp)
  | last d fragment rest d' h hd' =>
    rw [submitted, log_cons_of_last h hd']
    refine .inl ⟨(completes_cons h []).2 (.inl ⟨rfl, rfl, hd'⟩), ?_⟩
    intro beginning hbeginning hcompleted
    rcases List.prefix_cons_iff.1 hbeginning with rfl | ⟨beginning, rfl, -⟩
    · exact absurd hcompleted (not_completes_nil d)
    · exact List.cons_prefix_cons.2 ⟨rfl, List.nil_prefix⟩
  | accepted d fragment rest d' h hd' ih =>
    rw [submitted, log_cons_of_accepted h hd']
    exact ih.cons h (by simp [hd'])

/-! ### Answers and the state at the end -/

theorem log_eq_answers (d : σ) (fragments : List Fragment) :
    log d fragments = answers d (submitted d fragments) := by
  unfold submitted
  induction d, fragments using feed_induction with
  | nil d => rfl
  | rejected d fragment rest e d' h ih =>
    rw [log_cons_of_rejected h, List.map_cons, answers_cons h, ← ih]
  | last d fragment rest d' h hd' =>
    rw [log_cons_of_last h hd', List.map_cons, answers_cons h]
    rfl
  | accepted d fragment rest d' h hd' ih =>
    rw [log_cons_of_accepted h hd', List.map_cons, answers_cons h, ← ih]

/-- A session leaves the decoder as feeding it the submitted fragments does. -/
theorem snd_feedFrom_eq_stateAfter (n : Nat) (d : σ) (fragments : List Fragment) :
    (feedFrom n d fragments).2 = stateAfter d (submitted d fragments) := by
  unfold submitted
  induction d, fragments using feed_induction generalizing n with
  | nil d => rfl
  | rejected d fragment rest e d' h ih =>
    rw [feedFrom_cons_of_rejected h, log_cons_of_rejected h, List.map_cons, stateAfter_cons h, ih]
  | last d fragment rest d' h hd' =>
    rw [feedFrom_cons_of_last h hd', log_cons_of_last h hd', List.map_cons, stateAfter_cons h]
    rfl
  | accepted d fragment rest d' h hd' ih =>
    rw [feedFrom_cons_of_accepted h hd', log_cons_of_accepted h hd', List.map_cons,
      stateAfter_cons h, ih]

/-- What counts as consumed is what the log says was accepted. -/
theorem consumed_runWith (d : σ) (fragments : List Fragment) :
    (runWith d fragments).consumed = (log d fragments).countP fun entry => entry.2.isOk := by
  have hcount : (feedFrom 0 d fragments).1 = (accepted d fragments).length :=
    (fst_feedFrom 0 d fragments).trans (Nat.zero_add _)
  rw [accepted, List.length_map, ← List.countP_eq_length_filter] at hcount
  exact hcount

theorem finalPayload?_isSome (d : σ) :
    (finalPayload? d).isSome = true ↔
      isComplete d = true ∧ isSuccessful d = true ∧ ∃ payload, payload? d = some payload := by
  rw [finalPayload?, ← Option.isSome_iff_exists]
  cases isComplete d <;> cases isSuccessful d <;> simp

/-- Writing down what a decoder is asked and answers leaves the session as it is. -/
theorem runWith_recorder (d : σ) (fragments : List Fragment) :
    runWith (⟨d, []⟩ : Recorder σ ε) fragments = runWith d fragments := by
  have hfeed := feedFrom_recorder 0 d [] fragments
  rw [runWith, feed, hfeed]
  rfl

/-- What a session with any decoder does, and what it observes. Every fragment it submits, with the
answer, is in the log of a recorder, which does not change the session. -/
theorem runWith_contract (d : σ) (fragments : List Fragment) :
    let session := runWith d fragments
    let final := stateAfter d (submitted d fragments)
    (runWith (⟨d, []⟩ : Recorder σ ε) fragments = session ∧
        log d fragments = answers d (submitted d fragments)) ∧
      (submitted d fragments <+: fragments ∧ IsShortest d fragments (submitted d fragments)) ∧
      (session.available = fragments.length ∧
        session.consumed = ((log d fragments).countP fun entry => entry.2.isOk) ∧
        session.consumed ≤ session.available) ∧
      session.completed = isComplete final ∧
      (session.succeeded = true ↔
        isComplete final = true ∧ isSuccessful final = true ∧ ∃ payload, payload? final = some payload) ∧
      session.payload = (if session.succeeded then payload? final else none) ∧
      session.detail = if session.succeeded then none else statusDetail? final := by
  intro session final
  have hfinal : (feed d fragments).2 = final := snd_feedFrom_eq_stateAfter 0 d fragments
  have hpayload : session.payload = finalPayload? final := congrArg finalPayload? hfinal
  have hsucceeded : session.succeeded = (finalPayload? final).isSome := congrArg Option.isSome hpayload
  have hsubmitted := isPrefix_map_fst_log d fragments
  have hconsumed := consumed_runWith d fragments
  refine ⟨⟨runWith_recorder d fragments, log_eq_answers d fragments⟩,
    ⟨hsubmitted, submitted_shortest d fragments⟩, ⟨rfl, hconsumed, ?_⟩, congrArg isComplete hfinal,
    ?_, ?_, ?_⟩
  · calc session.consumed
        _ ≤ (log d fragments).length := hconsumed ▸ List.countP_le_length
        _ = ((log d fragments).map Prod.fst).length := (List.length_map _).symm
        _ ≤ fragments.length := hsubmitted.length_le
  · rw [hsucceeded]
    exact finalPayload?_isSome final
  · rw [hsucceeded, hpayload]
    cases h : (finalPayload? final).isSome with
    | false => simpa using h
    | true =>
      obtain ⟨hcomplete, hsuccessful, -⟩ := (finalPayload?_isSome final).1 h
      rw [finalPayload?, hcomplete, hsuccessful]
      rfl
  · have hdetail : session.detail =
        if (finalPayload? final).isNone then statusDetail? final else none := by
      rw [← hpayload, ← hfinal]
      rfl
    rw [hdetail, hsucceeded]
    cases finalPayload? final <;> rfl

/-! ### Submissions to a complete decoder -/

/-- A fragment is submitted to a decoder that is complete only if it is the first one, or if the one before
it was rejected. -/
theorem first_or_rejected_before (d : σ) (fragments : List Fragment)
    (before rest : List (Fragment × Except ε Unit)) (entry : Fragment × Except ε Unit)
    (hlog : log d fragments = before ++ entry :: rest)
    (hcomplete : isComplete (stateAfter d (before.map Prod.fst)) = true) :
    before = [] ∨ ∃ earlier rejected e, before = earlier ++ [(rejected, .error e)] := by
  induction d, fragments using feed_induction generalizing before with
  | nil d => exact absurd hlog.symm (by simp [log, feed, feedFrom])
  | rejected d fragment rest' e d' h ih =>
    rw [log_cons_of_rejected h] at hlog
    rcases List.cons_eq_append_iff.1 hlog with ⟨rfl, -⟩ | ⟨later, rfl, hlater⟩
    · exact .inl rfl
    · rw [List.map_cons, stateAfter_cons h] at hcomplete
      rcases ih later hlater hcomplete with rfl | ⟨earlier, rejected, e', rfl⟩
      · exact .inr ⟨[], fragment, e, rfl⟩
      · exact .inr ⟨(fragment, .error e) :: earlier, rejected, e', rfl⟩
  | last d fragment rest' d' h hd' =>
    rw [log_cons_of_last h hd'] at hlog
    rcases List.cons_eq_append_iff.1 hlog with ⟨rfl, -⟩ | ⟨later, rfl, hlater⟩
    · exact .inl rfl
    · exact absurd hlater.symm (by simp)
  | accepted d fragment rest' d' h hd' ih =>
    rw [log_cons_of_accepted h hd'] at hlog
    rcases List.cons_eq_append_iff.1 hlog with ⟨rfl, -⟩ | ⟨later, rfl, hlater⟩
    · exact .inl rfl
    · rw [List.map_cons, stateAfter_cons h] at hcomplete
      rcases ih later hlater hcomplete with rfl | ⟨earlier, rejected, e, rfl⟩
      · -- The decoder was asked after the accepted fragment, and was not complete.
        have hcontra : isComplete d' = true := hcomplete
        rw [hd'] at hcontra
        exact absurd hcontra Bool.false_ne_true
      · exact .inr ⟨(fragment, .ok ()) :: earlier, rejected, e, rfl⟩

/-- A decoder that needs no fragment is complete from the start. It rejects the first fragment and stays
complete, so it is fed the second one, too. -/
theorem first_or_rejected_before_none_needed :
    let junk : Fragment := ⟨['u', 'r', ':', '?']⟩
    let fragment : Fragment := ⟨['u', 'r', ':', 'a', '/', 'b']⟩
    let d : ScriptedDecoder := { script := ⟨0, [junk], true, some [0x2a], none⟩ }
    let before : List (Fragment × Except ScriptedRejection Unit) := [(junk, .error .onScript)]
    log d [junk, fragment] = before ++ (fragment, .ok ()) :: [] ∧
      isComplete (stateAfter d (before.map Prod.fst)) = true ∧
      (before = [] ∨ ∃ earlier rejected e, before = earlier ++ [(rejected, .error e)]) := by
  intro junk fragment d before
  have hlog : log d [junk, fragment] = before ++ (fragment, .ok ()) :: [] := rfl
  have hcomplete : isComplete (stateAfter d (before.map Prod.fst)) = true := rfl
  exact ⟨hlog, hcomplete, first_or_rejected_before d [junk, fragment] before [] _ hlog hcomplete⟩

/-- Not every decoder that is fed a fragment is incomplete then. -/
theorem fed_when_complete :
    ¬∀ (d : ScriptedDecoder) (fragments : List Fragment)
        (before rest : List (Fragment × Except ScriptedRejection Unit))
        (entry : Fragment × Except ScriptedRejection Unit),
      log d fragments = before ++ entry :: rest →
        isComplete (stateAfter d (before.map Prod.fst)) = false := by
  intro hall
  have hstart := hall { script := ⟨0, [], true, some [0x2a], none⟩ }
    [⟨['u', 'r', ':', 'a', '/', 'b']⟩] [] [] (⟨['u', 'r', ':', 'a', '/', 'b']⟩, .ok ()) rfl
  exact absurd hstart (by decide)

end UrReplay.Session
