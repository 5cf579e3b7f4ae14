import UrReplay.Fountain.InPlace
import UrReplay.Proofs.Fountain.Run
import UrReplay.Proofs.InPlace
/-!
# UrReplay.Proofs.Fountain.Atomicity

A part is received in place as a whole or not at all (`atomic_receiveInPlace`): everything that can
refuse it is judged before the first change, so a refused part leaves the decoder as it was. Parts that
are offered in place lead a decoder through the states that `receive` gives (`offerAll_eq`), so what is
known of those holds in place: when a part is accepted, and that nothing changes after the end
(`receiveInPlace_atomic_frozen`).
-/

namespace UrReplay.Fountain.Decoder

/-- Joining a transfer in place is refused before it changes anything. -/
theorem run_join (part : Part) (d : Decoder) :
    (join part).run.run d =
      match d.transferFor part with
      | .error refusal => (.error (.refused refusal), d)
      | .ok t => (.ok t, { d with transfer := some t }) := by
  unfold join transferFor
  cases part.flaw? with
  | some refusal => rfl
  | none =>
      dsimp only
      rw [run_get_bind]
      cases htransfer : d.transfer with
      | none => rfl
      | some t =>
          dsimp only
          cases t.difference? part.transfer with
          | some parameter => rfl
          | none =>
              -- The transfer in progress stays the one that it is.
              show (Except.ok t, d) = (Except.ok t, { d with transfer := some t })
              rw [← htransfer]

/-- In place, a part does what it does to a decoder that is given and returned. A transfer that has ended
has parameters, so that joining it changes nothing. Only a panic comes after a change: the part has joined
its transfer. -/
theorem run_receiveInPlace (part : Part) {d : Decoder}
    (hd : d.isComplete = true → d.transfer ≠ none) :
    (receiveInPlace part).run.run d =
      match d.receive part with
      | .ok d' => (.ok (), d')
      | .error (.refused refusal) => (.error (.refused refusal), d)
      | .error .panicked => (.error .panicked, { d with transfer := some part.transfer }) := by
  unfold receiveInPlace receive
  rw [ExceptT.run_bind, StateT.run_bind, run_join]
  cases htransfer : d.transferFor part with
  | error refusal => rfl
  | ok t =>
      obtain ⟨-, rfl, hagree⟩ := transferFor_eq_ok_iff.1 htransfer
      cases hcomplete : d.isComplete with
      | true =>
          have hjoined : ({ d with transfer := some part.transfer } : Decoder) = d := by
            rw [← hagree.resolve_left (hd hcomplete)]
          show (if ({ d with transfer := some part.transfer } : Decoder).isComplete then _ else _ :
            Action Unit).run.run { d with transfer := some part.transfer } = _
          rw [hjoined, hcomplete]
          rfl
      | false =>
          have hrunning : ({ d with transfer := some part.transfer } : Decoder).isComplete = false :=
            hcomplete
          show (if ({ d with transfer := some part.transfer } : Decoder).isComplete then _ else _ :
            Action Unit).run.run { d with transfer := some part.transfer } = _
          dsimp only
          rw [hrunning, if_neg Bool.false_ne_true, if_neg Bool.false_ne_true, ExceptT.run_bind,
            StateT.run_bind, choose]
          cases part.mix? with
          | none => rfl
          | some m =>
              -- The part is counted after the loop, which leaves the count alone.
              let settled := ({ d with
                transfer := some part.transfer, queue := d.queue ++ [m] } : Decoder).settle
                  part.transfer
              have hcount : settled.received = d.received := received_settle part.transfer _
              show (Except.ok (), { settled with received := settled.received + 1 }) =
                (Except.ok (), d.accept part.transfer m)
              rw [hcount]
              rfl

/-- Receiving is atomic unless it panics. -/
theorem atomic_receiveInPlace {part : Part} {d : Decoder}
    (hd : d.isComplete = true → d.transfer ≠ none) (hpart : d.receive part ≠ .error .panicked) :
    Atomic (receiveInPlace part) d (d.receive part) := by
  unfold Atomic
  rw [run_receiveInPlace part hd]
  cases hreceive : d.receive part with
  | ok d' => rfl
  | error halt =>
      cases halt with
      | refused refusal => rfl
      | panicked => exact absurd hreceive hpart

/-- A part is accepted in place if it is accepted. -/
theorem fst_run_receiveInPlace_eq_ok_iff {part : Part} {d : Decoder}
    (hd : d.isComplete = true → d.transfer ≠ none) :
    ((receiveInPlace part).run.run d).1 = .ok () ↔ ∃ d', d.receive part = .ok d' := by
  rw [run_receiveInPlace part hd]
  split <;> simp_all

/-! ### Many parts -/

/-- Offers parts one after another in place. Gives those that are accepted, and the decoder after all of
them. No run goes on after a panic, so a part that panics is passed over. -/
def offerAll (d : Decoder) : List Part → List Part × Decoder
  | [] => ([], d)
  | part :: parts =>
    match (receiveInPlace part).run.run d with
    | (.ok (), d') => (part :: (d'.offerAll parts).1, (d'.offerAll parts).2)
    | (.error (.refused _), d') => d'.offerAll parts
    | (.error .panicked, _) => d.offerAll parts

/-- Offered parts in place, a decoder goes through the same states. -/
theorem offerAll_eq {d : Decoder} (hd : d.isComplete = true → d.transfer ≠ none)
    (parts : List Part) : d.offerAll parts = (d.accepted parts, d.receiveAll parts) := by
  induction parts generalizing d with
  | nil => rfl
  | cons part parts ih =>
    rw [offerAll, accepted, receiveAll, run_receiveInPlace part hd]
    cases hreceive : d.receive part with
    | error halt =>
        cases halt with
        | refused refusal => exact ih hd
        | panicked => exact ih hd
    | ok d' =>
        have htransfer := transfer_receive hreceive hd
        have hd' : d'.isComplete = true → d'.transfer ≠ none := fun _ => by
          rw [htransfer]
          exact Option.some_ne_none _
        dsimp only
        rw [ih hd']

/-- The transfer in progress admits the parts that agree with the first accepted one. -/
theorem transfer_receiveAll_iff (parts : List Part) (part : Part) :
    ((empty.receiveAll parts).transfer = none ∨
        (empty.receiveAll parts).transfer = some part.transfer) ↔
      ∀ first ∈ (empty.accepted parts).head?, part.transfer = first.transfer := by
  rw [transfer_receiveAll]
  cases (empty.accepted parts).head? with
  | none => simp
  | some first => simp [eq_comm]

/-- Receiving in place is atomic, and what has ended is frozen. After any parts, a refused part leaves the
whole decoder as it was, that is also a fresh one, and only a part of an empty message can panic; once the
transfer has ended, no part changes anything, be it accepted or not; and a part is accepted exactly when
it is in order and agrees with the first accepted part, if there is one, in all parameters of the transfer,
and has number zero if it is of no fragments. -/
theorem receiveInPlace_atomic_frozen (parts : List Part) (part : Part) :
    let d := (empty.offerAll parts).2
    let answer := ((receiveInPlace part).run.run d).1
    let d' := ((receiveInPlace part).run.run d).2
    (∀ halt, answer = .error halt → d' = d ∨ halt = .panicked ∧ part.messageLen = 0) ∧
      (d.isComplete = true → d' = d) ∧
      (answer = .ok () ↔
        (part.data ≠ [] ∧ part.seqLen = part.messageLen ⌈/⌉ part.data.length ∧
            part.seqLen ≤ 65536) ∧
          (∀ first ∈ (empty.offerAll parts).1.head?,
            part.seqLen = first.seqLen ∧ part.messageLen = first.messageLen ∧
              part.checksum = first.checksum ∧ part.data.length = first.data.length) ∧
          (part.seqLen = 0 → part.seqNum = 0)) := by
  have hfresh : empty.isComplete = true → empty.transfer ≠ none := fun h => Bool.noConfusion h
  rw [offerAll_eq hfresh parts]
  have hended := transfer_ne_none_of_isComplete parts
  have hatomic (hpart : (empty.receiveAll parts).receive part ≠ .error .panicked) :
      Atomic (receiveInPlace part) (empty.receiveAll parts) ((empty.receiveAll parts).receive part) :=
    atomic_receiveInPlace hended hpart
  refine ⟨?_, ?_, ?_⟩
  · intro halt hanswer
    by_cases hpanic : (empty.receiveAll parts).receive part = .error .panicked
    · rw [run_receiveInPlace part hended, hpanic] at hanswer
      obtain ⟨hflaw, -, -, hlen, -⟩ := receive_eq_panicked_iff.1 hpanic
      exact .inr ⟨(Except.error.inj hanswer).symm, (Part.seqLen_eq_zero_iff hflaw).1 hlen⟩
    · exact .inl ((hatomic hpanic).eq_of_error (Prod.ext hanswer rfl)).1
  · intro hcomplete
    have hreceive : (empty.receiveAll parts).receive part ≠ .error .panicked := fun hpanic => by
      obtain ⟨-, -, hrunning, -⟩ := receive_eq_panicked_iff.1 hpanic
      rw [hcomplete] at hrunning
      exact absurd hrunning.symm Bool.false_ne_true
    cases hanswer : ((receiveInPlace part).run.run (empty.receiveAll parts)).1 with
    | error halt => exact ((hatomic hreceive).eq_of_error (Prod.ext hanswer rfl)).1
    | ok u =>
        have haccepted := (hatomic hreceive).eq_of_ok (Prod.ext hanswer rfl)
        obtain ⟨-, -, hsame, -⟩ := receive_eq_ok_iff.1 haccepted
        exact hsame.trans (if_pos hcomplete)
  · rw [fst_run_receiveInPlace_eq_ok_iff hended, exists_receive_eq_ok_iff, transfer_receiveAll_iff,
      Part.flaw?_eq_none_iff, Nat.ceilDiv_eq_add_pred_div]
    simp only [Part.transfer, Transfer.mk.injEq]
    rfl

end UrReplay.Fountain.Decoder
