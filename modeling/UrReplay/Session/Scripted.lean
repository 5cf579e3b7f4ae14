import UrReplay.Session.Basic
/-!
# UrReplay.Session.Scripted

A decoder that follows a script, to rehearse sessions. It rejects the fragments that the script
names, is complete once it has accepted as many others as the script asks for, answers all else with
what the script says, and remembers what was submitted to it.
-/

namespace UrReplay

/-- What a scripted decoder does. -/
structure Script where
  /-- How many fragments it accepts until it is complete. -/
  needed : Nat
  /-- The fragments that it rejects. -/
  rejects : List Fragment
  successful : Bool
  payload : Option Bytes
  detail : Option String

/-- A decoder that follows a script. -/
structure ScriptedDecoder where
  script : Script
  accepted : Nat := 0
  /-- Every submitted fragment, the last one first. -/
  submitted : List Fragment := []

/-- The fragment is one that the script rejects. -/
inductive ScriptedRejection
  | onScript
  deriving Repr, DecidableEq

instance : FragmentDecoder ScriptedDecoder ScriptedRejection where
  submit d fragment :=
    let d := { d with submitted := fragment :: d.submitted }
    if fragment ∈ d.script.rejects then (.error .onScript, d)
    else (.ok (), { d with accepted := d.accepted + 1 })
  isComplete d := d.script.needed ≤ d.accepted
  isSuccessful d := d.script.successful
  payload? d := d.script.payload
  statusDetail? d := d.script.detail

end UrReplay
