import UrReplay.Resource.InPlace
import UrReplay.Session.Basic
/-!
# UrReplay.Session.Resource

Sessions with the decoder of uniform resources.
-/

namespace UrReplay

/-- A fragment was rejected by the decoder of resources. -/
def Resource.ReceiveError.rejectionMessage (e : ReceiveError) : String :=
  "fragment rejected: " ++ e.message

/-- The decoder of resources takes the text of a fragment, in place. -/
instance : FragmentDecoder Resource.Decoder Resource.ReceiveError where
  submit d fragment := ((Resource.Decoder.receiveInPlace fragment.text).run.run d).run
  isComplete := Resource.Decoder.isComplete
  isSuccessful := Resource.Decoder.isSuccessful
  payload? := Resource.Decoder.message?
  statusDetail? := Resource.Decoder.status?

end UrReplay
