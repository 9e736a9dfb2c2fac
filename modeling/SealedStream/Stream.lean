import SealedStream.Key
import SealedStream.Reader
import SealedStream.Writer

/-!
# Streams under a key

The nonce mode of a stream is the one that its layout asks for.
-/

namespace SealedStream

/-- A writer that seals under a key. -/
def Writer.underKey {ρ : Type} (sink : Sink) (key : Key) (layout : Layout)
    (entropy : Entropy ρ) (source : ρ) : Except Failure (Writer (SealState ρ)) :=
  Writer.start sink (key.sealer layout.nonceMode entropy)
    (key.sealState layout.nonceMode source) layout

/-- A reader that opens under a key.  The size of a full chunk stands in a
machine word, as it does in every configuration that is read from a file. -/
def Reader.underKey (source : Source) (key : Key) (layout : Layout) :
    Except Failure (Reader OpenState) :=
  Reader.start source (key.opener layout.nonceMode) (key.openState layout.nonceMode)
    layout

end SealedStream
