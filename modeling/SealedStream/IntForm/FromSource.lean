import SealedStream.IntForm.Codec
import SealedStream.Source

/-!
# Integers from a source

A source that has ended before the first byte of a number holds no number,
which is no error: a stream of frames may end there.  A source that ends later
has been cut.
-/

namespace SealedStream

/-- Read the bytes of a varint one at a time, at most `k` more of them. -/
def Varint.fromSource :
    (k : Nat) → Varint.Partial → Source → Except Failure (Option Nat) × Source
  | 0, _, s => (.error .ciphertextInvalid, s)
  | k + 1, p, s =>
      match s.gather 1 with
      | (.error e, s') => (.error (.io e), s')
      | (.ok [], s') =>
          (if p.count = 0 then .ok none else .error .streamTruncated, s')
      | (.ok (b :: _), s') =>
          match p.push b with
          | .more q => fromSource k q s'
          | .done value => (.ok (some value), s')
          | .malformed => (.error .ciphertextInvalid, s')

/-- Read a big-endian number of a fixed width. -/
def IntForm.fixedFromSource (width : Nat) (s : Source) :
    Except Failure (Option Nat) × Source :=
  match s.gather width with
  | (.error e, s') => (.error (.io e), s')
  | (.ok bs, s') =>
      if bs.isEmpty then (.ok none, s')
      else if bs.length < width then (.error .streamTruncated, s')
      else (.ok (some (Bytes.toNatBE bs)), s')

/-- Read one number, or `none` where the source has already ended. -/
def IntForm.fromSource (f : IntForm) (s : Source) :
    Except Failure (Option Nat) × Source :=
  match f with
  | .varint => Varint.fromSource Varint.maxWidth .start s
  | _ => fixedFromSource f.maxWidth s

end SealedStream
