import SealedStream.Cipher.ChaCha20
import SealedStream.Cipher.Gcm
import SealedStream.Cipher.Poly1305
import SealedStream.Suite

/-!
# Authenticated encryption under a nonce

An `Aead` is a cipher with its key built in.  Sealing may fail, and opening
fails unless the text was sealed under the same key and nonce.

The ciphers here are all made in one way by `Aead.ofStream`: the text is masked
with a keystream and a tag over the ciphertext is put behind it.  Opening such
a text checks the tag before it takes the mask off.  No associated data is
used.
-/

namespace SealedStream

/-- A cipher with its key. -/
structure Aead where
  nonceSize : Nat
  sealText : (nonce text : Bytes) → Option Bytes
  openText : (nonce sealed : Bytes) → Option Bytes

namespace Aead

/-- Bytes of a tag. -/
def tagSize : Nat := 16

/-- Mask a text with a keystream and put a tag over the ciphertext behind it. -/
def maskAndTag (keystream : (nonce : Bytes) → Nat → Bytes)
    (tag : (nonce text : Bytes) → Bytes) (nonce text : Bytes) : Bytes :=
  let masked := Bytes.xor text (keystream nonce text.length)
  masked ++ tag nonce masked

/-- Check the tag at the end and take the mask off the rest. -/
def checkAndUnmask (keystream : (nonce : Bytes) → Nat → Bytes)
    (tag : (nonce text : Bytes) → Bytes) (nonce sealed : Bytes) :
    Option Bytes :=
  let n := sealed.length - tagSize
  let masked := sealed.take n
  if tagSize ≤ sealed.length ∧ sealed.drop n = tag nonce masked then
    some (Bytes.xor masked (keystream nonce n))
  else none

/-- The cipher of a keystream and a tag; the keystream is asked for at least
so many bytes. -/
def ofStream (nonceSize : Nat) (keystream : (nonce : Bytes) → Nat → Bytes)
    (tag : (nonce text : Bytes) → Bytes) : Aead where
  nonceSize := nonceSize
  sealText nonce text := some (maskAndTag keystream tag nonce text)
  openText nonce sealed := checkAndUnmask keystream tag nonce sealed

/-- The message that a Poly1305 tag covers: the ciphertext filled up to whole
pieces, and the lengths of the associated data, none, and of the ciphertext. -/
def polyMessage (text : Bytes) : Bytes :=
  text ++ Bytes.padding 16 text ++ Bytes.ofNatLE 8 0 ++
    Bytes.ofNatLE 8 text.length

/-- ChaCha20 with Poly1305; block zero of the keystream is the key of the tag. -/
def chacha20Poly1305 (key : Bytes) : Aead :=
  ofStream 12
    (fun nonce n => ChaCha20.keystream key nonce 1 ((n + 63) / 64))
    (fun nonce text =>
      Poly1305.tag (ChaCha20.keystream key nonce 0 1) (polyMessage text))

/-- The cipher for the last eight bytes of an extended nonce. -/
def extendedNonce (key nonce : Bytes) : Aead :=
  chacha20Poly1305 (ChaCha20.subkey key (nonce.take 16))

/-- What is left of an extended nonce once the subkey is made. -/
def shortNonce (nonce : Bytes) : Bytes :=
  Bytes.zeros 4 ++ nonce.drop 16

/-- ChaCha20 with Poly1305 under nonces of 24 bytes. -/
def xchacha20Poly1305 (key : Bytes) : Aead where
  nonceSize := 24
  sealText nonce text :=
    (extendedNonce key nonce).sealText (shortNonce nonce) text
  openText nonce sealed :=
    (extendedNonce key nonce).openText (shortNonce nonce) sealed

/-- AES in Galois counter mode, under a key of 16 or 32 bytes. -/
def aesGcm (key : Bytes) : Aead :=
  let keys := Aes.Schedule.ofKey key
  let h := Gcm.Element.ofBytes
    (Aes.encrypt keys (.ofBytes (Bytes.zeros 16))).bytes
  ofStream 12
    (fun nonce n => Gcm.keystream keys nonce ((n + 15) / 16))
    (fun nonce text => Gcm.tag keys h nonce text)

end Aead

/-- The cipher of a suite under a key of its size. -/
def Suite.aead (suite : Suite) (key : Bytes) : Aead :=
  match suite with
  | .chacha20Poly1305 => .chacha20Poly1305 key
  | .xchacha20Poly1305 => .xchacha20Poly1305 key
  | .aes128Gcm | .aes256Gcm => .aesGcm key

end SealedStream
