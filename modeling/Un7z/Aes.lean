/-
AES: `decode/aes.rs`, and the `Password` of `password.rs`.

SHA-256 and AES in CBC mode come from crates, so a hasher and a decryptor are parameters, each
with a state of its own.  A block is sixteen bytes by its type, as in the source, and so is the
conversion that can fail.
-/
import Un7z.CoderProperties
import Un7z.Lz4
import Un7z.Path

namespace Un7z

open Metered (fail)
open Lz4 (sliceBetween)

/-- `Password::new`: the UTF-16 of a password, low bytes first. -/
def passwordBytes (password : String) : Bytes :=
  (encodeUtf16 password).flatMap fun (unit : UInt16) => [unit.toUInt8, (unit >>> 8).toUInt8]

namespace Aes

def blockBytes : Nat := 16
def keyBytes : Nat := 32
def directKdfPower : Nat := 0x3f

/-- `cipher::Block`. -/
abbrev Block : Type := {bytes : Bytes // bytes.length = blockBytes}

/-- `sha2::Sha256`, with its state `η`. -/
structure Hasher (η : Type) where
  new : η
  update : η → Bytes → η
  finalize : η → Bytes

/-- `cbc::Decryptor<Aes256>`, with its state `δ`; `new` is `new_from_slices`. -/
structure Decryptor (δ : Type) where
  new : (key iv : Bytes) → Option δ
  decryptBlock : δ → Block → Block × δ

structure AesProperties where
  kdfPower : Nat
  salt : Bytes
  iv : Bytes
  deriving DecidableEq, Repr

def parseProperties (properties : Bytes) (limits : Limits) : Work AesProperties := do
  let first ← orFormat properties[0]? "AES properties are missing the first byte"
  let second ← orFormat properties[1]? "AES properties are missing the second byte"
  let saltSize ← orFormat (checkedAdd 64 ((first >>> 7) &&& 1).toNat (second >>> 4).toNat)
    "AES salt size overflows"
  let ivSize ← orFormat (checkedAdd 64 ((first >>> 6) &&& 1).toNat (second &&& 0x0f).toNat)
    "AES IV size overflows"
  let saltStart := 2
  let saltEnd ← orFormat (checkedAdd 64 saltStart saltSize) "AES salt range overflows"
  let ivEnd ← orFormat (checkedAdd 64 saltEnd ivSize) "AES IV range overflows"
  if ivEnd ≠ properties.length then
    formatErr "AES properties were not consumed exactly"
  else do
    let salt ← orFormat (sliceBetween properties saltStart saltEnd) "AES salt range is truncated"
    let sourceIv ← orFormat (sliceBetween properties saltEnd ivEnd) "AES IV range is truncated"
    if ivSize > blockBytes then
      formatErr "AES IV is longer than one block"
    else
      let kdfPower := (first &&& 0x3f).toNat
      if kdfPower ≠ directKdfPower ∧ kdfPower > limits.maxKdfPower then
        fail (.limitExceeded .kdfPower kdfPower limits.maxKdfPower)
      else
        pure ⟨kdfPower, salt, sourceIv ++ List.replicate (blockBytes - ivSize) 0⟩

/-! ### The key -/

/-- The destination, and how much of it has been written. -/
def copyKeyMaterial (destination material : Bytes) (written : Nat) : Work (Bytes × Nat) :=
  if written ≥ destination.length ∨ material.isEmpty then
    pure (destination, written)
  else do
    let remaining ← orFormat (checkedSub destination.length written)
      "AES key position exceeds its buffer"
    let count := min remaining material.length
    let stop ← orFormat (checkedAdd 64 written count) "AES key position overflows"
    if stop > destination.length then
      formatErr "AES key destination range is invalid"
    else
      pure (destination.take written ++ material.take count ++ destination.drop stop, stop)

/-- `counter.to_le_bytes()`. -/
def counterBytes (counter : Nat) : Bytes := (List.range 8).map fun i => UInt8.ofNat (counter >>> (8 * i))

section Derivation

variable {η : Type} (hasher : Hasher η)

/-- The loop over the counters, `rounds` of them from `counter` on. -/
def hashRounds (salt password : Bytes) (roundWork : Nat) : (rounds counter : Nat) → η → Work η
  | 0, _, hash => pure hash
  | rounds + 1, counter, hash => do
      checkpoint roundWork
      hashRounds salt password roundWork rounds (counter + 1) (hasher.update
        (hasher.update (hasher.update hash salt) password) (counterBytes counter))

def deriveKey (properties : AesProperties) (password : Bytes) : Work Bytes :=
  if properties.kdfPower = directKdfPower then do
    let (key, written) ← copyKeyMaterial (List.replicate keyBytes 0) properties.salt 0
    let (key, written) ← copyKeyMaterial key password written
    checkpoint written
    pure key
  else do
    let rounds ← orFormat (checkedShl 64 1 properties.kdfPower) "AES KDF round count overflows"
    let sources ← orFormat (checkedAdd 64 properties.salt.length password.length)
      "AES KDF work accounting overflows"
    let roundWork ← orFormat (checkedAdd 64 sources 8) "AES KDF work accounting overflows"
    let hash ← hashRounds hasher properties.salt password roundWork rounds 0 hasher.new
    pure (hasher.finalize hash)

end Derivation

/-! ### Decryption -/

section Decryption

variable {η δ : Type} (hasher : Hasher η) (decryptor : Decryptor δ)

/-- The loop over the chunks of the input. -/
def decryptChunks : List Bytes → δ → Work Bytes
  | [], _ => pure []
  | chunk :: rest, state => do
      checkpoint blockBytes
      if h : chunk.length = blockBytes then do
        let (block, state) := decryptor.decryptBlock state ⟨chunk, h⟩
        let decrypted ← decryptChunks rest state
        pure (block.val ++ decrypted)
      else
        formatErr "AES block has the wrong length"

def decodeAes (input properties : Bytes) (expected : Option Nat) (maximum : Nat) (limits : Limits)
    (password : Option Bytes) : Work Bytes := do
  match password with
  | none => fail .passwordRequired
  | some password => do
      let properties ← parseProperties properties limits
      match expected with
      | none => fail (.unsupportedFeature "aes-unknown-unpacked-size")
      | some expected => do
          checkLimit expected maximum .totalOutputBytes
          if expected > input.length then
            formatErr "AES output size exceeds its encrypted input"
          else if input.length % blockBytes ≠ 0 then
            formatErr "AES encrypted input is not block aligned"
          else do
            let key ← deriveKey hasher properties password
            let state ← orFormat (decryptor.new key properties.iv) "AES key or IV length is invalid"
            let decrypted ← decryptChunks decryptor (chunks blockBytes input) state
            pure (decrypted.take expected)

end Decryption

end Aes

end Un7z
