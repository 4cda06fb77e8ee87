/-
The coder-property records of `coder_properties.rs` and the checks `validate.rs`
makes of them.
-/
import Un7z.Bounded

namespace Un7z

open Metered (fail)

def methodLzma : Bytes := [0x03, 0x01, 0x01]
def methodLzma2 : Bytes := [0x21]
def methodPpmd : Bytes := [0x03, 0x04, 0x01]
def methodDeflate64 : Bytes := [0x04, 0x01, 0x09]
def methodAes : Bytes := [0x06, 0xf1, 0x07, 0x01]
def deflate64DictionaryBytes : Nat := 64 * 1024

def ppmdMinimumMemoryBytes : Nat := 1 <<< 11
def ppmdMinimumOrder : Nat := 2
def ppmdMaximumOrder : Nat := 64

structure PpmdProperties where
  order : Nat
  memorySize : Nat
  deriving DecidableEq, Repr

/-- The five canonical bytes, out of five or of seven with two reserved zeros. -/
def canonicalPpmdProperties (properties : Bytes) : Except Error Bytes :=
  if properties.length = 5 then
    .ok properties
  else if properties.length = 7 then
    if properties.drop 5 ≠ [0, 0] then
      .error (formatError "PPMd reserved properties must be zero")
    else
      .ok (properties.take 5)
  else
    .error (formatError
      "PPMd properties must contain exactly five bytes, or seven bytes with two zero reserved bytes")

def parsePpmdProperties (properties : Bytes) : Except Error PpmdProperties :=
  match canonicalPpmdProperties properties with
  | .error e => .error e
  | .ok [order, m₀, m₁, m₂, m₃] =>
      let memorySize := leValue [m₀, m₁, m₂, m₃]
      if ¬ (ppmdMinimumOrder ≤ order.toNat ∧ order.toNat ≤ ppmdMaximumOrder) then
        .error (formatError "PPMd order is outside 2 through 64")
      else if memorySize < ppmdMinimumMemoryBytes then
        .error (formatError "PPMd memory size is below the format minimum")
      else
        .ok ⟨order.toNat, memorySize⟩
  | .ok _ => .error (formatError "PPMd canonical properties have the wrong length")

/-! ### The checks of `validate_coder_properties` -/

/-- The dictionary an LZMA property record declares. -/
def lzmaDictionary (properties : Bytes) : Except Error Nat :=
  match properties with
  | [parameter, d₀, d₁, d₂, d₃] =>
      let lc := parameter.toNat % 9
      let lp := parameter.toNat / 9 % 5
      let pb := parameter.toNat / 9 / 5
      if pb > 4 ∨ lc + lp > 4 then
        .error (formatError "invalid LZMA lc/lp/pb properties")
      else
        .ok (leValue [d₀, d₁, d₂, d₃])
  | _ => .error (formatError "LZMA properties must contain exactly five bytes")

def lzma2Dictionary (properties : Bytes) : Except Error Nat :=
  match properties with
  | [property] =>
      if property.toNat > 40 then
        .error (formatError "invalid LZMA2 dictionary property")
      else
        .ok ((2 ||| (property.toNat &&& 1)) <<< (property.toNat / 2 + 11))
  | _ => .error (formatError "LZMA2 properties must contain exactly one byte")

def declaredDictionary (methodId properties : Bytes) : Except Error (Option Nat) :=
  if methodId = methodLzma then
    some <$> lzmaDictionary properties
  else if methodId = methodLzma2 then
    some <$> lzma2Dictionary properties
  else if methodId = methodPpmd then
    (fun p => some p.memorySize) <$> parsePpmdProperties properties
  else if methodId = methodDeflate64 then
    if properties ≠ [] then
      .error (formatError "Deflate64 properties must be empty")
    else
      .ok (some deflate64DictionaryBytes)
  else
    .ok none

/-- The salt, the IV and the key-derivation power of an AES property record. -/
def checkAesProperties (properties : Bytes) (limits : Limits) : Work Unit := do
  let (kdfPower, reader) ← StateT.run (m := Work) (s := BoundedReader.new properties) do
    let first ← readU8
    let second ← readU8
    let saltSize := ((first >>> 7) &&& 1).toNat + (second >>> 4).toNat
    let ivSize := ((first >>> 6) &&& 1).toNat + (second &&& 0x0f).toNat
    let _ ← readBytes (saltSize + ivSize)
    pure (first &&& 0x3f).toNat
  finish reader "AES properties were not consumed exactly"
  if kdfPower ≠ 0x3f ∧ kdfPower > limits.maxKdfPower then
    fail (.limitExceeded .kdfPower kdfPower limits.maxKdfPower)
  else
    pure ()

def validateCoderProperties (methodId properties : Bytes) (limits : Limits) :
    Work (Option Nat) := do
  let dictionary ← ofExcept (declaredDictionary methodId properties)
  if methodId = methodAes then
    checkAesProperties properties limits
  match dictionary with
  | some bytes => do
      checkLimit bytes limits.maxDictionaryBytes .dictionaryBytes
      pure (some bytes)
  | none => pure none

end Un7z
