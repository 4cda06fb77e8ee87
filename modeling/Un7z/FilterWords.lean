/-
The helpers of the in-place filters, which `decode/filters.rs` and
`decode/phase5_filters.rs` each have in a copy of their own.

A filter rewrites a byte slice in place, so it takes the bytes and returns the bytes.  A
`usize` is a `Nat` and its arithmetic is checked; instruction words are `UInt32`s,
because the filters compute with them modulo `2 ^ 32`.  Two copies of a helper differ in
the texts of their errors, and the text that differs is an argument here.
-/
import Un7z.Bounded

namespace Un7z

namespace Filters

/-- A filter of the source on the bytes it is given. -/
abbrev InPlace := Bytes → Work Bytes

def startingPosition (properties : Bytes) : Work UInt32 :=
  if properties.isEmpty then
    pure 0
  else if properties.length = 4 then
    pure (UInt32.ofNat (leValue properties))
  else
    formatErr "branch filter properties must be empty or four bytes"

/-- `bytes.get(offset..end)` for `end = offset.checked_add(length)`. -/
def readSlice (overflows truncated : String) (length : Nat) (bytes : Bytes) (offset : Nat) :
    Work Bytes := do
  let stop ← orFormat (checkedAdd 64 offset length) overflows
  if stop ≤ bytes.length then
    pure ((bytes.drop offset).take length)
  else
    formatErr truncated

/-- `bytes.get_mut(offset..end)` overwritten with a word of its length. -/
def writeSlice (overflows truncated : String) (bytes : Bytes) (offset : Nat) (word : Bytes) :
    Work Bytes := do
  let stop ← orFormat (checkedAdd 64 offset word.length) overflows
  if stop ≤ bytes.length then
    pure (bytes.take offset ++ word ++ bytes.drop stop)
  else
    formatErr truncated

/-- `bytes.get(index).copied()`. -/
def byteAt (bytes : Bytes) (index : Nat) (detail : String) : Work UInt8 :=
  orFormat bytes[index]? detail

/-- `offset.checked_add(amount)`. -/
def addOffset (offset amount : Nat) (detail : String) : Work Nat :=
  orFormat (checkedAdd 64 offset amount) detail

/-- `u8::try_from` of a word. -/
def wordToByte (word : UInt32) (detail : String) : Work UInt8 :=
  if word < 256 then pure word.toUInt8 else formatErr detail

/-! ### Words and their bytes -/

def u32FromLe (word : Bytes) : UInt32 := UInt32.ofNat (leValue word)

def u32FromBe (word : Bytes) : UInt32 := UInt32.ofNat (leValue word.reverse)

def u32ToLe (word : UInt32) : Bytes :=
  [word.toUInt8, (word >>> 8).toUInt8, (word >>> 16).toUInt8, (word >>> 24).toUInt8]

def u32ToBe (word : UInt32) : Bytes := (u32ToLe word).reverse

end Filters

end Un7z
