/-
The bounded reader of `bounded.rs`.

A reader is a byte slice and a position inside it, and the position is inside by the
type: no later proof asks whether a reader is well formed.  A function that takes
`&mut BoundedReader` is a state transformer over it, and since a failed read ends the
parse, the reader is lost with the error.
-/
import Un7z.ParseUtil

namespace Un7z

structure BoundedReader where
  bytes : Bytes
  position : Nat
  position_le : position ≤ bytes.length
  deriving DecidableEq

/-- A function of the source that takes `&mut BoundedReader` and the control. -/
abbrev Reads := StateT BoundedReader Work

namespace BoundedReader

def new (bytes : Bytes) : BoundedReader := ⟨bytes, 0, Nat.zero_le _⟩

/-- The bytes that are still to be read. -/
def remaining (reader : BoundedReader) : Bytes := reader.bytes.drop reader.position

@[simp] theorem remaining_new (bytes : Bytes) : (new bytes).remaining = bytes := rfl

theorem length_remaining (reader : BoundedReader) :
    reader.remaining.length = reader.bytes.length - reader.position :=
  List.length_drop

end BoundedReader

/-! ### Little-endian values -/

/-- The value of a little-endian byte string. -/
def leValue : Bytes → Nat
  | [] => 0
  | byte :: rest => byte.toNat + 256 * leValue rest

theorem leValue_lt : ∀ bytes : Bytes, leValue bytes < 256 ^ bytes.length := by
  intro bytes
  induction bytes with
  | nil => exact Nat.one_pos
  | cons byte rest ih =>
      have hbyte : byte.toNat < 256 := UInt8.toNat_lt byte
      rw [leValue, List.length_cons, Nat.pow_succ]
      omega

/-! ### Reading -/

def readBytes (length : Nat) : Reads Bytes := fun reader =>
  match checkedAdd 64 reader.position length with
  | none => formatErr "byte range end overflows this platform"
  | some stop =>
      if h : stop ≤ reader.bytes.length then
        pure (reader.remaining.take length, ⟨reader.bytes, stop, h⟩)
      else
        formatErr "truncated bounded byte range"

def readU8 : Reads UInt8 := do
  match (← readBytes 1).head? with
  | some byte => pure byte
  | none => formatErr "truncated byte value"

def readU32Le : Reads UInt32 := do
  let bytes ← readBytes 4
  if bytes.length = 4 then
    pure (UInt32.ofNat (leValue bytes))
  else
    formatErr "truncated little-endian u32"

def readU64Le : Reads Nat := do
  let bytes ← readBytes 8
  if bytes.length = 8 then
    pure (leValue bytes)
  else
    formatErr "truncated little-endian u64"

/-- The loop of `read_7z_uint`: a leading one of `first` is one more byte of the value. -/
def read7zUintFrom (first : Nat) : List Nat → Nat → Nat → Reads Nat
  | [], _, value => pure value
  | shift :: shifts, mask, value =>
      if first &&& mask = 0 then
        match checkedSub mask 1 with
        | some lowMask => pure (value ||| (first &&& lowMask) <<< shift)
        | none => do formatErr "7z integer mask underflows"
      else do
        let byte ← readU8
        read7zUintFrom first shifts (mask >>> 1) (value ||| byte.toNat <<< shift)

def read7zUint : Reads Nat := do
  let first ← readU8
  read7zUintFrom first.toNat [0, 8, 16, 24, 32, 40, 48, 56] 0x80 0

def finish (reader : BoundedReader) (unconsumedDetail : String) : Work Unit :=
  if reader.position = reader.bytes.length then
    pure ()
  else
    formatErr unconsumedDetail

/-- `BoundedReader::parse_exact`: parse a sub-slice and insist that it is used up. -/
def parseExact {α : Type} (length : Nat) (unconsumedDetail : String) (parse : Reads α) :
    Reads α := do
  let bytes ← readBytes length
  let (value, child) ← parse.run (BoundedReader.new bytes)
  finish child unconsumedDetail
  pure value

end Un7z
