/-
The CRC is the remainder of the whole string, bit by bit.

`Crc32::update` takes a byte at a time from a table of 256 entries, which two nested loops
fill.  An entry is what eight places make of its index, so the table and eight places of the
register agree for every state, by the linearity of the register; what remains is an
induction over the bytes, and one over the chunks.
-/
import Un7z.ParseUtil
import Un7z.Lib.ShiftRegister

namespace Un7z

open ShiftRegister
open BitString (lsb ofBytes)

/-- The bit-serial CRC of a string: the register starts with ones, takes the bits of the
string, the low bit of each byte first, and is complemented. -/
def serialCrc32 (bytes : Bytes) : UInt32 :=
  ~~~UInt32.ofBitVec (remainder 0xedb88320#32 (ofBytes bytes) (BitVec.allOnes 32))

/-- `crc32` of `tests/ppmd_compatibility.rs`. -/
def referenceCrc32 (bytes : Bytes) : UInt32 :=
  ~~~bytes.foldl (fun crc byte =>
    (List.range 8).foldl (fun crc _ => crc32Bit crc) (crc ^^^ byte.toUInt32)) 0xffffffff

/-! ### A place -/

theorem and_one_eq_zero_iff (value : UInt32) : value &&& 1 = 0 ↔ value.toBitVec.getLsbD 0 = false := by
  have hword : (value &&& 1).toBitVec = BitVec.setWidth 32 (BitVec.ofBool (value.toBitVec.getLsbD 0)) := by
    rw [UInt32.toBitVec_and]
    exact BitVec.and_one_eq_setWidth_ofBool_getLsbD
  rw [← UInt32.toBitVec_inj, hword]
  cases value.toBitVec.getLsbD 0 with
  | false => exact iff_of_true rfl rfl
  | true => exact iff_of_false (by decide) (by decide)

theorem crc32Bit_toBitVec (value : UInt32) :
    (crc32Bit value).toBitVec = shift 0xedb88320#32 value.toBitVec := by
  have hdown : (value >>> 1).toBitVec = value.toBitVec >>> 1 := by simp
  rw [crc32Bit, shift]
  by_cases hbit : value.toBitVec.getLsbD 0 = false
  · rw [if_pos ((and_one_eq_zero_iff value).mpr hbit), if_neg (by rw [hbit]; decide), hdown]
  · rw [if_neg (mt (and_one_eq_zero_iff value).mp hbit), if_pos (Bool.not_eq_false _ ▸ hbit),
      UInt32.toBitVec_xor, hdown]
    rfl

/-- As many places as there are rounds. -/
theorem crc32Bits_toBitVec (rounds : List Nat) : ∀ value : UInt32,
    (rounds.foldl (fun value _ => crc32Bit value) value).toBitVec
      = shifts 0xedb88320#32 rounds.length value.toBitVec := by
  induction rounds with
  | nil => intro value; rfl
  | cons round rounds ih =>
      intro value
      rw [List.foldl_cons, ih, crc32Bit_toBitVec]
      rfl

/-! ### A byte -/

theorem crc32Table_getElem? (index : UInt8) :
    crc32Table[index.toNat]? = some (crc32Entry (UInt32.ofNat index.toNat)) := by
  rw [crc32Table, makeCrc32Table, List.getElem?_map, List.getElem?_range index.toNat_lt]
  rfl

/-- The index of the entry is what the low bits are once the byte is added. -/
theorem low_xor (state : UInt32) (byte : UInt8) :
    low 8 (state.toBitVec ^^^ BitVec.ofNat 32 byte.toNat)
      = (UInt32.ofNat (state.toUInt8 ^^^ byte).toNat).toBitVec := by
  have hbyte : byte.toNat < 2 ^ 8 := byte.toNat_lt
  have hindex : (state.toUInt8 ^^^ byte).toNat < 2 ^ 8 := UInt8.toNat_lt _
  have hstate : state.toBitVec.toNat = state.toNat := rfl
  apply BitVec.eq_of_toNat_eq
  rw [low, BitVec.toNat_setWidth, BitVec.toNat_setWidth, BitVec.toNat_xor, BitVec.toNat_ofNat,
    UInt32.toBitVec_ofNat', BitVec.toNat_ofNat, Nat.mod_eq_of_lt (show byte.toNat < 2 ^ 32 by omega),
    Nat.mod_eq_of_lt (show (state.toUInt8 ^^^ byte).toNat < 2 ^ 32 by omega), UInt8.toNat_xor,
    UInt32.toNat_toUInt8, Nat.xor_mod_two_pow, Nat.mod_eq_of_lt hbyte, hstate]
  exact Nat.mod_eq_of_lt (Nat.lt_of_lt_of_le (Nat.xor_lt_two_pow (Nat.mod_lt _ (by decide)) hbyte)
    (by decide))

/-- The byte is not above the low bits. -/
theorem xor_ushiftRight (state : UInt32) (byte : UInt8) :
    (state.toBitVec ^^^ BitVec.ofNat 32 byte.toNat) >>> 8 = state.toBitVec >>> 8 := by
  have hbyte : byte.toNat < 2 ^ 8 := byte.toNat_lt
  have hzero : (BitVec.ofNat 32 byte.toNat) >>> 8 = 0#32 := by
    apply BitVec.eq_of_toNat_eq
    rw [BitVec.toNat_ushiftRight, BitVec.toNat_ofNat, Nat.mod_eq_of_lt (by omega),
      Nat.shiftRight_eq_div_pow, Nat.div_eq_of_lt hbyte]
    rfl
  rw [BitVec.ushiftRight_xor_distrib, hzero, BitVec.xor_zero]

namespace Crc32

/-- A byte from the table is eight bits of the register. -/
theorem step_eq (crc : Crc32) (byte : UInt8) : crc.step byte
    = .ok ⟨UInt32.ofBitVec (remainder 0xedb88320#32 (lsb 8 byte.toNat) crc.state.toBitVec)⟩ := by
  rw [step, crc32Table_getElem?, remainder_lsb 8 (by decide) _ _ byte.toNat_lt, shifts_split, low_xor,
    xor_ushiftRight]
  refine congrArg (fun state => Except.ok (Crc32.mk state)) (UInt32.toBitVec_inj.mp ?_)
  rw [UInt32.toBitVec_xor, crc32Entry, crc32Bits_toBitVec]
  simp

/-- And a string is all of its bits. -/
theorem update_eq (bytes : Bytes) : ∀ crc : Crc32, crc.update bytes
    = .ok ⟨UInt32.ofBitVec (remainder 0xedb88320#32 (ofBytes bytes) crc.state.toBitVec)⟩ := by
  induction bytes with
  | nil => intro crc; rfl
  | cons byte bytes ih =>
      intro crc
      show (crc.step byte >>= fun next => next.update bytes) = _
      rw [step_eq, except_ok_bind, ih, BitString.ofBytes_cons, remainder_append]

theorem updateChunks_eq (chunks : List Bytes) : ∀ crc : Crc32,
    chunks.foldlM update crc = crc.update chunks.flatten := by
  induction chunks with
  | nil => intro crc; rfl
  | cons chunk chunks ih =>
      intro crc
      rw [List.foldlM_cons, List.flatten_cons, update_append]
      congr 1
      funext next
      exact ih next

/-- A byte of the reference. -/
theorem reference_byte (crc : UInt32) (byte : UInt8) :
    ((List.range 8).foldl (fun crc _ => crc32Bit crc) (crc ^^^ byte.toUInt32)).toBitVec
      = remainder 0xedb88320#32 (lsb 8 byte.toNat) crc.toBitVec := by
  have hbyte : byte.toUInt32.toBitVec = BitVec.ofNat 32 byte.toNat := by
    apply BitVec.eq_of_toNat_eq
    rw [BitVec.toNat_ofNat, Nat.mod_eq_of_lt (Nat.lt_trans byte.toNat_lt (by decide))]
    exact UInt8.toNat_toUInt32 byte
  rw [crc32Bits_toBitVec, List.length_range, UInt32.toBitVec_xor, hbyte,
    remainder_lsb 8 (by decide) _ _ byte.toNat_lt]

end Crc32

theorem referenceCrc32_eq (bytes : Bytes) : referenceCrc32 bytes = serialCrc32 bytes := by
  suffices h : ∀ crc : UInt32, (bytes.foldl (fun crc byte =>
      (List.range 8).foldl (fun crc _ => crc32Bit crc) (crc ^^^ byte.toUInt32)) crc).toBitVec
      = remainder 0xedb88320#32 (ofBytes bytes) crc.toBitVec by
    rw [referenceCrc32, serialCrc32]
    congr 1
    exact UInt32.toBitVec_inj.mp (h 0xffffffff)
  induction bytes with
  | nil => intro crc; rfl
  | cons byte bytes ih =>
      intro crc
      rw [List.foldl_cons, ih, Crc32.reference_byte, BitString.ofBytes_cons, remainder_append]

/-- However a string is cut, the chunks give the bit-serial CRC of the whole of it. -/
theorem crc32_chunks (chunks : List Bytes) :
    (chunks.foldlM Crc32.update Crc32.new).map Crc32.finalize = .ok (serialCrc32 chunks.flatten) ∧
      serialCrc32 chunks.flatten = referenceCrc32 chunks.flatten := by
  refine ⟨?_, (referenceCrc32_eq _).symm⟩
  rw [Crc32.updateChunks_eq, Crc32.update_eq]
  rfl

example : serialCrc32 [0x31, 0x32, 0x33, 0x34, 0x35, 0x36, 0x37, 0x38, 0x39] = 0xcbf43926 := by
  decide +kernel

end Un7z
