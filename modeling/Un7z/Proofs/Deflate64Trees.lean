/-
The bit reader of Deflate64, and its prefix codes.

A reader is a cursor over bits: those in its buffer, and those of the bytes it has not
touched.  It never holds a whole byte back (`Valid`), so what it discards when it aligns
itself are the bits of the current byte.

`Huffman::from_lengths` makes the table of the canonical code of its lengths (`Holds`), and
`Huffman::decode` reads the codewords of that code (`decodes_decode`) and fails only where the
bits make none of them (`decode_error`).  What it accepts leaves room for all its codewords
(`codable_of_fromLengths`).
-/
import Un7z.Deflate64
import Un7z.Lib.CanonicalCode
import Un7z.Lib.Cursor

namespace Un7z

namespace Deflate64

open BitString (lsb ofBytes digit)
open BitReader (readBits)
open Cursor (Decodes Valid rest)
open CanonicalCode

/-! ### Bits -/

namespace BitReader

/-- The fields fit together, and the buffer holds less than so many bits. -/
structure Loaded (reader : BitReader) (limit : Nat) : Prop where
  buffered : reader.bufferedBits < limit
  buffer : reader.buffer < 2 ^ reader.bufferedBits
  position : reader.position ≤ reader.input.length
  input : reader.input.length < 2 ^ 64

/-- The bits that are still to be used. -/
def ahead (reader : BitReader) : List Bool :=
  lsb reader.bufferedBits reader.buffer ++ ofBytes (reader.input.drop reader.position)

end BitReader

instance : Cursor BitReader Bool where
  rest := BitReader.ahead
  Valid reader := reader.Loaded 8

namespace BitReader

theorem valid_new {input : Bytes} (h : input.length < 2 ^ 64) : Valid (new input) :=
  ⟨show 0 < 8 by decide, Nat.one_pos, Nat.zero_le _, h⟩

theorem rest_new (input : Bytes) : rest (new input) = ofBytes input := rfl

variable {reader : BitReader} {count value : Nat}

theorem length_ahead (reader : BitReader) : reader.ahead.length
    = reader.bufferedBits + 8 * (reader.input.length - reader.position) := by
  rw [ahead, List.length_append, BitString.length_lsb, BitString.length_ofBytes, List.length_drop]

/-- With fewer than eight bits to come, every byte has been read. -/
theorem hasTrailingBytes_eq (h : Valid reader) (hrest : (rest reader).length < 8) :
    reader.hasTrailingBytes = false := by
  have hlength := length_ahead reader
  have hposition := h.position
  have hrest : reader.ahead.length < 8 := hrest
  exact bne_eq_false_iff_eq.mpr (by omega)

/-- The buffer holds what is left of the current byte. -/
theorem bufferedBits_eq (h : Valid reader) : reader.bufferedBits = (rest reader).length % 8 := by
  have hlength := length_ahead reader
  have hbuffered := h.buffered
  show _ = reader.ahead.length % 8
  omega

/-- Aligned, the reader has lost the rest of the current byte and nothing else. -/
theorem align (h : Valid reader) : Valid reader.alignToByte ∧
    rest reader.alignToByte = (rest reader).drop ((rest reader).length % 8) := by
  refine ⟨⟨show 0 < 8 by decide, Nat.one_pos, h.position, h.input⟩, ?_⟩
  rw [← bufferedBits_eq h]
  show ofBytes _ = (lsb _ _ ++ ofBytes _).drop reader.bufferedBits
  rw [List.drop_left' (BitString.length_lsb _ _)]
  rfl

/-- A byte goes above the bits of the buffer. -/
theorem lsb_or {buffer bits : Nat} (h : buffer < 2 ^ bits) (hbits : bits ≤ 31) (byte : UInt8) :
    ∃ shifted, checkedShl 64 byte.toNat bits = some shifted ∧
      buffer ||| shifted < 2 ^ (bits + 8) ∧
      lsb (bits + 8) (buffer ||| shifted) = lsb bits buffer ++ lsb 8 byte.toNat := by
  have hbyte : byte.toNat < 2 ^ 8 := byte.toNat_lt
  have hpow : 2 ^ bits * 2 ^ 8 = 2 ^ (bits + 8) := (Nat.pow_add 2 bits 8).symm
  have hword : 2 ^ (bits + 8) ≤ 2 ^ 64 := Nat.pow_le_pow_right (by decide) (by omega)
  have hshifted : byte.toNat * 2 ^ bits + 2 ^ bits ≤ 2 ^ (bits + 8) := by
    rw [← hpow, ← Nat.succ_mul, Nat.mul_comm]
    exact Nat.mul_le_mul_left _ hbyte
  have hor : buffer ||| byte.toNat <<< bits = buffer + byte.toNat * 2 ^ bits := by
    rw [Nat.or_comm, ← Nat.shiftLeft_add_eq_or_of_lt h, Nat.shiftLeft_eq, Nat.add_comm]
  have hshl : checkedShl 64 byte.toNat bits = some (byte.toNat <<< bits) := by
    rw [checkedShl_of_lt (by omega), Nat.mod_eq_of_lt]
    rw [Nat.shiftLeft_eq]
    omega
  refine ⟨_, hshl, ?_, ?_⟩
  · rw [hor]
    omega
  · rw [hor, BitString.lsb_add_mul _ _ _ _ h]

theorem readByte_eq {byte : UInt8} (hbyte : reader.input[reader.position]? = some byte)
    (hlength : reader.input.length < 2 ^ 64) :
    (readByte reader).result = .ok (byte, { reader with position := reader.position + 1 }) := by
  have hlt := (List.getElem?_eq_some_iff.mp hbyte).1
  rw [readByte, Metered.result_bind_ok (result_checkpoint _), hbyte,
    Metered.result_bind_ok (result_orFormat_some _ _), checkedAdd_of_lt (by omega),
    Metered.result_bind_ok (result_orFormat_some _ _)]
  rfl

theorem get_eq (reader : BitReader) : ((get : Bits BitReader) reader).result = .ok (reader, reader) :=
  rfl

/-- One more byte in the buffer; the string is the same. -/
theorem refill_byte (h : reader.Loaded (count + 8)) (hcount : count ≤ 24)
    (hlow : reader.bufferedBits < count) (hahead : count ≤ reader.ahead.length) (fuel : Nat) :
    ∃ next, (refill count (fuel + 1) reader).result = (refill count fuel next).result ∧
      next.Loaded (count + 8) ∧ next.bufferedBits = reader.bufferedBits + 8 ∧
      next.ahead = reader.ahead := by
  have hlength := length_ahead reader
  obtain ⟨hbuffered, hbuffer, hposition, hinput⟩ := h
  have hlt : reader.position < reader.input.length := by omega
  obtain ⟨byte, hbyte⟩ : ∃ byte, reader.input[reader.position]? = some byte :=
    ⟨_, List.getElem?_eq_getElem hlt⟩
  obtain ⟨shifted, hshl, hword, hbits⟩ := lsb_or hbuffer (by omega) byte
  refine ⟨⟨reader.input, reader.position + 1, reader.buffer ||| shifted, reader.bufferedBits + 8⟩,
    ?_, ⟨by show _ + 8 < _; omega, hword, hlt, hinput⟩, rfl, ?_⟩
  · rw [refill, Cursor.result_bind_ok (get_eq reader), if_pos hlow,
      Cursor.result_bind_ok (readByte_eq hbyte hinput), hshl, checkedAdd_of_lt (by omega)]
    rfl
  · show lsb (reader.bufferedBits + 8) _ ++ ofBytes (reader.input.drop (reader.position + 1)) = _
    rw [hbits, ahead, List.drop_eq_getElem_cons hlt, BitString.ofBytes_cons, List.append_assoc]
    rw [List.getElem?_eq_getElem hlt] at hbyte
    rw [Option.some.inj hbyte]

/-- Then enough bits are in the buffer. -/
theorem refill_eq (hcount : count ≤ 24) (fuel : Nat) : ∀ reader : BitReader,
    reader.Loaded (count + 8) → count ≤ reader.ahead.length → 0 < fuel →
    count < reader.bufferedBits + fuel → ∃ next, (refill count fuel reader).result = .ok ((), next) ∧
      next.Loaded (count + 8) ∧ count ≤ next.bufferedBits ∧ next.ahead = reader.ahead := by
  induction fuel with
  | zero =>
      intro reader h hahead hpos hfuel
      exact absurd hpos (Nat.lt_irrefl 0)
  | succ fuel ih =>
      intro reader h hahead hpos hfuel
      by_cases hlow : reader.bufferedBits < count
      · obtain ⟨next, hrefill, hloaded, hbuffered, hsame⟩ := refill_byte h hcount hlow hahead fuel
        rw [hrefill, ← hsame]
        exact ih next hloaded (by rwa [hsame]) (by omega) (by omega)
      · refine ⟨reader, ?_, h, Nat.not_lt.mp hlow, rfl⟩
        rw [refill, Cursor.result_bind_ok (get_eq reader), if_neg hlow]
        rfl

/-- The mask of the low bits. -/
theorem mask_eq (hcount : count ≤ 24) : ((if count = 0 then pure 0 else
    orFormat ((checkedShl 64 1 count).bind fun value => checkedSub value 1)
      "Deflate64 bit mask overflows" : Work Nat)).result = .ok (2 ^ count - 1) := by
  by_cases hzero : count = 0
  · rw [if_pos hzero, hzero]
    rfl
  · have hword : 2 ^ count < 2 ^ 64 := Nat.pow_lt_pow_right (by decide) (by omega)
    have hpos := Nat.two_pow_pos count
    rw [if_neg hzero, checkedShl_of_lt (by omega), Nat.one_shiftLeft, Nat.mod_eq_of_lt hword,
      Option.bind_some, checkedSub_of_le hpos]
    rfl

/-- What is taken from a buffer that holds enough. -/
theorem readBits_of_refill {next : BitReader} (hcount : count ≤ 24)
    (hrefill : (refill count (count + 1) reader).result = .ok ((), next))
    (henough : count ≤ next.bufferedBits) : (readBits count reader).result
      = .ok (next.buffer % 2 ^ count, { next with
          buffer := next.buffer >>> count, bufferedBits := next.bufferedBits - count }) := by
  have hlt : next.buffer % 2 ^ count < 2 ^ 32 :=
    Nat.lt_of_lt_of_le (Nat.mod_lt _ (Nat.two_pow_pos _)) (Nat.pow_le_pow_right (by decide) (by omega))
  rw [readBits, if_neg (by omega), Cursor.result_bind_ok hrefill,
    Cursor.result_lift_bind (mask_eq hcount), Cursor.result_bind_ok (get_eq next),
    Nat.and_two_pow_sub_one_eq_mod, tryFrom_of_lt hlt,
    Cursor.result_lift_bind (result_orFormat_some _ _), checkedSub_of_le henough]
  rfl

/-- What is read are the next bits. -/
theorem decodes_readBits (hcount : count ≤ 24) (hvalue : value < 2 ^ count) :
    Decodes (readBits count) (lsb count value) value := by
  intro reader tail h hrest
  have hrest : reader.ahead = lsb count value ++ tail := hrest
  have hlong : count ≤ reader.ahead.length := by
    rw [hrest, List.length_append, BitString.length_lsb]
    exact Nat.le_add_right _ _
  have hloaded : reader.Loaded (count + 8) :=
    ⟨Nat.lt_of_lt_of_le h.buffered (Nat.le_add_left _ _), h.buffer, h.position, h.input⟩
  obtain ⟨next, hrefill, hnext, henough, hsame⟩ :=
    refill_eq hcount (count + 1) reader hloaded hlong (Nat.succ_pos _) (by omega)
  obtain ⟨left, hleft⟩ : ∃ left, next.bufferedBits = count + left := Nat.exists_eq_add_of_le henough
  obtain ⟨hbuffered, hbuffer, hposition, hinput⟩ := hnext
  rw [← hsame, ahead, hleft, BitString.lsb_append, List.append_assoc] at hrest
  obtain ⟨hvalues, htail⟩ := List.append_inj hrest (by rw [BitString.length_lsb, BitString.length_lsb])
  have hread : next.buffer % 2 ^ count = value := by
    refine BitString.lsb_injective (Nat.mod_lt _ (Nat.two_pow_pos _)) hvalue ?_
    rw [BitString.lsb_mod, hvalues]
  refine ⟨{ next with buffer := next.buffer >>> count, bufferedBits := next.bufferedBits - count },
    ?_, ⟨?_, ?_, hposition, hinput⟩, ?_⟩
  · rw [readBits_of_refill hcount hrefill henough, hread]
  · show next.bufferedBits - count < 8
    omega
  · show next.buffer >>> count < 2 ^ (next.bufferedBits - count)
    rw [Nat.shiftRight_eq_div_pow, hleft, Nat.add_sub_cancel_left]
    rw [hleft, Nat.pow_add] at hbuffer
    exact Nat.div_lt_of_lt_mul hbuffer
  · show lsb (next.bufferedBits - count) (next.buffer >>> count) ++ ofBytes _ = tail
    rw [Nat.shiftRight_eq_div_pow, hleft, Nat.add_sub_cancel_left, ← htail]

/-- A bit is read where there is one, and nowhere else. -/
theorem readBits_one {reader : BitReader} (h : Valid reader) :
    (rest reader = [] ∧
      (readBits 1 reader).result = .error (formatError "truncated Deflate64 bitstream")) ∨
    ∃ bit next, bit < 2 ∧ (readBits 1 reader).result = .ok (bit, next) ∧ Valid next := by
  cases hrest : rest reader with
  | nil =>
      refine .inl ⟨rfl, ?_⟩
      have hlength := length_ahead reader
      have hnone : reader.ahead.length = 0 := congrArg List.length hrest
      have hposition := h.position
      have hbyte : reader.input[reader.position]? = none := List.getElem?_eq_none (by omega)
      have hread : (readByte reader).result
          = .error (formatError "truncated Deflate64 bitstream") := by
        rw [readByte, Metered.result_bind_ok (result_checkpoint _), hbyte]
        exact Metered.result_bind_error rfl
      have hrefill : (refill 1 2 reader).result
          = .error (formatError "truncated Deflate64 bitstream") := by
        rw [refill, Cursor.result_bind_ok (get_eq reader), if_pos (by omega)]
        exact Cursor.result_bind_error hread
      rw [readBits, if_neg (by decide)]
      exact Cursor.result_bind_error hrefill
  | cons bit tail =>
      have hword : rest reader = lsb 1 (digit bit) ++ tail := by
        rw [hrest]
        cases bit <;> rfl
      obtain ⟨next, hread, hnext, -⟩ :=
        decodes_readBits (by decide) (BitString.digit_lt bit) reader tail h hword
      exact .inr ⟨digit bit, next, BitString.digit_lt bit, hread, hnext⟩

/-- A buffer is never filled with more bytes than it takes. -/
theorem refill_buffered (fuel : Nat) : ∀ reader next : BitReader,
    (refill count fuel reader).result = .ok ((), next) → reader.bufferedBits < count + 8 →
      count ≤ next.bufferedBits ∧ next.bufferedBits < count + 8 := by
  induction fuel with
  | zero =>
      intro reader next hrefill hbuffered
      exact absurd (Cursor.lift_eq_ok.mp hrefill).1 (by simp)
  | succ fuel ih =>
      intro reader next hrefill hbuffered
      rw [refill, Cursor.result_bind_ok (get_eq reader)] at hrefill
      by_cases hlow : reader.bufferedBits < count
      · rw [if_pos hlow] at hrefill
        obtain ⟨byte, loaded, -, hrefill⟩ := Cursor.bind_eq_ok.mp hrefill
        obtain ⟨shifted, same, hshl, hrefill⟩ := Cursor.bind_eq_ok.mp hrefill
        obtain ⟨bits, same, hbits, hrefill⟩ := Cursor.bind_eq_ok.mp hrefill
        obtain ⟨-, rfl⟩ := checkedAdd_eq_some.mp (orFormat_eq_ok.mp (Cursor.lift_eq_ok.mp hbits).1)
        refine ih _ next hrefill ?_
        show reader.bufferedBits + 8 < count + 8
        omega
      · rw [if_neg hlow] at hrefill
        obtain ⟨-, rfl⟩ := Cursor.pure_eq_ok.mp hrefill
        exact ⟨Nat.not_lt.mp hlow, hbuffered⟩

/-- After every read fewer than eight bits stay buffered. -/
theorem bufferedBits_readBits {next : BitReader} (h : reader.bufferedBits < 8)
    (hread : (readBits count reader).result = .ok (value, next)) : next.bufferedBits < 8 := by
  rw [readBits] at hread
  by_cases hcount : count > 24
  · rw [if_pos hcount] at hread
    exact absurd (Cursor.lift_eq_ok.mp hread).1 (by simp)
  · rw [if_neg hcount] at hread
    obtain ⟨⟨⟩, filled, hrefill, -⟩ := Cursor.bind_eq_ok.mp hread
    obtain ⟨henough, hless⟩ := refill_buffered _ _ _ hrefill (by omega)
    have hresult := readBits_of_refill (Nat.not_lt.mp hcount) hrefill henough
    rw [readBits, if_neg hcount, hread] at hresult
    rw [(Prod.mk.inj (Except.ok.inj hresult)).2]
    show filled.bufferedBits - count < 8
    omega

end BitReader

/-! ### Tables -/

/-- A table with an entry for each length of a codeword. -/
def table (f : Nat → Nat) : List Nat := (List.range (maxCodeBits + 1)).map f

theorem getElem?_table {f : Nat → Nat} {length : Nat} (h : length ≤ maxCodeBits) :
    (table f)[length]? = some (f length) := by
  rw [table, List.getElem?_map, List.getElem?_range (Nat.lt_succ_of_le h)]
  rfl

theorem set_table {f : Nat → Nat} {length value : Nat} :
    (table f).set length value = table (Function.update f length value) := by
  refine List.ext_getElem (by simp [table]) fun i hleft hright => ?_
  rw [List.getElem_set]
  simp only [table, List.getElem_map, List.getElem_range]
  by_cases hi : length = i
  · rw [if_pos hi, hi, Function.update_self]
  · rw [if_neg hi, Function.update_of_ne (Ne.symm hi)]

theorem table_congr {f g : Nat → Nat} (h : ∀ length ≤ maxCodeBits, f length = g length) :
    table f = table g :=
  List.map_congr_left fun length hlength => h length (Nat.le_of_lt_succ (List.mem_range.mp hlength))

/-! ### Prefix codes -/

namespace Huffman

/-- The tree is the table of the canonical code of these lengths. -/
structure Holds (tree : Huffman) (lengths : List Nat) : Prop where
  short : lengths.length ≤ maxHuffmanSymbols
  fits : Fits lengths maxCodeBits
  length_le : ∀ symbol, length lengths symbol ≤ maxCodeBits
  counts : tree.counts = table (count lengths)
  symbolCount : tree.symbolCount = below lengths (maxCodeBits + 1)
  symbols : ∀ symbol, length lengths symbol ≠ 0 →
    tree.symbols[index lengths symbol]? = some symbol

/-- A bit behind the bits of a number. -/
theorem two_mul_or (number bit : Nat) (hbit : bit < 2) : 2 * number ||| bit = 2 * number + bit := by
  have h := Nat.shiftLeft_add_eq_or_of_lt (show bit < 2 ^ 1 from hbit) number
  rw [Nat.shiftLeft_eq, Nat.pow_one, Nat.mul_comm] at h
  exact h.symm

section decode

variable {tree : Huffman} {lengths : List Nat} {symbol : Nat} (h : tree.Holds lengths)
  (hlength : length lengths symbol ≠ 0)

include h hlength

theorem number_lt_word : number lengths symbol < 2 ^ 15 :=
  Nat.lt_of_lt_of_le (number_lt h.fits hlength (h.length_le symbol))
    (Nat.pow_le_pow_right (by decide) (h.length_le symbol))

omit h hlength in
/-- The next bit of a codeword, and then the others. -/
theorem decodes_bit {α : Type} {f : Nat → Bits α} {number left : Nat} {a : α}
    (hf : Decodes (f (number / 2 ^ left % 2)) (BitString.msb left number) a) :
    Decodes (readBits 1 >>= f) (BitString.msb (left + 1) number) a := by
  have hbit : number / 2 ^ left % 2 < 2 ^ 1 := Nat.mod_lt _ (by decide)
  have hword : BitString.msb (left + 1) number
      = lsb 1 (number / 2 ^ left % 2) ++ BitString.msb left number := by
    rw [BitString.msb, lsb, lsb, Nat.mod_mod]
    rfl
  rw [hword]
  exact (BitReader.decodes_readBits (by decide) hbit).bind hf

/-- From any bit of a codeword on. -/
theorem decodes_decodeFrom (left : Nat) : ∀ reached, reached + left = length lengths symbol →
    reached ≠ 0 → Decodes (decodeFrom tree (List.range' reached (maxCodeBits + 1 - reached))
        (2 * (number lengths symbol / 2 ^ (left + 1))) (first lengths reached)
        (below lengths reached))
      (BitString.msb (left + 1) (number lengths symbol)) symbol := by
  have hle := h.length_le symbol
  have hnumber := number_lt_word h hlength
  have hrange {reached : Nat} (hreached : reached ≤ maxCodeBits) :
      List.range' reached (maxCodeBits + 1 - reached)
        = reached :: List.range' (reached + 1) (maxCodeBits + 1 - (reached + 1)) := by
    rw [Nat.succ_sub hreached, List.range'_succ, Nat.succ_sub_succ]
  have hcode (left : Nat) : 2 * (number lengths symbol / 2 ^ (left + 1)) |||
      number lengths symbol / 2 ^ left % 2 = number lengths symbol / 2 ^ left := by
    rw [two_mul_or _ _ (Nat.mod_lt _ (by decide)), Nat.mul_comm, ← prefix_succ]
  have hstop {reached : Nat} (hreached : reached ≤ maxCodeBits) :
      checkedAdd 32 (first lengths reached) (count lengths reached)
        = some (first lengths reached + count lengths reached) ∧
      first lengths reached + count lengths reached ≤ 2 ^ 15 := by
    have hfits := h.fits reached hreached
    have hword : 2 ^ reached ≤ 2 ^ 15 := Nat.pow_le_pow_right (by decide) hreached
    exact ⟨checkedAdd_of_lt (by omega), by omega⟩
  have hbelow (limit : Nat) : below lengths limit ≤ 320 :=
    Nat.le_trans (below_le_length limit) h.short
  induction left with
  | zero =>
      intro reached hreached hpos
      rw [Nat.add_zero] at hreached
      subst hreached
      obtain ⟨hadd, hsmall⟩ := hstop hle
      have hend := number_lt_end hlength
      have hindex := index_lt hlength (Nat.lt_succ_of_le hle)
      have hplace := h.symbols symbol hlength
      have hrelative : checkedSub (number lengths symbol) (first lengths (length lengths symbol))
          = some (rank lengths symbol) := by
        rw [number, checkedSub_of_le (Nat.le_add_right _ _), Nat.add_sub_cancel_left]
      rw [hrange hle, decodeFrom]
      refine decodes_bit ?_
      rw [hcode, Nat.pow_zero, Nat.div_one]
      refine Decodes.liftBind (orFormat_eq_ok.mpr (h.counts ▸ getElem?_table hle)) ?_
      refine Decodes.liftBind (orFormat_eq_ok.mpr hadd) ?_
      rw [if_pos hend, hrelative]
      refine Decodes.liftBind (result_orFormat_some _ _) ?_
      have hsum : checkedAdd 64 (below lengths (length lengths symbol)) (rank lengths symbol)
          = some (index lengths symbol) :=
        checkedAdd_of_lt (Nat.lt_of_lt_of_le hindex (Nat.le_trans (hbelow _) (by decide)))
      rw [hsum]
      refine Decodes.liftBind (result_orFormat_some _ _) ?_
      rw [if_neg (by rw [h.symbolCount]; exact Nat.not_le.mpr hindex), hplace]
      exact Decodes.lift (result_orFormat_some _ _)
  | succ left ih =>
      intro reached hreached hpos
      have hreachedle : reached ≤ maxCodeBits := by omega
      obtain ⟨hadd, hsmall⟩ := hstop hreachedle
      have hprefix : first lengths reached + count lengths reached
          ≤ number lengths symbol / 2 ^ (left + 1) := by
        have hend := end_le_prefix (show reached < length lengths symbol by omega)
        rwa [show length lengths symbol - reached = left + 1 by omega] at hend
      rw [hrange hreachedle, decodeFrom]
      refine decodes_bit ?_
      rw [hcode]
      refine Decodes.liftBind (orFormat_eq_ok.mpr (h.counts ▸ getElem?_table hreachedle)) ?_
      refine Decodes.liftBind (orFormat_eq_ok.mpr hadd) ?_
      rw [if_neg (Nat.not_lt.mpr hprefix)]
      have hsum : checkedAdd 64 (below lengths reached) (count lengths reached)
          = some (below lengths (reached + 1)) := by
        have hsmall : below lengths (reached + 1) ≤ 320 := hbelow _
        exact checkedAdd_of_lt (Nat.lt_of_le_of_lt hsmall (by decide))
      rw [hsum]
      refine Decodes.liftBind (result_orFormat_some _ _) ?_
      rw [checkedShl_of_lt (by decide), checkedShl_of_lt (by decide)]
      refine Decodes.liftBind (result_orFormat_some _ _) ?_
      refine Decodes.liftBind (result_orFormat_some _ _) ?_
      have hnext := ih (reached + 1) (by omega) (by omega)
      have hshifted (value : Nat) (hvalue : value ≤ 2 ^ 15) : value <<< 1 % 2 ^ 32 = 2 * value := by
        rw [Nat.shiftLeft_eq]
        omega
      have hcodeword : number lengths symbol / 2 ^ (left + 1) ≤ 2 ^ 15 :=
        Nat.le_trans (Nat.div_le_self _ _) hnumber.le
      rwa [hshifted _ hsmall, hshifted _ hcodeword]

/-- A codeword is read as its symbol. -/
theorem decodes_decode : Decodes tree.decode (codeword lengths symbol) symbol := by
  obtain ⟨left, hleft⟩ : ∃ left, length lengths symbol = left + 1 :=
    Nat.exists_eq_succ_of_ne_zero hlength
  have hstart := decodes_decodeFrom h hlength left 1 (by omega) (by decide)
  have hnumber := number_lt h.fits hlength (h.length_le symbol)
  rw [hleft] at hnumber
  rw [Nat.div_eq_of_lt hnumber] at hstart
  rw [codeword, hleft]
  exact hstart

end decode

section guards

variable {tree : Huffman} {lengths : List Nat} (h : tree.Holds lengths)

include h

/-- From any length on, with a code that is not below the codewords of that length. -/
theorem decodeFrom_error (left : Nat) : ∀ reached code reader, reached + left = maxCodeBits →
    Valid reader → code < 2 ^ reached → first lengths (reached + 1) ≤ 2 * code → ∀ e,
    (decodeFrom tree (List.range' (reached + 1) left) (2 * code) (first lengths (reached + 1))
      (below lengths (reached + 1)) reader).result = .error e →
    e = formatError "truncated Deflate64 bitstream" ∨
      e = formatError "invalid Deflate64 Huffman code" := by
  induction left with
  | zero =>
      intro reached code reader hleft hreader hcode hfirst e he
      exact .inr (Except.error.inj he).symm
  | succ left ih =>
      intro reached code reader hleft hreader hcode hfirst e he
      have hreached : reached + 1 ≤ maxCodeBits := by omega
      have hpow : 2 ^ (reached + 1) = 2 ^ reached * 2 := Nat.pow_succ _ _
      have hword : 2 ^ (reached + 1) ≤ 2 ^ 15 := Nat.pow_le_pow_right (by decide) hreached
      have hfits := h.fits (reached + 1) hreached
      have hbelow : below lengths (reached + 1 + 1) ≤ 320 :=
        Nat.le_trans (below_le_length _) h.short
      have hnext : below lengths (reached + 1 + 1)
        = below lengths (reached + 1) + count lengths (reached + 1) := rfl
      rw [List.range'_succ, decodeFrom] at he
      rcases BitReader.readBits_one hreader with ⟨-, hread⟩ | ⟨bit, next, hbit, hread, hvalid⟩
      · rw [Cursor.result_bind_error hread] at he
        exact .inl (Except.error.inj he).symm
      · rw [Cursor.result_bind_ok hread, two_mul_or _ _ hbit,
          Cursor.result_lift_bind (orFormat_eq_ok.mpr (h.counts ▸ getElem?_table hreached)),
          checkedAdd_of_lt (by omega), Cursor.result_lift_bind (result_orFormat_some _ _)] at he
        by_cases hend : 2 * code + bit < first lengths (reached + 1) + count lengths (reached + 1)
        · -- the guards: the code is one of the codewords, and its place is that of a symbol
          obtain ⟨relative, hrelative⟩ : ∃ relative,
              2 * code + bit = first lengths (reached + 1) + relative :=
            Nat.exists_eq_add_of_le (by omega)
          have hoffset : relative < count lengths (reached + 1) := by omega
          obtain ⟨symbol, hsymbol, hpos, hindex⟩ := exists_index hoffset
          have hcoded : length lengths symbol ≠ 0 := hsymbol ▸ hpos
          have hinside : index lengths symbol < below lengths (maxCodeBits + 1) :=
            index_lt hcoded (Nat.lt_succ_of_le (h.length_le symbol))
          rw [if_pos hend, hrelative, checkedSub_of_le (Nat.le_add_right _ _),
            Nat.add_sub_cancel_left, Cursor.result_lift_bind (result_orFormat_some _ _),
            checkedAdd_of_lt (by omega), Cursor.result_lift_bind (result_orFormat_some _ _),
            ← hindex, if_neg (h.symbolCount ▸ Nat.not_le.mpr hinside), h.symbols symbol hcoded] at he
          exact absurd he (by simp [Cursor.result_lift, Except.map])
        · have hshifted (value : Nat) (hvalue : value ≤ 2 ^ 15) :
              value <<< 1 % 2 ^ 32 = 2 * value := by
            rw [Nat.shiftLeft_eq]
            omega
          rw [if_neg hend, checkedAdd_of_lt (by omega),
            Cursor.result_lift_bind (result_orFormat_some _ _), checkedShl_of_lt (by decide),
            Cursor.result_lift_bind (result_orFormat_some _ _), checkedShl_of_lt (by decide),
            Cursor.result_lift_bind (result_orFormat_some _ _), hshifted _ (by omega),
            hshifted _ (by omega)] at he
          refine ih (reached + 1) (2 * code + bit) next (by omega) hvalid (by omega) ?_ e he
          rw [first]
          omega

/-- Whatever bits lie ahead, a decoder fails where they end or make no codeword. -/
theorem decode_error {reader : BitReader} (hreader : Valid reader) {e : Error}
    (he : (tree.decode reader).result = .error e) :
    e = formatError "truncated Deflate64 bitstream" ∨
      e = formatError "invalid Deflate64 Huffman code" :=
  decodeFrom_error h maxCodeBits 0 0 reader rfl hreader Nat.one_pos (Nat.le_refl 0) e he

end guards

/-! ### Making a tree -/

/-- Lengths of codewords that leave room for all of them. -/
structure Codable (lengths : List Nat) : Prop where
  short : lengths.length ≤ maxHuffmanSymbols
  length_le : ∀ length ∈ lengths, length ≤ maxCodeBits
  fits : Fits lengths maxCodeBits

theorem countLengths_eq (lengths : List Nat) : ∀ f : Nat → Nat,
    (∀ length ∈ lengths, length ≤ maxCodeBits) →
    (∀ length, f length + lengths.length < 2 ^ 16) →
    lengths.foldlM countLength (table f) = .ok (table fun length => f length + count lengths length) := by
  induction lengths with
  | nil =>
      intro f _ _
      refine congrArg Except.ok (table_congr fun length _ => ?_)
      rw [count_nil, Nat.add_zero]
  | cons head rest ih =>
      intro f hle hroom
      obtain ⟨hhead, hrest⟩ := List.forall_mem_cons.mp hle
      rw [List.length_cons] at hroom
      rw [List.foldlM_cons, countLength, if_neg (Nat.not_lt.mpr hhead)]
      by_cases hzero : head = 0
      · rw [if_neg (not_not_intro hzero)]
        refine (ih f hrest fun length => by have := hroom length; omega).trans ?_
        refine congrArg Except.ok (table_congr fun length _ => ?_)
        rw [count_cons, if_neg (fun h => h.2 hzero), Nat.zero_add]
      · have hadd : checkedAdd 16 (f head) 1 = some (f head + 1) :=
          checkedAdd_of_lt (by have := hroom head; omega)
        rw [if_pos hzero, getElem?_table hhead, okOr_some, except_ok_bind, hadd, okOr_some,
          except_ok_bind, set_table]
        refine (ih _ hrest fun length => ?_).trans ?_
        · by_cases hlength : length = head
          · rw [hlength, Function.update_self]
            have := hroom head
            omega
          · rw [Function.update_of_ne hlength]
            have := hroom length
            omega
        · refine congrArg Except.ok (table_congr fun length _ => ?_)
          rw [count_cons]
          by_cases hlength : length = head
          · rw [hlength, Function.update_self, if_pos ⟨rfl, hzero⟩, Nat.add_assoc]
          · rw [Function.update_of_ne hlength, if_neg (fun h => hlength h.1.symm), Nat.zero_add]

theorem countLengths_of_le {lengths : List Nat} (hshort : lengths.length ≤ maxHuffmanSymbols)
    (hle : ∀ length ∈ lengths, length ≤ maxCodeBits) :
    lengths.foldlM countLength (List.replicate (maxCodeBits + 1) 0)
      = .ok (table (count lengths)) := by
  have hshort : lengths.length ≤ 320 := hshort
  refine (countLengths_eq lengths (fun _ => 0) hle fun length => ?_).trans ?_
  · show 0 + lengths.length < 2 ^ 16
    omega
  · exact congrArg Except.ok (table_congr fun length _ => Nat.zero_add _)

/-- The lengths that have codewords. -/
theorem drop_table (f : Nat → Nat) : (table f).drop 1 = codeBits.map f := rfl

/-- A fold over the lengths, from one on. -/
theorem foldlM_lengths {α : Type} {step : α → Nat → Except Error α} (state : Nat → α)
    (hstep : ∀ length < maxCodeBits, step (state length) (length + 1) = .ok (state (length + 1))) :
    codeBits.foldlM step (state 0) = .ok (state maxCodeBits) := by
  suffices h : ∀ n ≤ maxCodeBits, (List.range' (maxCodeBits - n + 1) n).foldlM step
      (state (maxCodeBits - n)) = .ok (state maxCodeBits) from h maxCodeBits (Nat.le_refl _)
  intro n
  induction n with
  | zero => intro _; rfl
  | succ n ih =>
      intro hn
      have hnext : maxCodeBits - (n + 1) + 1 = maxCodeBits - n := by omega
      rw [List.range'_succ, List.foldlM_cons, hstep _ (by omega), except_ok_bind, hnext]
      exact ih (by omega)

section fromLengths

variable {lengths : List Nat} (h : Codable lengths)

include h

theorem Codable.below_le (limit : Nat) : below lengths limit ≤ 320 :=
  Nat.le_trans (below_le_length limit) h.short

theorem Codable.end_le {limit : Nat} (hlimit : limit ≤ maxCodeBits) :
    first lengths limit + count lengths limit ≤ 2 ^ limit ∧ 2 ^ limit ≤ 2 ^ 15 :=
  ⟨h.fits limit hlimit, Nat.pow_le_pow_right (by decide) hlimit⟩

theorem symbolCount_eq : (codeBits.map (count lengths)).foldlM (fun total count =>
      okOr (checkedAdd 64 total count) (formatError "Deflate64 Huffman symbol count overflows")) 0
    = .ok (below lengths (maxCodeBits + 1)) := by
  rw [List.foldlM_map]
  refine foldlM_lengths (fun length => below lengths (length + 1)) fun length _ => ?_
  have hle := h.below_le (length + 2)
  rw [checkedAdd_of_lt (Nat.lt_of_le_of_lt hle (by decide))]
  rfl

theorem takeCodes_eq : ∃ available : Int,
    (codeBits.map (count lengths)).foldlM takeCodes 1 = .ok available := by
  rw [List.foldlM_map]
  refine ⟨_, foldlM_lengths (fun length =>
    ((2 ^ length : Nat) : Int) - (first lengths length + count lengths length : Nat))
    fun length hlength => ?_⟩
  obtain ⟨hend, hsmall⟩ := h.end_le (Nat.le_of_lt hlength)
  obtain ⟨hnext, hword⟩ := h.end_le hlength
  have hpow : 2 ^ (length + 1) = 2 ^ length * 2 := Nat.pow_succ _ _
  have hfirst : first lengths (length + 1) = 2 * (first lengths length + count lengths length) := rfl
  generalize first lengths length + count lengths length = stop at *
  rw [hfirst, hpow] at hnext ⊢
  generalize 2 ^ length = power at *
  generalize count lengths (length + 1) = more at *
  have hdouble : checkedI32 (((power : Int) - (stop : Int)) * 2)
      = some (((power : Int) - (stop : Int)) * 2) := if_pos ⟨by omega, by omega⟩
  have htake : checkedI32 (((power : Int) - (stop : Int)) * 2 - (more : Int))
      = some (((power : Int) - (stop : Int)) * 2 - (more : Int)) := if_pos ⟨by omega, by omega⟩
  have hleft : ((power : Int) - (stop : Int)) * 2 - (more : Int)
      = ((power * 2 : Nat) : Int) - ((2 * stop + more : Nat) : Int) := by omega
  rw [takeCodes, hdouble, Option.bind_some, htake, okOr_some, except_ok_bind, if_neg (by omega), hleft]
  rfl

theorem placeLengths_eq : codeBits.foldlM (placeLength (table (count lengths)))
      (List.replicate (maxCodeBits + 1) 0, 0)
    = .ok (table (below lengths), below lengths (maxCodeBits + 1)) := by
  have hlast : table (fun place => if place ≤ maxCodeBits then below lengths place else 0)
      = table (below lengths) := table_congr fun place hplace => if_pos hplace
  rw [← hlast]
  refine foldlM_lengths (fun length =>
    (table fun place => if place ≤ length then below lengths place else 0, below lengths (length + 1)))
    fun length hlength => ?_
  have hle := h.below_le (length + 2)
  have hadd : checkedAdd 64 (below lengths (length + 1)) (count lengths (length + 1))
      = some (below lengths (length + 2)) :=
    checkedAdd_of_lt (Nat.lt_of_le_of_lt hle (by decide))
  rw [placeLength, getElem?_table hlength, okOr_some, except_ok_bind, getElem?_table hlength,
    okOr_some, except_ok_bind, hadd, okOr_some, except_ok_bind, set_table]
  refine congrArg (fun offsets => Except.ok (offsets, below lengths (length + 2)))
    (table_congr fun place _ => ?_)
  by_cases hplace : place = length + 1
  · rw [hplace, Function.update_self, if_pos (Nat.le_refl _)]
  · rw [Function.update_of_ne hplace]
    by_cases hle : place ≤ length
    · rw [if_pos hle, if_pos (by omega)]
    · rw [if_neg hle, if_neg (by omega)]

theorem Codable.length_le' (symbol : Nat) : length lengths symbol ≤ maxCodeBits := by
  by_cases hzero : length lengths symbol = 0
  · rw [hzero]
    exact Nat.zero_le _
  · obtain ⟨-, hget⟩ := getElem?_of_length_ne_zero hzero
    exact h.length_le _ (List.mem_of_getElem? hget)

/-- The symbols up to here have their places. -/
def Placed (lengths : List Nat) (symbols : List Nat) (stop : Nat) : Prop :=
  symbols.length = maxHuffmanSymbols ∧ ∀ symbol < stop, length lengths symbol ≠ 0 →
    symbols[index lengths symbol]? = some symbol

/-- Where the next symbol of each length goes. -/
def nextPlace (lengths done : List Nat) (length : Nat) : Nat := below lengths length + count done length

omit h in
theorem nextPlace_append (done : List Nat) (head length : Nat) :
    nextPlace lengths (done ++ [head]) length
      = nextPlace lengths done length + if head = length ∧ head ≠ 0 then 1 else 0 := by
  rw [nextPlace, count_append, count_cons, count_nil, Nat.add_zero, ← Nat.add_assoc]
  rfl

theorem placeSymbol_eq {done rest symbols : List Nat} {head : Nat}
    (hlengths : lengths = done ++ head :: rest) (hplaced : Placed lengths symbols done.length) :
    ∃ next, placeSymbol (table (nextPlace lengths done), symbols) (head, done.length)
        = .ok (table (nextPlace lengths (done ++ [head])), next) ∧
      Placed lengths next (done.length + 1) := by
  have hlength : length lengths done.length = head := by
    rw [length, hlengths, List.getD_eq_getElem?_getD, List.getElem?_append_right (Nat.le_refl _),
      Nat.sub_self]
    rfl
  obtain ⟨hsize, hsymbols⟩ := hplaced
  by_cases hzero : head = 0
  · refine ⟨symbols, ?_, hsize, ?_⟩
    · rw [placeSymbol, if_pos hzero]
      refine congrArg (fun offsets => Except.ok (offsets, symbols)) (table_congr fun place _ => ?_)
      rw [nextPlace_append, if_neg (fun h => h.2 hzero), Nat.add_zero]
    · intro symbol hsymbol hcoded
      rcases Nat.lt_succ_iff_lt_or_eq.mp hsymbol with hless | rfl
      · exact hsymbols symbol hless hcoded
      · exact absurd (hlength.trans hzero) hcoded
  · have hcoded : length lengths done.length ≠ 0 := by rwa [hlength]
    have hhead : head ≤ maxCodeBits := hlength ▸ h.length_le' done.length
    have hplace : nextPlace lengths done head = index lengths done.length := by
      rw [nextPlace, index, rank, hlength, count, if_neg hzero]
      congr 2
      rw [hlengths, List.take_left' rfl]
    have hindex : index lengths done.length < maxHuffmanSymbols :=
      Nat.lt_of_lt_of_le (index_lt hcoded (Nat.lt_succ_of_le (h.length_le' _))) (h.below_le _)
    have hsymbol : done.length < maxHuffmanSymbols :=
      Nat.lt_of_lt_of_le (getElem?_of_length_ne_zero hcoded).1 h.short
    have hslot : symbols[index lengths done.length]?
        = some (symbols.get ⟨index lengths done.length, hsize ▸ hindex⟩) :=
      List.getElem?_eq_getElem (hsize ▸ hindex)
    refine ⟨symbols.set (index lengths done.length) done.length, ?_, ?_, ?_⟩
    · rw [placeSymbol, if_neg hzero, getElem?_table hhead, okOr_some, except_ok_bind, hplace, hslot,
        okOr_some, except_ok_bind, tryFrom_of_lt (Nat.lt_trans hsymbol (by decide)), okOr_some,
        except_ok_bind, checkedAdd_of_lt (Nat.lt_trans (Nat.succ_lt_succ hindex) (by decide)),
        okOr_some, except_ok_bind, set_table]
      refine congrArg (fun offsets => Except.ok (offsets, _)) (table_congr fun place _ => ?_)
      rw [nextPlace_append]
      by_cases hsame : place = head
      · rw [hsame, Function.update_self, if_pos ⟨rfl, hzero⟩, hplace]
      · rw [Function.update_of_ne hsame, if_neg (fun h => hsame h.1.symm), Nat.add_zero]
    · rw [List.length_set, hsize]
    · intro symbol hless hcodedsymbol
      by_cases hsame : symbol = done.length
      · rw [hsame, List.getElem?_set_self (hsize ▸ hindex)]
      · rw [List.getElem?_set_ne fun heq => hsame (index_injective hcoded hcodedsymbol heq).symm]
        exact hsymbols symbol (by omega) hcodedsymbol

theorem placeSymbols_eq (rest : List Nat) : ∀ done symbols : List Nat, lengths = done ++ rest →
    Placed lengths symbols done.length →
    ∃ last, (rest.zipIdx done.length).foldlM placeSymbol (table (nextPlace lengths done), symbols)
        = .ok (table (nextPlace lengths lengths), last) ∧ Placed lengths last lengths.length := by
  induction rest with
  | nil =>
      intro done symbols hlengths hplaced
      rw [List.append_nil] at hlengths
      rw [← hlengths] at hplaced ⊢
      exact ⟨symbols, rfl, hplaced⟩
  | cons head rest ih =>
      intro done symbols hlengths hplaced
      obtain ⟨next, hstep, hnext⟩ := placeSymbol_eq h hlengths hplaced
      obtain ⟨last, hrest, hlast⟩ := ih (done ++ [head]) next
        (by rw [hlengths, List.append_assoc]; rfl) (by rwa [List.length_append])
      refine ⟨last, ?_, hlast⟩
      rw [List.zipIdx_cons, List.foldlM_cons, hstep, except_ok_bind]
      rwa [List.length_append] at hrest

/-- Lengths that leave room make a tree, empty or not. -/
theorem fromLengths_holds (allowEmpty : Bool)
    (hempty : allowEmpty = true ∨ ∃ symbol, length lengths symbol ≠ 0) :
    ∃ tree, fromLengths lengths allowEmpty = .ok tree ∧ tree.Holds lengths := by
  have hcounts := countLengths_of_le h.short h.length_le
  obtain ⟨available, havailable⟩ := takeCodes_eq h
  have hfirst : table (nextPlace lengths []) = table (below lengths) :=
    table_congr fun place _ => by rw [nextPlace, count_nil, Nat.add_zero]
  obtain ⟨symbols, hsymbols, -, hplaced⟩ := placeSymbols_eq h lengths []
    (List.replicate maxHuffmanSymbols 0) rfl ⟨List.length_replicate, fun _ hless => absurd hless (Nat.not_lt_zero _)⟩
  have hnonempty : ¬ (below lengths (maxCodeBits + 1) = 0 ∧ (!allowEmpty) = true) := by
    rintro ⟨hnone, hforbidden⟩
    rcases hempty with hallowed | ⟨symbol, hcoded⟩
    · rw [hallowed] at hforbidden
      exact absurd hforbidden (by decide)
    · have hindex := index_lt hcoded (Nat.lt_succ_of_le (h.length_le' symbol))
      exact Nat.not_lt_zero _ (hnone ▸ hindex)
  refine ⟨⟨table (count lengths), symbols, below lengths (maxCodeBits + 1)⟩, ?_,
    h.short, h.fits, h.length_le', rfl, rfl, ?_⟩
  · rw [fromLengths, if_neg (Nat.not_lt.mpr h.short), hcounts, except_ok_bind, drop_table,
      symbolCount_eq h, except_ok_bind, if_neg hnonempty, havailable, except_ok_bind,
      placeLengths_eq h, except_ok_bind]
    rw [hfirst, List.length_nil] at hsymbols
    show ((lengths.zipIdx 0).foldlM placeSymbol (table (below lengths), _) >>= _) = _
    rw [hsymbols, except_ok_bind]
    rfl
  · intro symbol hcoded
    exact hplaced symbol (getElem?_of_length_ne_zero hcoded).1 hcoded

end fromLengths

/-! ### What is accepted -/

theorem length_le_of_counted (lengths : List Nat) : ∀ counts counted : List Nat,
    lengths.foldlM countLength counts = .ok counted → ∀ length ∈ lengths, length ≤ maxCodeBits := by
  induction lengths with
  | nil =>
      intro counts counted _ length hmem
      exact absurd hmem List.not_mem_nil
  | cons head rest ih =>
      intro counts counted hcounted
      rw [List.foldlM_cons] at hcounted
      obtain ⟨next, hhead, hrest⟩ := except_bind_eq_ok.mp hcounted
      refine List.forall_mem_cons.mpr ⟨?_, ih next counted hrest⟩
      by_cases hlong : head > maxCodeBits
      · rw [countLength, if_pos hlong] at hhead
        exact absurd hhead (by simp)
      · exact Nat.not_lt.mp hlong

theorem takeCodes_eq_ok {available left : Int} {count : Nat}
    (h : takeCodes available count = .ok left) : left = available * 2 - count ∧ 0 ≤ left := by
  obtain ⟨rest, hrest, hleft⟩ := except_bind_eq_ok.mp h
  obtain ⟨double, hdouble, htake⟩ := Option.bind_eq_some_iff.mp (okOr_eq_ok.mp hrest)
  by_cases hless : rest < 0
  · rw [if_pos hless] at hleft
    exact absurd hleft (by simp)
  · rw [if_neg hless] at hleft
    obtain rfl : rest = left := Except.ok.inj hleft
    obtain ⟨-, rfl⟩ : _ ∧ available * 2 = double := by simpa [checkedI32] using hdouble
    obtain ⟨-, rfl⟩ : _ ∧ available * 2 - (count : Int) = rest := by simpa [checkedI32] using htake
    exact ⟨rfl, Int.not_lt.mp hless⟩

/-- Where codewords of every length can be taken there is room for all of them. -/
theorem fits_of_taken {lengths : List Nat} (n : Nat) : ∀ length available left,
    available = ((2 ^ length : Nat) : Int) - (first lengths length + count lengths length : Nat) →
    ((List.range' (length + 1) n).map (count lengths)).foldlM takeCodes available = .ok left →
    ∀ longer, length < longer → longer ≤ length + n →
      first lengths longer + count lengths longer ≤ 2 ^ longer := by
  induction n with
  | zero =>
      intro length available left _ _ longer hlonger hle
      omega
  | succ n ih =>
      intro length available left havailable hfold longer hlonger hle
      rw [List.range'_succ, List.map_cons, List.foldlM_cons] at hfold
      obtain ⟨next, htake, hrest⟩ := except_bind_eq_ok.mp hfold
      obtain ⟨hnext, hpos⟩ := takeCodes_eq_ok htake
      have hpow : 2 ^ (length + 1) = 2 ^ length * 2 := Nat.pow_succ _ _
      have hfirst : first lengths (length + 1) = 2 * (first lengths length + count lengths length) :=
        rfl
      have hstate : next = ((2 ^ (length + 1) : Nat) : Int)
          - (first lengths (length + 1) + count lengths (length + 1) : Nat) := by
        rw [hnext, havailable, hfirst, hpow]
        omega
      rcases Nat.lt_or_eq_of_le (show length + 1 ≤ longer from hlonger) with hlt | rfl
      · exact ih (length + 1) next left hstate hrest longer hlt (by omega)
      · omega

/-- Without a symbol that has a codeword there is none. -/
theorem below_eq_zero {lengths : List Nat} (h : ∀ symbol, length lengths symbol = 0) (limit : Nat) :
    below lengths limit = 0 := by
  induction limit with
  | zero => rfl
  | succ limit ih =>
      rw [below, ih, Nat.zero_add]
      refine Nat.eq_zero_of_not_pos fun hpos => ?_
      obtain ⟨symbol, hsymbol, hlimit, -⟩ := exists_index hpos
      exact hlimit (hsymbol ▸ h symbol)

/-- What is accepted leaves room, and has a codeword unless none is asked for. -/
theorem codable_of_fromLengths {lengths : List Nat} {allowEmpty : Bool} {tree : Huffman}
    (h : fromLengths lengths allowEmpty = .ok tree) :
    Codable lengths ∧ (allowEmpty = true ∨ ∃ symbol, length lengths symbol ≠ 0) := by
  by_cases hlarge : lengths.length > maxHuffmanSymbols
  · rw [fromLengths, if_pos hlarge] at h
    exact absurd h (by simp)
  · rw [fromLengths, if_neg hlarge] at h
    obtain ⟨counts, hcounts, h⟩ := except_bind_eq_ok.mp h
    obtain ⟨symbolCount, hsymbolCount, h⟩ := except_bind_eq_ok.mp h
    have hshort : lengths.length ≤ maxHuffmanSymbols := Nat.not_lt.mp hlarge
    have hle := length_le_of_counted lengths _ _ hcounts
    obtain rfl : table (count lengths) = counts := by
      have hcounted := countLengths_of_le hshort hle
      rw [hcounts] at hcounted
      exact (Except.ok.inj hcounted).symm
    by_cases hnone : symbolCount = 0 ∧ (!allowEmpty) = true
    · rw [if_pos hnone] at h
      exact absurd h (by simp)
    · rw [if_neg hnone] at h
      obtain ⟨available, havailable, -⟩ := except_bind_eq_ok.mp h
      rw [drop_table] at havailable hsymbolCount
      have hfits : Fits lengths maxCodeBits := by
        intro length hlength
        rcases Nat.eq_zero_or_pos length with rfl | hpos
        · exact Nat.zero_le _
        · exact fits_of_taken maxCodeBits 0 1 available rfl havailable length hpos (by omega)
      have hcodable : Codable lengths := ⟨hshort, hle, hfits⟩
      refine ⟨hcodable, ?_⟩
      rw [symbolCount_eq hcodable] at hsymbolCount
      obtain rfl := Except.ok.inj hsymbolCount
      by_contra hneither
      obtain ⟨hforbidden, hempty⟩ := not_or.mp hneither
      refine hnone ⟨below_eq_zero (fun symbol => ?_) _, ?_⟩
      · exact Decidable.not_not.mp fun hcoded => hempty ⟨symbol, hcoded⟩
      · rw [Bool.not_eq_true _ |>.mp hforbidden]
        rfl

/-- The code of accepted lengths is free of prefixes, its codewords are read as their
symbols, and no bits lead anywhere else; lengths that leave no room are not accepted. -/
theorem fromLengths_canonical (lengths : List Nat) (allowEmpty : Bool) :
    (∀ tree, fromLengths lengths allowEmpty = .ok tree →
      (∀ a b, length lengths a ≠ 0 → length lengths b ≠ 0 →
        codeword lengths a <+: codeword lengths b → a = b) ∧
      (∀ symbol, length lengths symbol ≠ 0 →
        Decodes tree.decode (codeword lengths symbol) symbol) ∧
      (∀ reader : BitReader, Valid reader → ∀ e, (tree.decode reader).result = .error e →
        e = formatError "truncated Deflate64 bitstream" ∨
          e = formatError "invalid Deflate64 Huffman code")) ∧
    (Oversubscribed lengths → ∃ e, fromLengths lengths allowEmpty = .error e) := by
  refine ⟨fun tree h => ?_, fun hover => ?_⟩
  · obtain ⟨hcodable, hempty⟩ := codable_of_fromLengths h
    obtain ⟨made, hmade, hholds⟩ := fromLengths_holds hcodable allowEmpty hempty
    obtain rfl : made = tree := Except.ok.inj (hmade.symm.trans h)
    refine ⟨fun a b ha hb => ?_, fun symbol hcoded => ?_, fun reader hreader e => ?_⟩
    · exact codeword_prefix_free hholds.fits hholds.length_le ha hb
    · exact decodes_decode hholds hcoded
    · exact decode_error hholds hreader
  · cases hmade : fromLengths lengths allowEmpty with
    | error e => exact ⟨e, rfl⟩
    | ok tree =>
        obtain ⟨hcodable, -⟩ := codable_of_fromLengths hmade
        exact absurd hover (not_oversubscribed hcodable.fits hcodable.length_le)

theorem fromLengths_canonical_three :
    (∃ tree, fromLengths [1, 2, 2] false = .ok tree ∧ Decodes tree.decode [true, false] 1) ∧
      ∃ e, fromLengths [1, 1, 1] false = .error e := by
  refine ⟨⟨_, rfl, ?_⟩, (fromLengths_canonical [1, 1, 1] false).2 ⟨1, by decide⟩⟩
  exact ((fromLengths_canonical [1, 2, 2] false).1 _ rfl).2.1 1 (by decide)

end Huffman

end Deflate64

end Un7z
