/-
The range decoder of LZMA undoes the range encoder.

A decoder with a wide range and a moderate probability never meets one of its arithmetic
checks: what a bit does is one of two narrowings, and a byte is read where the range has
become narrow.  That much holds of any input.

On the output of an encoder it also follows the interval of the bits coded so far, and so
finds the next one.  The probabilities of the contexts are those of the encoder, since both
adapt to the same bits.
-/
import Un7z.Lzma
import Un7z.Proofs.Bcj2Streams

namespace Un7z

namespace Lzma

open RangeCoder

/-- No probability is ever further from the middle than this. -/
def Moderate (probability : Nat) : Prop := 31 ≤ probability ∧ probability ≤ 2017

theorem moderate_initial : Moderate probInitial := ⟨by decide, by decide⟩

/-- A probability moves towards the bit that came. -/
theorem Moderate.towards {probability : Nat} (h : Moderate probability) :
    Moderate (probability + (2048 - probability) / 32) ∧
      Moderate (probability - probability / 32) := by
  obtain ⟨hlow, hhigh⟩ := h
  exact ⟨⟨by omega, by omega⟩, by omega, by omega⟩

theorem shiftCode_eq : shiftCode = Filters.shiftIn := rfl

namespace RangeDecoder

variable {decoder : RangeDecoder} {byte : UInt8} {probability : Nat}

/-! ### What a bit does -/

theorem readByte_of_some (hbyte : decoder.input[decoder.cursor]? = some byte)
    (hlength : decoder.input.length < 2 ^ 64) :
    (readByte decoder).result = .ok (byte, { decoder with cursor := decoder.cursor + 1 }) := by
  have hcursor : decoder.cursor < decoder.input.length := (List.getElem?_eq_some_iff.mp hbyte).1
  have hadd : checkedAdd 64 decoder.cursor 1 = some (decoder.cursor + 1) :=
    checkedAdd_of_lt (by omega)
  unfold readByte
  rw [Metered.result_bind_ok (result_checkpoint 1), hbyte,
    Metered.result_bind_ok (result_orFormat_some _ _), hadd,
    Metered.result_bind_ok (result_orFormat_some _ _)]
  rfl

theorem readByte_of_none (hbyte : decoder.input[decoder.cursor]? = none) :
    (readByte decoder).result = .error (formatError "truncated LZMA range stream") := by
  unfold readByte
  rw [Metered.result_bind_ok (result_checkpoint 1), hbyte]
  exact Metered.result_bind_error (result_orFormat_none _)

theorem normalize_of_wide (h : 2 ^ 24 ≤ decoder.range) :
    (normalize decoder).result = .ok ((), decoder) := by
  unfold normalize
  rw [Cursor.result_bind_ok (show ((get : StateT RangeDecoder Work RangeDecoder) decoder).result
    = .ok (decoder, decoder) from rfl), if_pos (show decoder.range ≥ topValue from h)]
  rfl

/-- Where the range is narrow, the outcome is that of reading a byte. -/
theorem normalize_of_narrow (h : decoder.range < 2 ^ 24) :
    (normalize decoder).result
      = (readByte { decoder with range := decoder.range * 256 }).result.map fun read =>
          ((), { read.2 with code := shiftCode read.2.code read.1 }) := by
  have hrange : (decoder.range <<< 8) % 2 ^ 32 = decoder.range * 256 := by
    rw [Nat.shiftLeft_eq]
    omega
  unfold normalize
  rw [Cursor.result_bind_ok (show ((get : StateT RangeDecoder Work RangeDecoder) decoder).result
    = .ok (decoder, decoder) from rfl),
    if_neg (show ¬ decoder.range ≥ topValue from Nat.not_le.mpr h), hrange]
  exact Metered.result_map _ _

/-- The bound of a bit lies within the range. -/
theorem bound_le (h : Moderate probability) :
    decoder.range / 2048 * probability ≤ decoder.range := by
  have hmax : decoder.range / 2048 * probability ≤ decoder.range / 2048 * 2017 :=
    Nat.mul_le_mul_left _ h.2
  omega

/-- A bit that is coded narrows the range to one side of the bound. -/
theorem result_decodeBit (hrange : decoder.range < 2 ^ 32) (h : Moderate probability) :
    (decodeBit probability decoder).result
      = if decoder.code < decoder.range / 2048 * probability then
          (normalize { decoder with range := decoder.range / 2048 * probability }).result.map
            fun next => ((0, probability + (2048 - probability) / 32), next.2)
        else
          (normalize { decoder with
              range := decoder.range - decoder.range / 2048 * probability
              code := decoder.code - decoder.range / 2048 * probability }).result.map
            fun next => ((1, probability - probability / 32), next.2) := by
  have hle := @bound_le decoder probability h
  have hlow : 31 ≤ probability := h.1
  have hhigh : probability ≤ 2017 := h.2
  have hbound : checkedMul 32 (decoder.range >>> probBits) probability
      = some (decoder.range / 2048 * probability) := by
    rw [probBits, Nat.shiftRight_eq_div_pow]
    exact checkedMul_of_lt (Nat.lt_of_le_of_lt hle hrange)
  unfold decodeBit
  rw [Cursor.result_bind_ok (show ((get : StateT RangeDecoder Work RangeDecoder) decoder).result
    = .ok (decoder, decoder) from rfl), hbound,
    Cursor.result_lift_bind (result_orFormat_some _ _)]
  split
  · have hdifference : checkedSub probTotal probability = some (2048 - probability) :=
      checkedSub_of_le (show probability ≤ 2048 by omega)
    have hsum : checkedAdd 16 probability ((2048 - probability) >>> moveBits)
        = some (probability + (2048 - probability) / 32) := by
      rw [moveBits, Nat.shiftRight_eq_div_pow]
      exact checkedAdd_of_lt (by omega)
    rw [hdifference, Cursor.result_lift_bind (result_orFormat_some _ _), hsum,
      Cursor.result_lift_bind (result_orFormat_some _ _)]
    exact Metered.result_map _ _
  · have hless : checkedSub probability (probability >>> moveBits)
        = some (probability - probability / 32) := by
      rw [moveBits, Nat.shiftRight_eq_div_pow]
      exact checkedSub_of_le (by omega)
    rw [checkedSub_of_le (by omega), Cursor.result_lift_bind (result_orFormat_some _ _),
      checkedSub_of_le hle, Cursor.result_lift_bind (result_orFormat_some _ _), hless,
      Cursor.result_lift_bind (result_orFormat_some _ _)]
    exact Metered.result_map _ _

/-- A direct bit halves it. -/
theorem result_decodeDirectBit (decoder : RangeDecoder) :
    (decodeDirectBit decoder).result
      = if decoder.range / 2 ≤ decoder.code then
          (normalize { decoder with
              range := decoder.range / 2
              code := decoder.code - decoder.range / 2 }).result.map fun next => (1, next.2)
        else
          (normalize { decoder with range := decoder.range / 2 }).result.map
            fun next => (0, next.2) := by
  have hhalf : decoder.range >>> 1 = decoder.range / 2 := Nat.shiftRight_eq_div_pow _ 1
  unfold decodeDirectBit
  rw [Cursor.result_bind_ok (show ((get : StateT RangeDecoder Work RangeDecoder) decoder).result
    = .ok (decoder, decoder) from rfl), hhalf]
  split
  · rename_i hcode
    rw [checkedSub_of_le hcode, Cursor.result_lift_bind (result_orFormat_some _ _)]
    exact Metered.result_map _ _
  · exact Metered.result_map _ _

/-! ### Following an encoder -/

/-- The decoder follows the interval `s` of the written number. -/
structure At (decoder : RangeDecoder) (s : Interval) (n number : Nat) : Prop where
  follows : Follows s n number decoder.code (decoder.input.drop decoder.cursor)
  range_eq : decoder.range = s.range
  cursor_le : decoder.cursor ≤ decoder.input.length

variable {s : Interval} {n number : Nat} {ι : Type} {m : Model ι} {tag : Tag ι} {bit : Bool}

/-- The new range and code, up to the byte that may still have to be read. -/
theorem At.normalize (h : decoder.At s n number) (hlength : decoder.input.length < 2 ^ 64)
    (hwide : s.Wide) (hm : m.Moderate) (hcode : (s.code m tag bit).Holds n number) :
    ∃ next, (normalize { decoder with
        range := m.width s.range tag bit
        code := decoder.code - m.offset s.range tag bit }).result = .ok ((), next) ∧
      next.At (s.code m tag bit) n number ∧ next.input = decoder.input := by
  obtain ⟨hlow, hhigh, hnext⟩ := h.follows.code hwide hm hcode
  have hrange := Interval.range_code s m tag bit
  by_cases hnarrow : m.width s.range tag bit < 2 ^ 24
  · rw [if_pos hnarrow] at hnext hrange
    obtain ⟨byte, tail, hrest, hfollows⟩ := hnext
    have hbyte : decoder.input[decoder.cursor]? = some byte := by
      rw [← Nat.add_zero decoder.cursor, ← List.getElem?_drop, hrest]
      rfl
    have htail : decoder.input.drop (decoder.cursor + 1) = tail := by
      rw [← List.drop_drop, hrest]
      rfl
    refine ⟨⟨decoder.input, decoder.cursor + 1, m.width s.range tag bit * 256,
      shiftCode (decoder.code - m.offset s.range tag bit) byte⟩, ?_, ⟨?_, hrange.symm, ?_⟩, rfl⟩
    · have hread := @readByte_of_some ⟨decoder.input, decoder.cursor, m.width s.range tag bit * 256,
        decoder.code - m.offset s.range tag bit⟩ byte hbyte hlength
      exact (normalize_of_narrow hnarrow).trans (congrArg _ hread)
    · show Follows _ n number (shiftCode (decoder.code - m.offset s.range tag bit) byte)
        (decoder.input.drop (decoder.cursor + 1))
      rwa [htail, shiftCode_eq, Filters.shiftIn_eq (by omega)]
    · exact (List.getElem?_eq_some_iff.mp hbyte).1
  · rw [if_neg hnarrow] at hnext hrange
    exact ⟨_, normalize_of_wide (Nat.not_lt.mp hnarrow), ⟨hnext, hrange.symm, h.cursor_le⟩, rfl⟩

/-- The bytes of the code. -/
theorem result_readCode (word : Bytes) {rest : Bytes} (hlength : decoder.input.length < 2 ^ 64)
    (hrest : decoder.input.drop decoder.cursor = word ++ rest) :
    (readCode word.length decoder).result = .ok ((), { decoder with
      cursor := decoder.cursor + word.length
      code := word.foldl shiftCode decoder.code }) := by
  induction word generalizing decoder with
  | nil => rfl
  | cons byte word ih =>
      have hbyte : decoder.input[decoder.cursor]? = some byte := by
        rw [← Nat.add_zero decoder.cursor, ← List.getElem?_drop, hrest]
        rfl
      have hnext : decoder.input.drop (decoder.cursor + 1) = word ++ rest := by
        rw [← List.drop_drop, hrest]
        rfl
      have htail := @ih ⟨decoder.input, decoder.cursor + 1, decoder.range,
        shiftCode decoder.code byte⟩ hlength hnext
      rw [List.length_cons, readCode, Cursor.result_bind_ok (readByte_of_some hbyte hlength)]
      refine htail.trans ?_
      rw [List.foldl_cons, Nat.add_assoc, Nat.add_comm 1]

end RangeDecoder

/-! ### A sequence of bits -/

section tags

variable {ι : Type} [DecidableEq ι]

/-- A bit is decoded under its tag, with the probabilities of all contexts at hand. -/
def decodeTag : Tag ι → StateT (RangeDecoder × (ι → Nat)) Work Nat
  | .coded context => fun (decoder, probabilities) => do
      let ((bit, probability), decoder) ← RangeDecoder.decodeBit (probabilities context) decoder
      pure (bit, decoder, Function.update probabilities context probability)
  | .direct => fun (decoder, probabilities) => do
      let (bit, decoder) ← RangeDecoder.decodeDirectBit decoder
      pure (bit, decoder, probabilities)

def decodeTags : List (Tag ι) → StateT (RangeDecoder × (ι → Nat)) Work (List Nat)
  | [] => pure []
  | tag :: rest => do
      let bit ← decodeTag tag
      let bits ← decodeTags rest
      pure (bit :: bits)

variable {decoder : RangeDecoder} {s : Interval} {n number : Nat} {m : Model ι} {tag : Tag ι}
  {bit : Bool}

/-- The next bit is found. -/
theorem decodeTag_at (h : decoder.At s n number) (hlength : decoder.input.length < 2 ^ 64)
    (hwide : s.Wide) (hm : m.Moderate) (hcode : (s.code m tag bit).Holds n number) :
    ∃ next, (decodeTag tag (decoder, m)).result = .ok (bit.toNat, next, m.adapt tag bit) ∧
      next.At (s.code m tag bit) n number ∧ next.input = decoder.input := by
  obtain ⟨hlow, hhigh, -⟩ := h.follows.code hwide hm hcode
  obtain ⟨next, hnext, hat, hinput⟩ := h.normalize hlength hwide hm hcode
  refine ⟨next, ?_, hat, hinput⟩
  have hrange := h.range_eq
  cases tag with
  | coded context =>
      have hword : decoder.range < 2 ^ 32 := hrange.symm ▸ hwide.2
      have hdecode := RangeDecoder.result_decodeBit hword (hm context)
      rw [hrange] at hdecode
      refine Metered.bind_eq_ok.mpr ?_
      cases bit with
      | false =>
          have hcase : decoder.code < s.range / 2048 * m context := by
            have hzero : m.offset s.range (.coded context) false = 0 := rfl
            rwa [hzero, Nat.zero_add] at hhigh
          rw [if_pos hcase] at hdecode
          exact ⟨_, hdecode.trans (congrArg _ hnext), rfl⟩
      | true =>
          have hcase : s.range / 2048 * m context ≤ decoder.code := hlow
          rw [if_neg (Nat.not_lt.mpr hcase)] at hdecode
          exact ⟨_, hdecode.trans (congrArg _ hnext), rfl⟩
  | direct =>
      have hdecode := RangeDecoder.result_decodeDirectBit decoder
      rw [hrange] at hdecode
      refine Metered.bind_eq_ok.mpr ?_
      cases bit with
      | false =>
          have hcase : decoder.code < s.range / 2 := by
            have hzero : m.offset s.range (.direct : Tag ι) false = 0 := rfl
            rwa [hzero, Nat.zero_add] at hhigh
          rw [if_neg (Nat.not_le.mpr hcase)] at hdecode
          exact ⟨_, hdecode.trans (congrArg _ hnext), rfl⟩
      | true =>
          have hcase : s.range / 2 ≤ decoder.code := hlow
          rw [if_pos hcase] at hdecode
          exact ⟨_, hdecode.trans (congrArg _ hnext), rfl⟩

/-- And so are all bits of a list. -/
theorem decodeTags_at {bits : List (Tag ι × Bool)} (h : decoder.At s n number)
    (hlength : decoder.input.length < 2 ^ 64) (hwide : s.Wide) (hm : m.Moderate)
    (hcode : (s.codeAll m bits).Holds n number) :
    ∃ next probabilities, (decodeTags (bits.map Prod.fst) (decoder, m)).result
        = .ok (bits.map fun bit => bit.2.toNat, next, probabilities) ∧
      next.At (s.codeAll m bits) n number ∧ next.input = decoder.input := by
  induction bits generalizing decoder s m with
  | nil => exact ⟨decoder, m, rfl, h, rfl⟩
  | cons head rest ih =>
      have hwide' := hwide.code hm head.1 head.2
      have hm' := hm.adapt head.1 head.2
      obtain ⟨next, hnext, hat, hinput⟩ := decodeTag_at h hlength hwide hm
        (Interval.holds_of_codeAll hwide' hm' hcode)
      obtain ⟨last, probabilities, hlast, hat, hsame⟩ := ih hat (by rwa [hinput]) hwide' hm' hcode
      refine ⟨last, probabilities, ?_, hat, hsame.trans hinput⟩
      rw [List.map_cons, decodeTags, Cursor.result_bind_ok hnext, Cursor.result_bind_ok hlast]
      rfl

/-- The decoder starts by reading the first five digits of the number. -/
theorem new_at {bits : List (Tag ι × Bool)} (hlength : (encode bits).length < 2 ^ 64) :
    ∃ decoder n number, (RangeDecoder.new (encode bits)).result = .ok decoder ∧
      decoder.input = encode bits ∧ decoder.At Interval.start n number ∧
      (Interval.start.codeAll Model.start bits).Holds n number := by
  obtain ⟨n, number, hencode, hn, hholds⟩ := encode_eq bits
  obtain ⟨hdigits, hword, hfollows⟩ := follows_start
    (Interval.holds_of_codeAll Interval.wide_start Model.moderate_start hholds)
  have hbytes : encode bits = 0 :: (digits 4 (number / 256 ^ n) ++ digits n number) :=
    hencode.trans hdigits
  have hfirst := @RangeDecoder.readByte_of_some ⟨encode bits, 0, 2 ^ 32 - 1, 0⟩ 0
    (by rw [hbytes]; rfl) hlength
  have hrest : (encode bits).drop 1 = digits 4 (number / 256 ^ n) ++ digits n number := by
    rw [hbytes]
    rfl
  have hcode := @RangeDecoder.result_readCode ⟨encode bits, 1, 2 ^ 32 - 1, 0⟩
    (digits 4 (number / 256 ^ n)) _ hlength hrest
  have hvalue : (digits 4 (number / 256 ^ n)).foldl shiftCode 0 = number / 256 ^ n := by
    have hfour : number / 256 ^ n < 256 ^ 4 := hword
    have hdigit : value (digits 4 (number / 256 ^ n)) = number / 256 ^ n := by
      rw [value_digits, Nat.mod_eq_of_lt hfour]
    rw [shiftCode_eq, Filters.foldl_shiftIn _ 0 (by omega), hdigit]
    omega
  rw [length_digits, hvalue] at hcode
  refine ⟨⟨encode bits, 5, 2 ^ 32 - 1, number / 256 ^ n⟩, n, number, ?_, rfl, ⟨?_, rfl, ?_⟩, hholds⟩
  · unfold RangeDecoder.new
    rw [Metered.result_bind_ok hfirst]
    show ((RangeDecoder.readCode 4 ⟨encode bits, 1, 2 ^ 32 - 1, 0⟩) >>= _).result = _
    rw [Metered.result_bind_ok hcode]
    exact congrArg Metered.result (if_neg (Nat.not_le.mpr hfollows.code_lt))
  · have hfive : (encode bits).drop 5 = digits n number := by
      rw [show 5 = 1 + 4 from rfl, ← List.drop_drop, hrest]
      exact List.drop_left' (length_digits 4 _)
    show Follows _ n number _ ((encode bits).drop 5)
    rwa [hfive]
  · show 5 ≤ (encode bits).length
    rw [hencode, length_digits]
    exact Nat.le_add_left _ _

/-- What was encoded is decoded, within what was written, and the code stays within the range. -/
theorem decodeTags_encode (bits : List (Tag ι × Bool)) (hlength : (encode bits).length < 2 ^ 64) :
    ∃ decoder, (RangeDecoder.new (encode bits)).result = .ok decoder ∧
      decoder.code < decoder.range ∧
      ∀ done rest, bits = done ++ rest → ∃ next probabilities,
        (decodeTags (done.map Prod.fst) (decoder, fun _ => probInitial)).result
          = .ok (done.map fun bit => bit.2.toNat, next, probabilities) ∧
        next.input = encode bits ∧ next.cursor ≤ (encode bits).length ∧ next.code < next.range := by
  obtain ⟨decoder, n, number, hnew, hinput, hat, hholds⟩ := new_at hlength
  refine ⟨decoder, hnew, hat.range_eq.symm ▸ hat.follows.code_lt, ?_⟩
  intro done rest hbits
  have hdone : (Interval.start.codeAll Model.start done).Holds n number := by
    rw [hbits] at hholds
    exact Interval.holds_of_codeAll_append Interval.wide_start Model.moderate_start hholds
  obtain ⟨next, probabilities, hnext, hat, hsame⟩ := decodeTags_at hat (by rwa [hinput])
    Interval.wide_start Model.moderate_start hdone
  have hwhole : next.input = encode bits := hsame.trans hinput
  exact ⟨next, probabilities, hnext, hwhole, hwhole ▸ hat.cursor_le,
    hat.range_eq.symm ▸ hat.follows.code_lt⟩

/-- Five bits under two contexts, one of them direct. -/
theorem decodeTags_encode_five :
    let bits : List (Tag (Fin 2) × Bool) := [(.coded 0, true), (.coded 1, false), (.direct, true),
      (.coded 0, true), (.coded 0, false)]
    ∃ decoder, (RangeDecoder.new (encode bits)).result = .ok decoder ∧
      decoder.code < decoder.range ∧
      ∀ done rest, bits = done ++ rest → ∃ next probabilities,
        (decodeTags (done.map Prod.fst) (decoder, fun _ => probInitial)).result
          = .ok (done.map fun bit => bit.2.toNat, next, probabilities) ∧
        next.input = encode bits ∧ next.cursor ≤ (encode bits).length ∧ next.code < next.range :=
  decodeTags_encode _ (by decide +kernel)

end tags

end Lzma

end Un7z
