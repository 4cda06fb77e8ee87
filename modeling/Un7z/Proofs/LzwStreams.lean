/-
Unix `compress` decoding undoes coding.

The reader stands in a group of which so many codes are read, or at the end of one, and in
both cases what it shows are the bits that are left (`CodeReader.Within`, `CodeReader.Before`).
-/
import Un7z.LzwCoding
import Un7z.Proofs.LzwSafety
import Un7z.Proofs.StreamContents

namespace Un7z

namespace UnixCompress

open BitString (lsb ofLsb ofBytes digit)

/-! ### Codes -/

namespace CodeReader

variable {reader : CodeReader} {width : Nat}

theorem digit_of_shifted (byte : UInt8) {place : Nat} (h : place < 8) :
    ((byte >>> UInt8.ofNat place) &&& 1).toNat
      = digit (decide (byte.toNat / 2 ^ place % 2 = 1)) := by
  rw [BitString.digit_mod_two, UInt8.toNat_and, UInt8.toNat_shiftRight, UInt8.toNat_ofNat',
    Nat.mod_eq_of_lt (show place < 2 ^ 8 by omega), Nat.mod_eq_of_lt h, Nat.shiftRight_eq_div_pow]
  exact Nat.and_one_is_mod _

/-- The bits that are gathered are those of the group from the offset on. -/
theorem gatherBits_eq {group : Bytes} {bitOffset : Nat} (count : Nat) :
    ∀ {outputBit value : Nat}, bitOffset + outputBit + count ≤ 8 * group.length →
      bitOffset + outputBit + count < 2 ^ 64 → outputBit + count ≤ 32 → value < 2 ^ outputBit →
      (gatherBits group bitOffset count outputBit value).result
        = .ok (value + 2 ^ outputBit * ofLsb (((ofBytes group).drop (bitOffset + outputBit)).take count)) := by
  induction count with
  | zero =>
      intro outputBit value _ _ _ _
      rw [List.take_zero]
      rfl
  | succ count ih =>
      intro outputBit value hgroup hlt hwidth hvalue
      have hbyte : (bitOffset + outputBit) / 8 < group.length := by omega
      have hplace : bitOffset + outputBit < (ofBytes group).length := by
        rw [BitString.length_ofBytes]
        omega
      have hfirst := BitString.getElem?_ofBytes group (bitOffset + outputBit)
      rw [List.getElem?_eq_getElem hplace, List.getElem?_eq_getElem hbyte, Option.map_some,
        Option.some.injEq] at hfirst
      have hdigit := digit_of_shifted group[(bitOffset + outputBit) / 8]
        (Nat.mod_lt (bitOffset + outputBit) (by decide))
      have hbit := BitString.digit_lt (ofBytes group)[bitOffset + outputBit]
      rw [List.drop_eq_getElem_cons hplace, List.take_succ_cons, ofLsb]
      rw [gatherBits, result_orRefuse_bind (checkedAdd_of_lt (by omega)),
        result_orRefuse_bind (List.getElem?_eq_getElem hbyte), hdigit, ← hfirst,
        result_orRefuse_bind (checkedShl_of_lt (by omega))]
      generalize digit (ofBytes group)[bitOffset + outputBit] = bit at hbit
      have hshift : (bit <<< outputBit) % 2 ^ 32 = 2 ^ outputBit * bit := by
        rw [Nat.shiftLeft_eq, Nat.mul_comm]
        refine Nat.mod_eq_of_lt ?_
        calc 2 ^ outputBit * bit < 2 ^ outputBit * 2 := Nat.mul_lt_mul_of_pos_left hbit (Nat.two_pow_pos _)
          _ = 2 ^ (outputBit + 1) := (Nat.pow_succ _ _).symm
          _ ≤ 2 ^ 32 := Nat.pow_le_pow_right (by decide) (by omega)
      have hor : value ||| (bit <<< outputBit) % 2 ^ 32 = value + 2 ^ outputBit * bit := by
        rw [hshift, Nat.or_comm, ← Nat.two_pow_add_eq_or_of_lt hvalue, Nat.add_comm]
      have hnext : value + 2 ^ outputBit * bit < 2 ^ (outputBit + 1) := by
        have hle : 2 ^ outputBit * bit ≤ 2 ^ outputBit * 1 := Nat.mul_le_mul_left _ (by omega)
        rw [Nat.pow_succ]
        omega
      rw [hor, ih (by omega) (by omega) (by omega) hnext, Nat.mul_add, ← Nat.mul_assoc,
        ← Nat.pow_succ, Nat.add_assoc, Nat.add_assoc]

/-- These bits are left from the next group on, with less than a byte behind them. -/
structure Before (bits : List Bool) (reader : CodeReader) : Prop where
  input_lt : reader.input.length < 2 ^ 64
  position_le : reader.position ≤ reader.input.length
  bits : ∃ padding, padding.length < 8 ∧
    ofBytes (reader.input.drop reader.position) = bits ++ padding

/-- So many codes of the group are read, and these bits are left. -/
structure Within (width filled : Nat) (bits : List Bool) (reader : CodeReader) : Prop where
  input_lt : reader.input.length < 2 ^ 64
  start_le : reader.groupStart ≤ reader.input.length
  groupLength_eq : reader.groupLength = min (reader.input.length - reader.groupStart) width
  position_eq : reader.position = reader.groupStart + reader.groupLength
  bitOffset_eq : reader.bitOffset = filled * width
  bitOffset_le : filled * width ≤ 8 * reader.groupLength
  validBits_eq : reader.validBits = 8 * reader.groupLength / width * width
  filled_le : filled ≤ 8
  bits : ∃ padding, padding.length < 8 ∧
    (ofBytes (reader.input.drop reader.groupStart)).drop (filled * width) = bits ++ padding

theorem before_new {input : Bytes} {bits padding : List Bool} (hinput : input.length < 2 ^ 64)
    (hpadding : padding.length < 8) (hbits : ofBytes input = bits ++ padding) :
    (new input).Before bits :=
  ⟨hinput, Nat.zero_le _, padding, hpadding, hbits⟩

/-- All that is left of the input from the group on. -/
theorem Within.length {filled : Nat} {bits : List Bool} (h : reader.Within width filled bits) :
    ∃ padding < 8, 8 * (reader.input.length - reader.groupStart)
      = filled * width + bits.length + padding := by
  obtain ⟨padding, hpadding, hbits⟩ := h.bits
  have hlength := congrArg List.length hbits
  rw [List.length_drop, BitString.length_ofBytes, List.length_drop, List.length_append] at hlength
  have hoffset := h.bitOffset_le
  have hgroup := h.groupLength_eq
  exact ⟨padding.length, hpadding, by omega⟩

/-- A new group has all of the bits before it. -/
theorem Before.refill {bits : List Bool} (h : reader.Before bits) (hpos : 0 < width)
    (hwidth : width ≤ 16) (hbits : width ≤ bits.length) :
    ∃ next, (reader.refill width).result = .ok (true, next) ∧ next.Within width 0 bits := by
  obtain ⟨padding, hpadding, heq⟩ := h.bits
  have hinput := h.input_lt
  have hposition := h.position_le
  have hlength := congrArg List.length heq
  rw [BitString.length_ofBytes, List.length_drop, List.length_append] at hlength
  have hmore : (reader.input.drop reader.position).isEmpty = false := by
    rw [List.isEmpty_eq_false_iff, ne_eq, List.drop_eq_nil_iff]
    omega
  generalize hgroup : min (reader.input.drop reader.position).length width = length
  have hgroup' := hgroup
  rw [List.length_drop] at hgroup'
  have hcodes : 1 ≤ length * 8 / width := by
    rw [Nat.le_div_iff_mul_le hpos]
    omega
  have hvalid : length * 8 / width * width ≤ length * 8 := Nat.div_mul_le_self _ _
  have hresult : (reader.refill width).result = .ok (true, { reader with
      position := reader.position + length, groupStart := reader.position, groupLength := length,
      bitOffset := 0, validBits := length * 8 / width * width }) := by
    have hready : decide (length * 8 / width ≠ 0) = true := decide_eq_true (by omega)
    rw [CodeReader.refill, if_neg (by omega)]
    dsimp only
    rw [hmore, if_neg (by decide), hgroup,
      result_orRefuse_bind (checkedAdd_of_lt (by omega)),
      result_orRefuse_bind (checkedMul_of_lt (by omega)), if_neg (by omega),
      result_orRefuse_bind (checkedMul_of_lt (by omega)), hready]
    rfl
  exact ⟨_, hresult, {
    input_lt := hinput
    start_le := hposition
    groupLength_eq := hgroup'.symm
    position_eq := rfl
    bitOffset_eq := (Nat.zero_mul width).symm
    bitOffset_le := by rw [Nat.zero_mul]; exact Nat.zero_le _
    validBits_eq := by rw [Nat.mul_comm 8]
    filled_le := Nat.zero_le _
    bits := ⟨padding, hpadding, by rw [Nat.zero_mul]; exact heq⟩ }⟩

/-- The group holds the whole of a code that is left. -/
theorem Within.code_fits {filled : Nat} {bits : List Bool} (hlt : filled < 8)
    (hbits : width ≤ bits.length) (h : reader.Within width filled bits) :
    (filled + 1) * width ≤ 8 * reader.groupLength := by
  obtain ⟨count, hcount, hlength⟩ := h.length
  have hgroup := h.groupLength_eq
  have hmore : (filled + 1) * width ≤ 8 * width := Nat.mul_le_mul_right _ hlt
  have hsucc : (filled + 1) * width = filled * width + width := Nat.succ_mul _ _
  omega

theorem Within.readCode {filled number : Nat} {rest : List Bool} (hwidth : width ≤ 16)
    (hnumber : number < 2 ^ width) (hlt : filled < 8)
    (h : reader.Within width filled (lsb width number ++ rest)) :
    ∃ next, (reader.readCode width).result = .ok (number, next) ∧
      next.Within width (filled + 1) rest := by
  obtain ⟨padding, hpadding, heq⟩ := h.bits
  have hinput := h.input_lt
  have hstart := h.start_le
  have hgroup := h.groupLength_eq
  have hsucc : (filled + 1) * width = filled * width + width := Nat.succ_mul _ _
  have hin : (filled + 1) * width ≤ 8 * reader.groupLength := h.code_fits hlt (by
    rw [List.length_append, BitString.length_lsb]
    exact Nat.le_add_right _ _)
  have hshort : number < 2 ^ 16 := Nat.lt_of_lt_of_le hnumber (Nat.pow_le_pow_right (by decide) hwidth)
  have hbits : ((ofBytes ((reader.input.drop reader.groupStart).take reader.groupLength)).drop
      (filled * width)).take width = lsb width number := by
    have hsplit : ofBytes (reader.input.drop reader.groupStart)
        = ofBytes ((reader.input.drop reader.groupStart).take reader.groupLength)
          ++ ofBytes ((reader.input.drop reader.groupStart).drop reader.groupLength) := by
      rw [← BitString.ofBytes_append, List.take_append_drop]
    have htaken : (ofBytes ((reader.input.drop reader.groupStart).take reader.groupLength)).length
        = 8 * reader.groupLength := by
      rw [BitString.length_ofBytes, List.length_take, List.length_drop]
      omega
    rw [hsplit, List.drop_append_of_le_length (by omega), List.append_assoc] at heq
    have htake := congrArg (List.take width) heq
    rwa [List.take_append_of_le_length (by rw [List.length_drop]; omega),
      List.take_left' (BitString.length_lsb width number)] at htake
  have hcode : (gatherBits ((reader.input.drop reader.groupStart).take reader.groupLength)
      reader.bitOffset width 0 0).result = .ok number := by
    have htaken : ((reader.input.drop reader.groupStart).take reader.groupLength).length
        = reader.groupLength := by
      rw [List.length_take, List.length_drop]
      omega
    rw [h.bitOffset_eq, gatherBits_eq width (by rw [htaken]; omega) (by omega) (by omega) (by decide),
      Nat.add_zero, hbits, BitString.ofLsb_lsb, Nat.mod_eq_of_lt hnumber, Nat.pow_zero, Nat.one_mul,
      Nat.zero_add]
  have hoffset := h.bitOffset_eq
  refine ⟨{ reader with bitOffset := reader.bitOffset + width }, ?_, { h with
    bitOffset_eq := ?_, bitOffset_le := hin, filled_le := hlt, bits := ⟨padding, hpadding, ?_⟩ }⟩
  · rw [CodeReader.readCode, result_orRefuse_bind (checkedAdd_of_lt (by omega)), if_neg (by omega),
      Metered.result_bind_ok hcode, result_orRefuse_bind (checkedAdd_of_lt (by omega)),
      result_orRefuse_bind (tryFrom_of_lt hshort)]
    rfl
  · rw [hsucc, ← hoffset]
  · rw [hsucc, ← List.drop_drop, heq, List.append_assoc,
      List.drop_left' (BitString.length_lsb width number)]

/-- A group that is filled up is at its end. -/
theorem Within.before {filled : Nat} {rest : List Bool}
    (h : reader.Within width filled (Coding.fill width filled ++ rest)) : reader.Before rest := by
  obtain ⟨padding, hpadding, heq⟩ := h.bits
  obtain ⟨count, hcount, hlength⟩ := h.length
  have hfilled : filled * width + (8 - filled) * width = 8 * width := by
    rw [← Nat.add_mul, Nat.add_sub_cancel' h.filled_le]
  have hfill : (Coding.fill width filled).length = (8 - filled) * width := List.length_replicate
  rw [List.length_append, hfill] at hlength
  have hstart := h.start_le
  have hgroup := h.groupLength_eq
  have hposition : reader.position = reader.groupStart + width := by
    rw [h.position_eq]
    omega
  refine ⟨h.input_lt, by omega, padding, hpadding, ?_⟩
  rw [hposition, ← List.drop_drop, ← BitString.drop_ofBytes, ← hfilled, ← List.drop_drop, heq,
    List.append_assoc, List.drop_left' hfill]

/-- Where the reader stands: at the end of a group, or in one of which some codes are read. -/
inductive Stands (width : Nat) : (force : Bool) → (filled : Nat) → List Bool → CodeReader → Prop
  | before {force : Bool} {bits : List Bool} {reader : CodeReader} (h : reader.Before bits)
      (hdone : force = true ∨ reader.validBits ≤ reader.bitOffset) : Stands width force 0 bits reader
  | within {filled : Nat} {bits : List Bool} {reader : CodeReader} (h : reader.Within width filled bits)
      (hpos : 0 < filled) (hlt : filled < 8) : Stands width false filled bits reader

theorem Within.stands {filled : Nat} {bits : List Bool} (hpos : 0 < filled)
    (h : reader.Within width filled bits) : reader.Stands width false (filled % 8) bits := by
  rcases Nat.lt_or_eq_of_le h.filled_le with hlt | rfl
  · rw [Nat.mod_eq_of_lt hlt]
    exact .within h hpos hlt
  · have hgroup := h.groupLength_eq
    have hoffset := h.bitOffset_eq
    have hvalid : 8 * reader.groupLength / width * width ≤ 8 * reader.groupLength :=
      Nat.div_mul_le_self _ _
    rw [← h.validBits_eq] at hvalid
    have hfill : Coding.fill width 8 = [] := by
      rw [Coding.fill, Nat.sub_self, Nat.zero_mul, List.replicate_zero]
    have hbefore : reader.Before bits := by
      refine @Within.before reader width 8 bits ?_
      rwa [hfill]
    exact .before hbefore (Or.inr (by omega))

/-- **A code** is read wherever the reader stands. -/
theorem Stands.nextCode {force : Bool} {filled number : Nat} {rest : List Bool} (hpos : 0 < width)
    (hwidth : width ≤ 16) (hnumber : number < 2 ^ width)
    (h : reader.Stands width force filled (lsb width number ++ rest)) :
    ∃ next, (reader.nextCode width force).result = .ok (some number, next) ∧
      next.Within width (filled + 1) rest := by
  cases h with
  | before h hdone =>
      obtain ⟨group, hgroup, hwithin⟩ := h.refill hpos hwidth (by
        rw [List.length_append, BitString.length_lsb]
        exact Nat.le_add_right _ _)
      obtain ⟨next, hnext, hafter⟩ := hwithin.readCode hwidth hnumber (by decide)
      refine ⟨next, ?_, hafter⟩
      rw [CodeReader.nextCode, if_pos hdone, Metered.result_bind_ok hgroup]
      show (group.readCode width >>= _).result = _
      rw [Metered.result_bind_ok hnext]
      rfl
  | within h hfilled hlt =>
      obtain ⟨next, hnext, hafter⟩ := h.readCode hwidth hnumber hlt
      have hmore : ¬ (false = true ∨ reader.bitOffset ≥ reader.validBits) := by
        have hcodes : filled + 1 ≤ 8 * reader.groupLength / width := by
          rw [Nat.le_div_iff_mul_le hpos]
          exact h.code_fits hlt (by
            rw [List.length_append, BitString.length_lsb]
            exact Nat.le_add_right _ _)
        have hvalid : (filled + 1) * width ≤ 8 * reader.groupLength / width * width :=
          Nat.mul_le_mul_right _ hcodes
        rw [Nat.succ_mul, ← h.validBits_eq, ← h.bitOffset_eq] at hvalid
        exact not_or.mpr ⟨by decide, by omega⟩
      refine ⟨next, ?_, hafter⟩
      rw [CodeReader.nextCode, if_neg hmore, Metered.result_bind_ok rfl]
      show (reader.readCode width >>= _).result = _
      rw [Metered.result_bind_ok hnext]
      rfl

/-- At the end there is no code, wherever the reader stands. -/
theorem Stands.nextCode_nil {force : Bool} {filled : Nat} (hwidth : 8 ≤ width)
    (h : reader.Stands width force filled []) :
    (reader.nextCode width force).result = .ok (none, reader) := by
  have hend : ∀ {force : Bool}, force = true ∨ reader.validBits ≤ reader.bitOffset →
      reader.position = reader.input.length →
      (reader.nextCode width force).result = .ok (none, reader) := by
    intro force hdone hposition
    have hempty : (reader.input.drop reader.position).isEmpty = true := by
      rw [List.isEmpty_iff, List.drop_eq_nil_iff]
      exact Nat.le_of_eq hposition.symm
    have hrefill : (reader.refill width).result = .ok (false, reader) := by
      rw [CodeReader.refill, if_neg (by omega)]
      dsimp only
      rw [if_pos hempty]
      rfl
    rw [CodeReader.nextCode, if_pos hdone, Metered.result_bind_ok hrefill]
    rfl
  cases h with
  | before h hdone =>
      obtain ⟨padding, hpadding, heq⟩ := h.bits
      have hlength := congrArg List.length heq
      rw [BitString.length_ofBytes, List.length_drop, List.nil_append] at hlength
      have hposition := h.position_le
      exact hend hdone (by omega)
  | within h hfilled hlt =>
      obtain ⟨count, hcount, hlength⟩ := h.length
      have hstart := h.start_le
      have hgroup := h.groupLength_eq
      have hfits : filled * width + width ≤ 8 * width := by
        rw [← Nat.succ_mul]
        exact Nat.mul_le_mul_right _ hlt
      -- what is behind the last code is no code, so the group is as long as its codes
      have hcodes : 8 * reader.groupLength / width = filled := by
        rw [Nat.div_eq_iff (by omega)]
        rw [List.length_nil] at hlength
        have hsucc : filled * width + width = (filled + 1) * width := (Nat.succ_mul _ _).symm
        omega
      refine hend (Or.inr ?_) ?_
      · exact Nat.le_of_eq (by rw [h.validBits_eq, hcodes, h.bitOffset_eq])
      · rw [h.position_eq]
        rw [List.length_nil] at hlength
        omega

end CodeReader

/-! ### The dictionary -/

/-- The phrase of a number: the entries of the table lead down to a literal. -/
inductive Spells (prefixes : List Nat) (suffixes : Bytes) : Nat → Bytes → Prop
  | literal (byte : UInt8) : Spells prefixes suffixes byte.toNat [byte]
  | entry {number previous : Nat} {phrase : Bytes} {byte : UInt8} (hentry : 255 < number)
      (hlt : previous < number) (hlink : prefixes[number]? = some previous)
      (hsuffix : suffixes[number]? = some byte) (h : Spells prefixes suffixes previous phrase) :
      Spells prefixes suffixes number (phrase ++ [byte])

namespace Spells

variable {prefixes : List Nat} {suffixes : Bytes} {number : Nat} {phrase : Bytes}

theorem ne_nil (h : Spells prefixes suffixes number phrase) : phrase ≠ [] := by
  cases h with
  | literal byte => exact List.cons_ne_nil _ _
  | entry => simp

/-- An entry that is added above it does not change a phrase. -/
theorem set (h : Spells prefixes suffixes number phrase) {place : Nat} (hplace : number < place)
    (previous : Nat) (byte : UInt8) :
    Spells (prefixes.set place previous) (suffixes.set place byte) number phrase := by
  induction h with
  | literal byte => exact .literal byte
  | entry hentry hlt hlink hsuffix _ ih =>
      refine .entry hentry hlt ?_ ?_ (ih (Nat.lt_trans hlt hplace))
      · rwa [List.getElem?_set_ne (Nat.ne_of_gt hplace)]
      · rwa [List.getElem?_set_ne (Nat.ne_of_gt hplace)]

end Spells

namespace LzwState

variable {parameters : LzwParameters} {state : LzwState}

/-- **A walk** that ends at a literal has the phrase on the stack. -/
theorem walk_eq {number : Nat} {phrase : Bytes} (h : Spells state.prefixes state.suffixes number phrase) :
    ∀ {fuel traversed literal : Nat} {expansion expansion' : Bytes},
      (walk parameters state fuel traversed number expansion).result = .ok (literal, expansion') →
      literal ≤ 255 → UInt8.ofNat literal :: expansion' = phrase ++ expansion := by
  induction h with
  | literal byte =>
      intro fuel traversed literal expansion expansion' hwalk _
      have hlow : ¬ byte.toNat > 255 := Nat.not_lt.mpr (Nat.le_of_lt_succ byte.toNat_lt)
      have hpure : (byte.toNat, expansion) = (literal, expansion') := by
        cases fuel with
        | zero => exact Except.ok.inj hwalk
        | succ fuel =>
            rw [walk, if_neg hlow] at hwalk
            exact Except.ok.inj hwalk
      obtain ⟨rfl, rfl⟩ := Prod.mk.inj hpure
      rw [UInt8.ofNat_toNat]
      rfl
  | entry hentry hlt hlink hsuffix _ ih =>
      intro fuel traversed literal expansion expansion' hwalk hliteral
      cases fuel with
      | zero =>
          obtain ⟨rfl, -⟩ := Prod.mk.inj (Except.ok.inj hwalk)
          omega
      | succ fuel =>
          rw [walk, if_pos hentry, Metered.result_bind_ok (result_checkpoint 1)] at hwalk
          obtain ⟨steps, -, hwalk⟩ := Metered.bind_eq_ok.mp hwalk
          obtain ⟨-, hwalk⟩ := refuseStream_eq_ok.mp hwalk
          obtain ⟨-, hwalk⟩ := refuseStream_eq_ok.mp hwalk
          rw [result_orRefuse_bind hsuffix, result_orRefuse_bind hlink] at hwalk
          rw [ih hwalk hliteral, List.append_assoc]
          rfl

/-- The expansion of a number that has been walked. -/
theorem expand_walked {number previous start : Nat} {phrase stack : Bytes}
    (hfit : parameters.Fit) (h : state.Invariant parameters) (hstart : start < state.nextCode)
    (hspells : Spells state.prefixes state.suffixes start phrase) (hle : number ≤ state.nextCode)
    (hwalk : number = state.nextCode ∧ start = previous ∧ stack = [state.firstCharacter] ∨
      number ≠ state.nextCode ∧ start = number ∧ stack = []) :
    ∃ first, (state.expand parameters number previous).result = .ok (first, phrase ++ stack) ∧
      phrase.take 1 = [first] := by
  have hentries : parameters.dictionaryEntries = 2 ^ parameters.maximumCodeBits := hfit.entries
  have hlarge : 2 ^ 9 ≤ 2 ^ parameters.maximumCodeBits :=
    Nat.pow_le_pow_right (by decide) hfit.width_ge
  have hnext := h.next_le
  obtain ⟨literal, expansion, hresult, hliteral, -⟩ := @walk_result parameters state hfit h
    (parameters.dictionaryEntries + 1) 0 start stack hstart (by omega) (by omega)
  have hphrase := walk_eq hspells hresult hliteral
  refine ⟨UInt8.ofNat literal, ?_, ?_⟩
  · rw [expand, if_neg (by omega), ← hphrase]
    have hend : (orRefuse (tryFrom 8 literal) "expanded literal is not representable" >>=
        fun literal => (pure (UInt8.ofNat literal, UInt8.ofNat literal :: expansion) :
          Work (UInt8 × Bytes))).result
          = .ok (UInt8.ofNat literal, UInt8.ofNat literal :: expansion) := by
      rw [result_orRefuse_bind (tryFrom_of_lt (by omega))]
      rfl
    rcases hwalk with ⟨heq, rfl, rfl⟩ | ⟨hne, rfl, rfl⟩
    · rw [if_pos heq, Metered.result_bind_ok hresult]
      exact hend
    · rw [if_neg hne, Metered.result_bind_ok hresult]
      exact hend
  · obtain ⟨byte, rest, rfl⟩ := List.exists_cons_of_ne_nil hspells.ne_nil
    obtain ⟨rfl, -⟩ := List.cons.inj hphrase
    rfl

end LzwState

/-! ### What is written -/

section Writing

open Extraction (written Fits)
open CompressedStream (fallibleVec)

variable {limits : Limits} {extraction : Extraction Bytes}

theorem result_writeChunks (pieces : List Bytes) : ∀ {extraction : Extraction Bytes},
    Fits limits (extraction.outputBytes + pieces.flatten.length) →
    (writeChunks fallibleVec limits pieces).result extraction
      = (.ok (), extraction.written pieces.flatten) := by
  induction pieces with
  | nil => exact fun {extraction} _ => congrArg (Prod.mk _) extraction.written_nil.symm
  | cons piece rest ih =>
      intro extraction hfits
      rw [List.flatten_cons, List.length_append] at hfits
      have hpiece : Fits limits (extraction.outputBytes + piece.length) := hfits.mono (by omega)
      have hrest : Fits limits ((extraction.written piece).outputBytes + rest.flatten.length) := by
        rw [written, Nat.add_assoc]
        exact hfits
      rw [writeChunks, Session.result_lift_bind (result_checkpoint _),
        Session.result_bind_ok (Extraction.result_writeOutput hpiece), ih hrest,
        Extraction.written_written, List.flatten_cons]

theorem result_writeReversed {expansion : Bytes}
    (h : Fits limits (extraction.outputBytes + expansion.length)) :
    (writeReversed fallibleVec limits expansion).result extraction
      = (.ok (), extraction.written expansion) := by
  have hchunks := chunks_controlChunkSize expansion
  rw [writeReversed, result_writeChunks _ (by rwa [hchunks]), hchunks]

end Writing

/-! ### The decoder behind the encoder -/

namespace Coding

variable (coding : Coding)

/-- The parameters the decoder has for this header. -/
def parameters : LzwParameters := .ofWidth coding.maximumWidth coding.blockMode

theorem fit : coding.parameters.Fit := ⟨coding.width_ge, coding.width_le, rfl, rfl⟩

/-- The bound of a width that the decoder compares its next number with. -/
def largest (width : Nat) : Nat := if width = coding.maximumWidth then 2 ^ width else 2 ^ width - 1

theorem firstEntry_ge : 256 ≤ coding.firstEntry := by
  unfold firstEntry
  split <;> decide

theorem firstEntry_le : coding.firstEntry ≤ 2 ^ 9 := by
  unfold firstEntry
  split <;> decide

theorem room_ge : 2 ^ 9 ≤ 2 ^ coding.maximumWidth := Nat.pow_le_pow_right (by decide) coding.width_ge

/-- No phrase has the number of the CLEAR code. -/
theorem plain_number {code : Lzw.Code UInt8} (h : code ≠ .clear) :
    coding.parameters.Plain (coding.number code) := by
  intro hblock
  have hblock : coding.blockMode = true := hblock
  cases code with
  | literal byte =>
      have hbyte := byte.toNat_lt
      show byte.toNat ≠ 256
      omega
  | entry index =>
      have hfirst : coding.firstEntry = 257 := if_pos hblock
      show coding.firstEntry + index ≠ 256
      omega
  | clear => exact absurd rfl h

end Coding

theorem maximumCodeForWidth_eq {width : Nat} (coding : Coding) (h : width < 32) :
    (maximumCodeForWidth width coding.parameters.maximumCodeBits).result
      = .ok (coding.largest width) := by
  have hcodes : (1 <<< width) % 2 ^ 32 = 2 ^ width := by
    rw [Nat.one_shiftLeft, Nat.mod_eq_of_lt (Nat.pow_lt_pow_right (by decide) h)]
  rw [maximumCodeForWidth, result_orRefuse_bind (checkedShl_of_lt h), hcodes, Coding.largest]
  show (if width = coding.maximumWidth then _ else _ : Work Nat).result = _
  split
  · rfl
  · exact orRefuse_eq_ok.mpr (checkedSub_of_le Nat.one_le_two_pow)

/--
The state of a decoder that knows this table, and has decoded this phrase.

`free` is the number the encoder has for its next phrase, which is one ahead unless the table
is new or full.
-/
structure Follows (coding : Coding) (width free : Nat) (table : Lzw.Table UInt8)
    (previous : Option Bytes) (state : LzwState) : Prop where
  invariant : state.Invariant coding.parameters
  codeBits_eq : state.codeBits = width
  maximum_eq : state.maximumCurrentCode = coding.largest width
  nextCode_eq : state.nextCode = coding.firstEntry + table.length
  spells : ∀ index phrase, table[index]? = some phrase →
    Spells state.prefixes state.suffixes (coding.firstEntry + index) phrase
  start : previous = none →
    state.previousCode = none ∧ table = [] ∧ free = coding.firstEntry
  later : ∀ phrase, previous = some phrase → free = min (state.nextCode + 1) (2 ^ coding.maximumWidth) ∧
    phrase.take 1 = [state.firstCharacter] ∧
    ∃ number, state.previousCode = some number ∧ Spells state.prefixes state.suffixes number phrase

namespace Follows

variable {coding : Coding} {width free : Nat} {table : Lzw.Table UInt8} {previous : Option Bytes}
  {state : LzwState}

theorem length_le (h : Follows coding width free table previous state) :
    coding.firstEntry + table.length ≤ 2 ^ coding.maximumWidth := by
  rw [← h.nextCode_eq]
  exact h.invariant.next_le

theorem nextCode_le (h : Follows coding width free table previous state) : state.nextCode ≤ free := by
  have hle : state.nextCode ≤ 2 ^ coding.maximumWidth := h.invariant.next_le
  cases hprevious : previous with
  | none =>
      obtain ⟨-, rfl, rfl⟩ := h.start hprevious
      rw [h.nextCode_eq]
      exact Nat.le_refl _
  | some phrase =>
      obtain ⟨hfree, -⟩ := h.later phrase hprevious
      omega

/-- The number of a code that stands for something is one the encoder has given. -/
theorem number_lt (h : Follows coding width free table previous state) {code : Lzw.Code UInt8}
    {phrase : Bytes} (hphrase : Lzw.phraseOf coding.capacity table previous code = some phrase) :
    coding.number code < free ∧ coding.number code ≤ state.nextCode := by
  have hge := coding.firstEntry_ge
  have hnext := h.nextCode_eq
  have hle := h.nextCode_le
  cases code with
  | literal byte =>
      have hbyte := byte.toNat_lt
      show byte.toNat < free ∧ byte.toNat ≤ state.nextCode
      omega
  | clear => cases previous <;> cases hphrase
  | entry index =>
      cases hprevious : previous with
      | none =>
          rw [hprevious] at hphrase
          cases hphrase
      | some before =>
          obtain ⟨hfree, -⟩ := h.later before hprevious
          rw [hprevious, Lzw.phraseOf] at hphrase
          show coding.firstEntry + index < free ∧ coding.firstEntry + index ≤ state.nextCode
          by_cases hlast : index = table.length ∧ index < coding.capacity
          · have hroom : index < 2 ^ coding.maximumWidth - coding.firstEntry := hlast.2
            omega
          · rw [if_neg hlast] at hphrase
            obtain ⟨hlt, -⟩ := List.getElem?_eq_some_iff.mp hphrase
            omega

/-- **A code is expanded** to what it stands for. -/
theorem expand (h : Follows coding width free table previous state) {code : Lzw.Code UInt8}
    {before phrase : Bytes} (hprevious : previous = some before)
    (hphrase : Lzw.phraseOf coding.capacity table previous code = some phrase) :
    ∃ number, state.previousCode = some number ∧
      Spells state.prefixes state.suffixes number before ∧
      ∃ first, (state.expand coding.parameters (coding.number code) number).result
        = .ok (first, phrase) ∧ phrase.take 1 = [first] := by
  obtain ⟨-, hle⟩ := h.number_lt hphrase
  obtain ⟨-, hfirst, number, hnumber, hspells⟩ := h.later before hprevious
  have hbelow := (h.invariant.previous_lt number hnumber).1
  have hwhole : ∀ {number : Nat}, coding.number code ≠ state.nextCode →
      Spells state.prefixes state.suffixes (coding.number code) phrase →
      ∃ first, (state.expand coding.parameters (coding.number code) number).result
        = .ok (first, phrase) ∧ phrase.take 1 = [first] := by
    intro number hne hspells
    obtain ⟨first, hresult, htake⟩ := @LzwState.expand_walked _ state _ number _ _ _ coding.fit
      h.invariant (Nat.lt_of_le_of_ne hle hne) hspells hle (Or.inr ⟨hne, rfl, rfl⟩)
    rw [List.append_nil] at hresult
    exact ⟨first, hresult, htake⟩
  refine ⟨number, hnumber, hspells, ?_⟩
  have hnext := h.nextCode_eq
  rw [hprevious] at hphrase
  cases code with
  | literal byte =>
      obtain rfl := Option.some.inj hphrase
      have hge := h.invariant.next_ge
      have hbyte := byte.toNat_lt
      refine hwhole ?_ (.literal byte)
      show byte.toNat ≠ state.nextCode
      omega
  | clear => cases hphrase
  | entry index =>
      rw [Lzw.phraseOf] at hphrase
      by_cases hlast : index = table.length ∧ index < coding.capacity
      · rw [if_pos hlast] at hphrase
        obtain rfl := Option.some.inj hphrase
        have hsame : coding.number (.entry index) = state.nextCode := by
          rw [hnext, ← hlast.1]
          rfl
        obtain ⟨first, hresult, htake⟩ := LzwState.expand_walked coding.fit h.invariant hbelow hspells
          hle (Or.inl ⟨hsame, rfl, rfl⟩)
        rw [hfirst]
        refine ⟨first, hresult, ?_⟩
        obtain ⟨byte, rest, rfl⟩ := List.exists_cons_of_ne_nil hspells.ne_nil
        exact htake
      · rw [if_neg hlast] at hphrase
        obtain ⟨hlt, -⟩ := List.getElem?_eq_some_iff.mp hphrase
        refine hwhole ?_ (h.spells index phrase hphrase)
        show coding.firstEntry + index ≠ state.nextCode
        omega

end Follows

/-- The entry that is added, while there is room. -/
theorem addEntry_of_lt {parameters : LzwParameters} {state : LzwState} (hfit : parameters.Fit)
    (h : state.Invariant parameters) (hroom : state.nextCode < 2 ^ parameters.maximumCodeBits)
    (first : UInt8) (previous : Nat) :
    (state.addEntry parameters first previous).result = .ok { state with
      prefixes := state.prefixes.set state.nextCode previous
      suffixes := state.suffixes.set state.nextCode first
      nextCode := state.nextCode + 1 } := by
  have hsmall : 2 ^ parameters.maximumCodeBits ≤ 2 ^ 16 :=
    Nat.pow_le_pow_right (by decide) hfit.width_le
  rw [LzwState.addEntry, hfit.codes, if_pos hroom,
    Metered.result_bind_ok (setAt_result (by rwa [h.prefixes_length]) _ _),
    Metered.result_bind_ok (setAt_result (by rwa [h.suffixes_length]) _ _),
    result_orRefuse_bind (checkedAdd_of_lt (by omega))]
  rfl

/-- What a decoder has learned when it adds an entry, or leaves a full table as it is. -/
structure Learned (coding : Coding) (table : Lzw.Table UInt8) (state next : LzwState) : Prop where
  nextCode_eq : next.nextCode = coding.firstEntry + table.length
  nextCode_min : next.nextCode = min (state.nextCode + 1) (2 ^ coding.maximumWidth)
  spells : ∀ index phrase, table[index]? = some phrase →
    Spells next.prefixes next.suffixes (coding.firstEntry + index) phrase
  keeps : ∀ number phrase, number < state.nextCode → Spells state.prefixes state.suffixes number phrase →
    Spells next.prefixes next.suffixes number phrase
  codeBits_eq : next.codeBits = state.codeBits
  maximum_eq : next.maximumCurrentCode = state.maximumCurrentCode
  forceRefill_eq : next.forceRefill = state.forceRefill

theorem Follows.add {coding : Coding} {width free : Nat} {table : Lzw.Table UInt8}
    {previous : Option Bytes} {state : LzwState} (h : Follows coding width free table previous state)
    {number : Nat} {before : Bytes} (first : UInt8)
    (hspells : Spells state.prefixes state.suffixes number before) (hnumber : number < state.nextCode) :
    ∃ next, (state.addEntry coding.parameters first number).result = .ok next ∧
      Learned coding (table.add coding.capacity (before ++ [first])) state next := by
  have heq := h.nextCode_eq
  have hle : state.nextCode ≤ 2 ^ coding.maximumWidth := h.invariant.next_le
  have hge := coding.firstEntry_ge
  have hcapacity : table.length < coding.capacity ↔ state.nextCode < 2 ^ coding.maximumWidth := by
    rw [Coding.capacity]
    omega
  by_cases hroom : state.nextCode < 2 ^ coding.maximumWidth
  · refine ⟨_, addEntry_of_lt coding.fit h.invariant hroom first number, ?_⟩
    rw [Lzw.Table.add, if_pos (hcapacity.mpr hroom)]
    have hkeep : ∀ place phrase, place < state.nextCode →
        Spells state.prefixes state.suffixes place phrase →
        Spells (state.prefixes.set state.nextCode number) (state.suffixes.set state.nextCode first)
          place phrase := fun place phrase hplace hphrase => hphrase.set hplace _ _
    refine ⟨?_, (Nat.min_eq_left hroom).symm, fun index phrase hindex => ?_, hkeep, rfl, rfl, rfl⟩
    · show state.nextCode + 1 = _
      rw [List.length_append, List.length_singleton, heq, Nat.add_assoc]
    · by_cases hold : index < table.length
      · rw [List.getElem?_append_left hold] at hindex
        exact hkeep _ _ (by omega) (h.spells index phrase hindex)
      · obtain ⟨hbound, -⟩ := List.getElem?_eq_some_iff.mp hindex
        rw [List.length_append, List.length_singleton] at hbound
        obtain rfl : index = table.length := by omega
        rw [List.getElem?_append_right (Nat.le_refl _), Nat.sub_self] at hindex
        obtain rfl := Option.some.inj hindex
        have hprefixes : state.nextCode < state.prefixes.length := by
          rw [h.invariant.prefixes_length]
          exact hroom
        have hsuffixes : state.nextCode < state.suffixes.length := by
          rw [h.invariant.suffixes_length]
          exact hroom
        rw [← heq]
        exact .entry (by omega) hnumber (List.getElem?_set_self hprefixes)
          (List.getElem?_set_self hsuffixes) (hkeep _ _ hnumber hspells)
  · refine ⟨state, ?_, ?_⟩
    · rw [LzwState.addEntry, coding.fit.codes]
      exact congrArg Metered.result (if_neg hroom)
    · rw [Lzw.Table.add, if_neg (mt hcapacity.mp hroom)]
      exact ⟨heq, by omega, h.spells, fun _ _ _ hphrase => hphrase, rfl, rfl, rfl⟩

namespace Follows

open CompressedStream (fallibleVec)
open Extraction (Fits written)

variable {coding : Coding} {width free : Nat} {table : Lzw.Table UInt8} {previous : Option Bytes}
  {state : LzwState} {limits : Limits} {extraction : Extraction Bytes}

theorem free_le (h : Follows coding width free table previous state) :
    free ≤ 2 ^ coding.maximumWidth := by
  cases hprevious : previous with
  | none =>
      obtain ⟨-, -, rfl⟩ := h.start hprevious
      exact Nat.le_trans coding.firstEntry_le coding.room_ge
  | some phrase =>
      obtain ⟨rfl, -⟩ := h.later phrase hprevious
      exact Nat.min_le_right _ _

/-- The first code of a table is a literal. -/
theorem firstLiteral (h : Follows coding width free table previous state) (hprevious : previous = none)
    {code : Lzw.Code UInt8} {phrase : Bytes}
    (hphrase : Lzw.phraseOf coding.capacity table previous code = some phrase)
    (hfits : Fits limits (extraction.outputBytes + phrase.length)) :
    ∃ next, (firstLiteral fallibleVec limits (coding.number code) state).result extraction
        = (.ok next, extraction.written phrase) ∧
      Follows coding width (min (free + 1) (2 ^ coding.maximumWidth))
        (Lzw.learn coding.capacity table phrase previous) (some phrase) next ∧
      next.nextCode = free ∧ next.reader = state.reader ∧ next.forceRefill = state.forceRefill := by
  obtain ⟨-, htable, hfree⟩ := h.start hprevious
  have hnext : state.nextCode = free := by
    rw [h.nextCode_eq, htable, hfree]
    rfl
  rw [hprevious] at hphrase ⊢
  cases code with
  | clear => cases hphrase
  | entry index => cases hphrase
  | literal byte =>
      obtain rfl := Option.some.inj hphrase
      have hbyte := byte.toNat_lt
      have hge := h.invariant.next_ge
      refine ⟨{ state with firstCharacter := byte, previousCode := some byte.toNat }, ?_, ?_, hnext, rfl, rfl⟩
      · have hnumber : coding.number (.literal byte) = byte.toNat := rfl
        rw [hnumber, UnixCompress.firstLiteral, if_neg (by omega),
          Session.result_lift_bind (orRefuse_eq_ok.mpr (tryFrom_of_lt (by omega))),
          Session.result_lift_bind (result_checkpoint 1), UInt8.ofNat_toNat,
          Session.result_bind_ok (Extraction.result_writeOutput hfits)]
        rfl
      · have hcode : (.literal byte : Lzw.Code UInt8) ≠ .clear := by simp
        have hplain : coding.parameters.Plain byte.toNat := coding.plain_number hcode
        refine ⟨h.invariant.moveOn byte (by omega) hplain, h.codeBits_eq, h.maximum_eq, h.nextCode_eq,
          h.spells, fun hnone => absurd hnone (by simp), ?_⟩
        intro phrase hsome
        obtain rfl := Option.some.inj hsome
        refine ⟨?_, rfl, byte.toNat, rfl, .literal byte⟩
        show min (free + 1) _ = min (state.nextCode + 1) _
        rw [hnext]

/-- Every other code completes an entry of the table. -/
theorem nextExpansion (h : Follows coding width free table previous state)
    {code : Lzw.Code UInt8} {before phrase : Bytes} (hprevious : previous = some before)
    (hphrase : Lzw.phraseOf coding.capacity table previous code = some phrase)
    (hfits : Fits limits (extraction.outputBytes + phrase.length)) :
    ∃ number, state.previousCode = some number ∧
    ∃ next, (nextExpansion fallibleVec limits coding.parameters (coding.number code) number state).result
        extraction = (.ok next, extraction.written phrase) ∧
      Follows coding width (min (free + 1) (2 ^ coding.maximumWidth))
        (Lzw.learn coding.capacity table phrase previous) (some phrase) next ∧
      next.nextCode = free ∧ next.reader = state.reader ∧ next.forceRefill = state.forceRefill := by
  obtain ⟨hlt, hle⟩ := h.number_lt hphrase
  obtain ⟨hfree, -⟩ := h.later before hprevious
  obtain ⟨number, hnumber, hspells, first, hexpand, htake⟩ := h.expand hprevious hphrase
  obtain ⟨hbelow, hplain⟩ := h.invariant.previous_lt number hnumber
  obtain ⟨added, hadded, hlearned⟩ := h.add first hspells hbelow
  obtain ⟨added', hadded', hinvariant, hbehind, hreader⟩ := LzwState.addEntry_result coding.fit
    h.invariant first hbelow hplain hle (Nat.lt_of_lt_of_le hlt h.free_le)
  obtain rfl := Except.ok.inj (hadded.symm.trans hadded')
  have hnext : added.nextCode = free := hlearned.nextCode_min.trans hfree.symm
  have hcode : code ≠ .clear := by
    rintro rfl
    cases previous <;> cases hphrase
  refine ⟨number, hnumber, { added with
    firstCharacter := first, previousCode := some (coding.number code) }, ?_, ?_, hnext, hreader,
    hlearned.forceRefill_eq⟩
  · rw [UnixCompress.nextExpansion, Session.result_lift_bind hexpand]
    dsimp only
    rw [Session.result_bind_ok (result_writeReversed hfits), Session.result_lift_bind hadded]
    rfl
  · rw [hprevious, Lzw.learn, htake]
    refine ⟨hinvariant.moveOn first hbehind (coding.plain_number hcode),
      hlearned.codeBits_eq.trans h.codeBits_eq, hlearned.maximum_eq.trans h.maximum_eq,
      hlearned.nextCode_eq, hlearned.spells, fun hnone => absurd hnone (by simp), ?_⟩
    intro last hlast
    obtain rfl := Option.some.inj hlast
    refine ⟨?_, htake, coding.number code, rfl, ?_⟩
    · show min (free + 1) _ = min (added.nextCode + 1) _
      rw [hnext]
    · rw [hprevious] at hphrase
      cases code with
      | clear => exact absurd rfl hcode
      | literal byte =>
          obtain rfl := Option.some.inj hphrase
          exact .literal byte
      | entry index =>
          refine hlearned.spells index phrase ?_
          rw [Lzw.phraseOf] at hphrase
          by_cases hlast : index = table.length ∧ index < coding.capacity
          · rw [if_pos hlast] at hphrase
            have hroom : table.length < coding.capacity := hlast.1 ▸ hlast.2
            rw [Lzw.Table.add, if_pos hroom, hlast.1, List.getElem?_append_right (Nat.le_refl _),
              Nat.sub_self, ← htake, ← Option.some.inj hphrase]
            obtain ⟨byte, rest, rfl⟩ := List.exists_cons_of_ne_nil hspells.ne_nil
            rfl
          · rw [if_neg hlast] at hphrase
            obtain ⟨hin, -⟩ := List.getElem?_eq_some_iff.mp hphrase
            rw [Lzw.Table.add]
            split
            · rwa [List.getElem?_append_left hin]
            · exact hphrase

/-- **A code is decoded** to what it stands for. -/
theorem decodeCode (h : Follows coding width free table previous state) {code : Lzw.Code UInt8}
    {phrase : Bytes} (hphrase : Lzw.phraseOf coding.capacity table previous code = some phrase)
    (hfits : Fits limits (extraction.outputBytes + phrase.length)) :
    ∃ next, (decodeCode fallibleVec limits coding.parameters (coding.number code) state).result extraction
        = (.ok next, extraction.written phrase) ∧
      Follows coding width (min (free + 1) (2 ^ coding.maximumWidth))
        (Lzw.learn coding.capacity table phrase previous) (some phrase) next ∧
      next.nextCode = free ∧ next.reader = state.reader ∧ next.forceRefill = state.forceRefill := by
  have hcode : code ≠ .clear := by
    rintro rfl
    cases previous <;> cases hphrase
  have hplain := coding.plain_number hcode
  have hnot : ¬ (coding.parameters.blockMode = true ∧ coding.number code = clearCode) :=
    fun hclear => hplain hclear.1 hclear.2
  rw [UnixCompress.decodeCode, if_neg hnot]
  cases hprevious : previous with
  | none =>
      obtain ⟨hnone, -⟩ := h.start hprevious
      rw [hnone]
      have hstep := h.firstLiteral hprevious hphrase hfits
      rwa [hprevious] at hstep
  | some before =>
      obtain ⟨number, hnumber, hstep⟩ := h.nextExpansion hprevious hphrase hfits
      rw [hnumber]
      rwa [hprevious] at hstep

end Follows

/-! ### Rounds -/

section Rounds

open CompressedStream (fallibleVec)
open Extraction (Fits written)

variable {coding : Coding} {width free filled : Nat} {table : Lzw.Table UInt8}
  {previous : Option Bytes} {state : LzwState} {limits : Limits} {extraction : Extraction Bytes}

/-- The width grows when the encoder's does. -/
theorem Follows.widen (h : Follows coding width free table previous state) :
    (state.widen coding.parameters).result = .ok
      (if 2 ^ width ≤ state.nextCode ∧ width < coding.maximumWidth then
        { state with
          codeBits := width + 1, maximumCurrentCode := coding.largest (width + 1),
          forceRefill := true }
      else state) := by
  have hmaximum : coding.maximumWidth ≤ 16 := coding.width_le
  have hpos := Nat.two_pow_pos width
  rw [LzwState.widen, h.codeBits_eq, h.maximum_eq, Coding.largest]
  by_cases hgrow : 2 ^ width ≤ state.nextCode ∧ width < coding.maximumWidth
  · rw [if_pos hgrow, if_neg (Nat.ne_of_lt hgrow.2)]
    have hcond : state.nextCode > 2 ^ width - 1 ∧ width < coding.parameters.maximumCodeBits :=
      ⟨by omega, hgrow.2⟩
    rw [if_pos hcond, result_orRefuse_bind (checkedAdd_of_lt (by omega)),
      Metered.result_bind_ok (maximumCodeForWidth_eq coding (by omega))]
    rfl
  · have hcond : ¬ (state.nextCode > (if width = coding.maximumWidth then 2 ^ width else 2 ^ width - 1) ∧
        width < coding.parameters.maximumCodeBits) := by
      rintro ⟨hnext, hlt⟩
      have hlt : width < coding.maximumWidth := hlt
      rw [if_neg (Nat.ne_of_lt hlt)] at hnext
      exact hgrow ⟨by omega, hlt⟩
    rw [if_neg hgrow, if_neg hcond]
    rfl

/-- A CLEAR code puts the decoder where it started. -/
theorem Follows.clear (h : Follows coding width free table previous state)
    (hblock : coding.blockMode = true) (limits : Limits) (extraction : Extraction Bytes) :
    ∃ next, (UnixCompress.decodeCode fallibleVec limits coding.parameters clearCode state).result extraction
        = (.ok next, extraction) ∧
      Follows coding initialCodeBits coding.firstEntry [] none next ∧ next.reader = state.reader ∧
      next.forceRefill = true := by
  obtain ⟨next, hnext, hinvariant, hreader⟩ := LzwState.clear_result coding.fit h.invariant hblock
  have hmaximum := @maximumCodeForWidth_eq initialCodeBits coding (by decide)
  have hclear : (state.clear coding.parameters).result = .ok { state with
      codeBits := initialCodeBits, maximumCurrentCode := coding.largest initialCodeBits,
      nextCode := firstBlockCode, previousCode := none, forceRefill := true } := by
    rw [LzwState.clear, Metered.result_bind_ok hmaximum]
    rfl
  have hfirst : coding.firstEntry = firstBlockCode := if_pos hblock
  obtain rfl := Except.ok.inj (hclear.symm.trans hnext)
  refine ⟨_, ?_, ?_, hreader, rfl⟩
  · rw [UnixCompress.decodeCode, if_pos ⟨hblock, rfl⟩]
    exact Session.result_lift_ok hclear
  · exact ⟨hinvariant, rfl, rfl, hfirst.symm, fun _ _ hentry => absurd hentry (by simp),
      fun _ => ⟨rfl, rfl, rfl⟩, fun _ hphrase => absurd hphrase (by simp)⟩

/-- The top of a round, with these codes ahead. -/
def Ready (coding : Coding) (width free filled : Nat) (table : Lzw.Table UInt8)
    (previous : Option Bytes) (codes : List (Lzw.Code UInt8)) (state : LzwState) : Prop :=
  ∃ wide, (state.widen coding.parameters).result = .ok wide ∧
    Follows coding width free table previous wide ∧ width ≤ coding.maximumWidth ∧ free ≤ 2 ^ width ∧
    filled < 8 ∧
    wide.reader.Stands width wide.forceRefill filled (coding.bitsFrom width free filled codes)

/-- The top of the next round: the decoder has the number the encoder had, so it widens when the
encoder does. -/
theorem Follows.ready {next : Nat} {codes : List (Lzw.Code UInt8)}
    (h : Follows coding width next table previous state) (hle : width ≤ coding.maximumWidth)
    (hfree : state.nextCode = free) (hbound : free ≤ 2 ^ width)
    (hnext : next = min (free + 1) (2 ^ coding.maximumWidth)) (hforce : state.forceRefill = false)
    (hreader : state.reader.Within width (filled + 1)
      (if 2 ^ width ≤ free ∧ width < coding.maximumWidth then
        Coding.fill width (filled + 1) ++ coding.bitsFrom (width + 1) next 0 codes
      else coding.bitsFrom width next ((filled + 1) % 8) codes)) :
    ∃ width' filled', Ready coding width' next filled' table previous codes state := by
  have hwide := h.widen
  rw [← hfree] at hbound hnext hreader
  by_cases hgrow : 2 ^ width ≤ state.nextCode ∧ width < coding.maximumWidth
  · rw [if_pos hgrow] at hwide hreader
    obtain ⟨wide, hwide', hinvariant, -⟩ := LzwState.widen_result coding.fit h.invariant
    obtain rfl := Except.ok.inj (hwide'.symm.trans hwide)
    refine ⟨width + 1, 0, _, hwide, ?_, hgrow.2, ?_, by decide, .before hreader.before (Or.inl rfl)⟩
    · exact ⟨hinvariant, rfl, rfl, h.nextCode_eq, h.spells, h.start, h.later⟩
    · have hpos := Nat.two_pow_pos width
      have hmin : next ≤ state.nextCode + 1 := hnext ▸ Nat.min_le_left _ _
      rw [Nat.pow_succ]
      omega
  · rw [if_neg hgrow] at hwide hreader
    refine ⟨width, (filled + 1) % 8, _, hwide, h, hle, ?_, Nat.mod_lt _ (by decide), ?_⟩
    · rcases Nat.lt_or_eq_of_le hle with hlt | rfl
      · have hmin : next ≤ state.nextCode + 1 := hnext ▸ Nat.min_le_left _ _
        have hsmall : ¬ 2 ^ width ≤ state.nextCode := fun hge => hgrow ⟨hge, hlt⟩
        omega
      · rw [hnext]
        exact Nat.min_le_right _ _
    · rw [hforce]
      exact hreader.stands (Nat.succ_pos _)

/-- The state whose next code has been read. -/
theorem Follows.read {wide : LzwState} (h : Follows coding width free table previous wide)
    {number : Nat} {reader : CodeReader}
    (hread : (wide.reader.nextCode width wide.forceRefill).result = .ok (some number, reader)) :
    Follows coding width free table previous { wide with reader, forceRefill := false } := by
  obtain ⟨out, reader', hread', hout⟩ := h.invariant.read coding.fit
  rw [h.codeBits_eq, hread] at hread'
  obtain ⟨rfl, rfl⟩ := Prod.mk.inj (Except.ok.inj hread')
  obtain ⟨-, -, hinvariant, -⟩ := hout number rfl
  exact ⟨hinvariant, h.codeBits_eq, h.maximum_eq, h.nextCode_eq, h.spells, h.start, h.later⟩

theorem result_map {σ α β : Type} {m : Extracting σ α} {f : α → β} {before after : Extraction σ} {a : α}
    (h : m.result before = (.ok a, after)) : (f <$> m).result before = (.ok (f a), after) :=
  Session.result_bind_ok h

/-- **A round** that reads a code. -/
theorem Ready.read {code : Lzw.Code UInt8} {codes : List (Lzw.Code UInt8)} {bits : List Bool}
    (hbits : coding.bitsFrom width free filled (code :: codes)
      = lsb width (coding.number code) ++ bits) (hnumber : coding.number code < 2 ^ width)
    (h : Ready coding width free filled table previous (code :: codes) state) (limits : Limits)
    (extraction : Extraction Bytes) :
    ∃ wide, Follows coding width free table previous wide ∧ wide.forceRefill = false ∧
      wide.reader.Within width (filled + 1) bits ∧
      ∀ next extraction', (decodeCode fallibleVec limits coding.parameters (coding.number code)
          wide).result extraction = (.ok next, extraction') →
        (decodeRound fallibleVec limits coding.parameters state).result extraction
          = (.ok (.inl next), extraction') := by
  obtain ⟨wide, hwide, hfollows, hle, -, -, hstands⟩ := h
  have hge : 9 ≤ width := hfollows.codeBits_eq ▸ hfollows.invariant.width_ge
  have hmaximum : coding.maximumWidth ≤ 16 := coding.width_le
  rw [hbits] at hstands
  obtain ⟨reader, hread, hwithin⟩ := hstands.nextCode (by omega) (by omega) hnumber
  refine ⟨_, hfollows.read hread, rfl, hwithin, fun next extraction' hnext => ?_⟩
  rw [← hfollows.codeBits_eq] at hread
  rw [decodeRound, Session.result_lift_bind (result_checkpoint 1), Session.result_lift_bind hwide,
    Session.result_lift_bind hread]
  exact result_map hnext

/-- At the end of the codes the loop is left. -/
theorem Ready.nil (h : Ready coding width free filled table previous [] state) :
    (decodeRound fallibleVec limits coding.parameters state).result extraction
      = (.ok (.inr ()), extraction) := by
  obtain ⟨wide, hwide, hfollows, -, -, -, hstands⟩ := h
  have hge : 9 ≤ width := hfollows.codeBits_eq ▸ hfollows.invariant.width_ge
  have hread := hstands.nextCode_nil (by omega)
  rw [← hfollows.codeBits_eq] at hread
  rw [decodeRound, Session.result_lift_bind (result_checkpoint 1), Session.result_lift_bind hwide,
    Session.result_lift_bind hread]
  rfl

/-- A round that reads a phrase. -/
theorem Ready.phrase {code : Lzw.Code UInt8} {codes : List (Lzw.Code UInt8)} {phrase : Bytes}
    (h : Ready coding width free filled table previous (code :: codes) state)
    (hphrase : Lzw.phraseOf coding.capacity table previous code = some phrase)
    (hfits : Fits limits (extraction.outputBytes + phrase.length)) :
    ∃ next, (decodeRound fallibleVec limits coding.parameters state).result extraction
        = (.ok (.inl next), extraction.written phrase) ∧
      ∃ width' filled', Ready coding width' (min (free + 1) (2 ^ coding.maximumWidth)) filled'
        (Lzw.learn coding.capacity table phrase previous) (some phrase) codes next := by
  have hcode : code ≠ .clear := by
    rintro rfl
    cases previous <;> cases hphrase
  have hbits : coding.bitsFrom width free filled (code :: codes)
      = lsb width (coding.number code)
        ++ if 2 ^ width ≤ free ∧ width < coding.maximumWidth then
            Coding.fill width (filled + 1)
              ++ coding.bitsFrom (width + 1) (min (free + 1) (2 ^ coding.maximumWidth)) 0 codes
          else
            coding.bitsFrom width (min (free + 1) (2 ^ coding.maximumWidth)) ((filled + 1) % 8) codes := by
    cases code with
    | clear => exact absurd rfl hcode
    | literal byte => rfl
    | entry index => rfl
  obtain ⟨_, -, hfollows, hle, hfree, -⟩ := id h
  obtain ⟨hnumber, -⟩ := hfollows.number_lt hphrase
  obtain ⟨wide, hwide, hforce, hwithin, hround⟩ := h.read hbits (by omega) limits extraction
  obtain ⟨next, hnext, hafter, hcount, hreader, hkept⟩ := hwide.decodeCode hphrase hfits
  rw [← hreader] at hwithin
  exact ⟨next, hround _ _ hnext, hafter.ready hle hcount hfree rfl (hkept.trans hforce) hwithin⟩

/-- A round that reads a CLEAR code. -/
theorem Ready.clear {codes : List (Lzw.Code UInt8)}
    (h : Ready coding width free filled table previous (.clear :: codes) state)
    (hblock : coding.blockMode = true) (limits : Limits) (extraction : Extraction Bytes) :
    ∃ next, (decodeRound fallibleVec limits coding.parameters state).result extraction
        = (.ok (.inl next), extraction) ∧
      Ready coding initialCodeBits coding.firstEntry 0 [] none codes next := by
  obtain ⟨_, -, hfollows, -⟩ := id h
  have hge : 9 ≤ width := hfollows.codeBits_eq ▸ hfollows.invariant.width_ge
  have hnumber : coding.number .clear < 2 ^ width :=
    Nat.lt_of_lt_of_le (show 256 < 2 ^ 9 by decide) (Nat.pow_le_pow_right (by decide) hge)
  obtain ⟨wide, hwide, hforce, hwithin, hround⟩ := h.read rfl hnumber limits extraction
  obtain ⟨next, hnext, hafter, hreader, hforced⟩ := hwide.clear hblock limits extraction
  refine ⟨next, hround _ _ hnext, next, ?_, hafter, coding.width_ge, coding.firstEntry_le, by decide, ?_⟩
  · have hsmall : ¬ (2 ^ initialCodeBits ≤ next.nextCode ∧ initialCodeBits < coding.maximumWidth) := by
      have hfirst : coding.firstEntry = 257 := if_pos hblock
      have hcount : next.nextCode = coding.firstEntry + 0 := hafter.nextCode_eq
      rintro ⟨hlarge, -⟩
      have hlarge : 512 ≤ next.nextCode := hlarge
      omega
    rw [hafter.widen, if_neg hsmall]
  · rw [hreader, hforced]
    exact .before hwithin.before (Or.inl rfl)

/-- **The loop**, by induction on the codes that are left. -/
theorem Ready.run (codes : List (Lzw.Code UInt8)) :
    ∀ {fuel width free filled : Nat} {table : Lzw.Table UInt8} {previous : Option Bytes}
      {state : LzwState} {extraction : Extraction Bytes} {out : Bytes}, codes.length < fuel →
      Ready coding width free filled table previous codes state →
      (.clear ∈ codes → coding.blockMode = true) →
      Lzw.decodeFrom coding.capacity table previous codes = some out →
      Fits limits (extraction.outputBytes + out.length) →
      (decodeLoop fallibleVec limits coding.parameters fuel state).result extraction
        = (.ok (), extraction.written out) := by
  induction codes with
  | nil =>
      intro fuel width free filled table previous state extraction out hfuel h _ hout _
      obtain ⟨fuel, rfl⟩ := Nat.exists_eq_add_of_lt hfuel
      obtain rfl := Option.some.inj hout
      rw [decodeLoop, Session.result_bind_ok h.nil, Extraction.written_nil]
      rfl
  | cons code codes ih =>
      intro fuel width free filled table previous state extraction out hfuel h hclear hout hfits
      obtain ⟨fuel, rfl⟩ := Nat.exists_eq_add_of_lt (Nat.lt_of_le_of_lt (Nat.zero_le _) hfuel)
      rw [List.length_cons] at hfuel
      by_cases hcode : code = .clear
      · subst hcode
        obtain ⟨next, hround, hready⟩ := h.clear (hclear List.mem_cons_self) limits extraction
        rw [decodeLoop, Session.result_bind_ok hround]
        exact ih (by omega) hready (fun hmem => hclear (List.mem_cons_of_mem _ hmem)) hout hfits
      · obtain ⟨phrase, letters, hphrase, hletters, rfl⟩ := Lzw.decodeFrom_eq_some hcode hout
        rw [List.length_append] at hfits
        have hfirst : Fits limits (extraction.outputBytes + phrase.length) := hfits.mono (by omega)
        obtain ⟨next, hround, width', filled', hready⟩ := h.phrase hphrase hfirst
        rw [decodeLoop, Session.result_bind_ok hround]
        have hrest : Fits limits ((extraction.written phrase).outputBytes + letters.length) := by
          rw [written, Nat.add_assoc]
          exact hfits
        rw [← Extraction.written_written]
        exact ih (by omega) hready (fun hmem => hclear (List.mem_cons_of_mem _ hmem)) hletters hrest

end Rounds

/-! ### Whole files -/

namespace Coding

theorem length_le_bitsFrom (coding : Coding) (codes : List (Lzw.Code UInt8)) :
    ∀ {width free filled : Nat}, 0 < width →
      codes.length ≤ (coding.bitsFrom width free filled codes).length := by
  induction codes with
  | nil => exact fun _ => Nat.zero_le _
  | cons code codes ih =>
      intro width free filled hpos
      have hphrase : ∀ next, codes.length + 1 ≤ (lsb width (coding.number code)
          ++ if 2 ^ width ≤ free ∧ width < coding.maximumWidth then
              fill width (filled + 1) ++ coding.bitsFrom (width + 1) next 0 codes
            else coding.bitsFrom width next ((filled + 1) % 8) codes).length := by
        intro next
        have hwide := @ih (width + 1) next 0 (Nat.succ_pos _)
        have hsame := @ih width next ((filled + 1) % 8) hpos
        rw [List.length_append, BitString.length_lsb]
        split
        · rw [List.length_append]
          omega
        · omega
      rw [List.length_cons]
      cases code with
      | clear =>
          have hrest := @ih initialCodeBits coding.firstEntry 0 (by decide)
          rw [bitsFrom, List.length_append, List.length_append, BitString.length_lsb]
          omega
      | literal byte => exact hphrase _
      | entry index => exact hphrase _

/-- The decoder before the first code. -/
theorem initialState_eq (coding : Coding) {input : Bytes} (hlt : input.length < 2 ^ 64) :
    ∃ state, (initialState input coding.maximumWidth (2 ^ coding.maximumWidth) coding.blockMode).result
        = .ok (coding.parameters, state) ∧
      Follows coding initialCodeBits coding.firstEntry [] none state ∧ state.reader = .new input ∧
      state.forceRefill = false := by
  obtain ⟨state, hresult, hinvariant, hreader⟩ :=
    initialState_result coding.blockMode hlt coding.width_ge coding.width_le
  have hinitial := hresult
  have hmaximum := @maximumCodeForWidth_eq initialCodeBits coding (by decide)
  obtain ⟨suffixes, -, hinitial⟩ := Metered.bind_eq_ok.mp hinitial
  obtain ⟨codes, -, hinitial⟩ := Metered.bind_eq_ok.mp hinitial
  obtain ⟨bound, hbound, hinitial⟩ := Metered.bind_eq_ok.mp hinitial
  obtain rfl := Except.ok.inj (hmaximum.symm.trans hbound)
  obtain ⟨-, rfl⟩ := Prod.mk.inj (Except.ok.inj hinitial)
  exact ⟨_, hresult, ⟨hinvariant, rfl, rfl, rfl, fun _ _ hentry => absurd hentry (by simp),
    fun _ => ⟨rfl, rfl, rfl⟩, fun _ hphrase => absurd hphrase (by simp)⟩, hreader, rfl⟩

end Coding

section Files

open CompressedStream (fallibleVec)
open Extraction (Fits written)

variable {coding : Coding} {pieces : List Bytes} {limits : Limits}

/-- Only an encoder that clears its table writes a CLEAR code. -/
theorem clear_of_mem_encode (h : .clear ∈ Lzw.encode coding.capacity pieces)
    (hpieces : coding.blockMode = true ∨ pieces.length ≤ 1) : coding.blockMode = true := by
  refine hpieces.resolve_right fun hle => ?_
  match pieces with
  | [] => cases h
  | [piece] =>
      rw [Lzw.encode, List.flatMap_nil, List.append_nil] at h
      exact Lzw.clear_notMem_encodePiece _ _ h
  | _ :: _ :: _ =>
      rw [List.length_cons, List.length_cons] at hle
      omega

/-- **What is coded is decoded again**, and written as it was. -/
theorem decodeLzw_encode {payload : Bytes} {padding : List Bool}
    (hpieces : coding.blockMode = true ∨ pieces.length ≤ 1) (hlt : payload.length < 2 ^ 64)
    (hpadding : padding.length < 8)
    (hbits : ofBytes payload = coding.bitsFrom initialCodeBits coding.firstEntry 0
      (Lzw.encode coding.capacity pieces) ++ padding) {extraction : Extraction Bytes}
    (hfits : Fits limits (extraction.outputBytes + pieces.flatten.length)) :
    (decodeLzw fallibleVec limits payload coding.maximumWidth coding.blockMode
        (2 ^ coding.maximumWidth)).result extraction = (.ok (), extraction.written pieces.flatten) := by
  obtain ⟨state, hstate, hfollows, hreader, hforce⟩ := coding.initialState_eq hlt
  have hsmall : ¬ (2 ^ initialCodeBits ≤ state.nextCode ∧ initialCodeBits < coding.maximumWidth) := by
    have hfirst : coding.firstEntry ≤ 257 := by
      unfold Coding.firstEntry
      split <;> decide
    have hcount : state.nextCode = coding.firstEntry + 0 := hfollows.nextCode_eq
    rintro ⟨hlarge, -⟩
    have hlarge : 512 ≤ state.nextCode := hlarge
    omega
  have hwiden := hfollows.widen
  rw [if_neg hsmall] at hwiden
  have hready : Ready coding initialCodeBits coding.firstEntry 0 [] none
      (Lzw.encode coding.capacity pieces) state := by
    refine ⟨state, hwiden, hfollows, coding.width_ge, coding.firstEntry_le, by decide, ?_⟩
    rw [hreader]
    exact .before (CodeReader.before_new hlt hpadding hbits) (Or.inr (Nat.le_refl _))
  have hlength : (Lzw.encode coding.capacity pieces).length < 8 * payload.length + 1 := by
    have hall := congrArg List.length hbits
    rw [BitString.length_ofBytes, List.length_append] at hall
    have hle := @Coding.length_le_bitsFrom coding (Lzw.encode coding.capacity pieces)
      initialCodeBits coding.firstEntry 0 (by decide)
    omega
  rw [decodeLzw, Session.result_lift_bind hstate]
  exact hready.run _ hlength (fun hmem => clear_of_mem_encode hmem hpieces)
    (Lzw.decode_encode _ _) hfits

/-- The flags of the header are read back. -/
theorem flags_eq (coding : Coding) : coding.flags &&& reservedFlags = 0 ∧
    (coding.flags &&& codeBitsMask).toNat = coding.maximumWidth ∧
    decide (coding.flags &&& blockModeFlag ≠ 0) = coding.blockMode := by
  obtain ⟨width, blockMode, hge, hle⟩ := coding
  have hcases : ∀ width < 17, 9 ≤ width → ∀ blockMode : Bool,
      (UInt8.ofNat width ||| if blockMode then blockModeFlag else 0) &&& reservedFlags = 0 ∧
      ((UInt8.ofNat width ||| if blockMode then blockModeFlag else 0) &&& codeBitsMask).toNat = width ∧
      decide ((UInt8.ofNat width ||| if blockMode then blockModeFlag else 0) &&& blockModeFlag ≠ 0)
        = blockMode := by decide
  exact hcases width (Nat.lt_succ_of_le hle) hge blockMode

/-- The header of a file is accepted. -/
theorem parse_compress (coding : Coding) (pieces : List Bytes) (hframes : 1 ≤ limits.maxStreamFrames)
    (hdictionary : 4 * 2 ^ coding.maximumWidth ≤ limits.maxDictionaryBytes) :
    (parse (coding.compress pieces) limits).result = .ok
      (⟨coding.maximumWidth, coding.blockMode, 4 * 2 ^ coding.maximumWidth⟩,
        ⟨coding.maximumWidth, coding.blockMode, 2 ^ coding.maximumWidth, 4 * 2 ^ coding.maximumWidth⟩) := by
  obtain ⟨hreserved, hwidth, hblock⟩ := flags_eq coding
  have hsmall : 2 ^ coding.maximumWidth ≤ 2 ^ 16 := Nat.pow_le_pow_right (by decide) coding.width_le
  have hentries : (1 <<< coding.maximumWidth) % 2 ^ 64 = 2 ^ coding.maximumWidth := by
    rw [Nat.one_shiftLeft, Nat.mod_eq_of_lt (by omega)]
  have hflags : (dictionaryOf coding.flags limits).result = .ok
      (⟨coding.maximumWidth, coding.blockMode, 4 * 2 ^ coding.maximumWidth⟩,
        ⟨coding.maximumWidth, coding.blockMode, 2 ^ coding.maximumWidth,
          4 * 2 ^ coding.maximumWidth⟩) := by
    have hrange : ¬ ¬ (minimumCodeBits ≤ (coding.flags &&& codeBitsMask).toNat ∧
        (coding.flags &&& codeBitsMask).toNat ≤ maximumCodeBits) := by
      rw [hwidth]
      exact not_not_intro ⟨coding.width_ge, coding.width_le⟩
    rw [dictionaryOf, if_neg (not_not_intro hreserved)]
    dsimp only
    rw [if_neg hrange, hwidth, hblock,
      result_orRefuse_bind (checkedShl_of_lt (Nat.lt_of_le_of_lt coding.width_le (by decide))),
      hentries, result_orRefuse_bind (checkedMul_of_lt (by omega)), Nat.mul_comm _ 4,
      Metered.result_bind_ok (checkLimit_of_le hdictionary _)]
    rfl
  have hlength : ¬ (coding.compress pieces).length < headerBytes := by
    show ¬ (_ + 1 + 1 + 1 < 3)
    omega
  have hmagic : ¬ ((coding.compress pieces).take headerBytes).take 2 ≠ unixCompressMagic :=
    not_not_intro rfl
  have hflag : ((coding.compress pieces).take headerBytes)[2]? = some coding.flags := rfl
  have hcount : (checkFrameCount 1 limits).result = .ok () := checkLimit_of_le hframes _
  rw [parse, if_neg hlength, if_neg hmagic, Metered.result_bind_ok hcount, result_orRefuse_bind hflag]
  exact hflags

/-- **A file is extracted** to its pieces, as one frame without a checksum. -/
theorem extract_compress {coding : Coding} {pieces : List Bytes}
    (hpieces : coding.blockMode = true ∨ pieces.length ≤ 1)
    (hinput : (coding.compress pieces).length < 2 ^ 64)
    (hdictionary : 4 * 2 ^ coding.maximumWidth ≤ limits.maxDictionaryBytes)
    (hfits : Fits limits pieces.flatten.length) :
    (extract fallibleVec limits ⟨coding.maximumWidth, coding.blockMode, 2 ^ coding.maximumWidth,
        4 * 2 ^ coding.maximumWidth⟩ (coding.compress pieces)).result ⟨[], 0, 0, 0⟩
      = (.ok (), ⟨pieces.flatten, pieces.flatten.length, 1, 0⟩) := by
  obtain ⟨count, hcount, -, hpack⟩ := BitString.ofBytes_pack (coding.bitsFrom initialCodeBits
    coding.firstEntry 0 (Lzw.encode coding.capacity pieces))
  have hlength : ¬ (coding.compress pieces).length < headerBytes := by
    show ¬ (_ + 1 + 1 + 1 < 3)
    omega
  have hpayload : (coding.compress pieces).drop headerBytes = BitString.pack (coding.bitsFrom
      initialCodeBits coding.firstEntry 0 (Lzw.encode coding.capacity pieces)) := rfl
  have hshort : ((coding.compress pieces).drop headerBytes).length < 2 ^ 64 := by
    rw [List.length_drop]
    omega
  have hpadding : (List.replicate count false).length < 8 := by
    rwa [List.length_replicate]
  have hstart : Fits limits ((⟨[], 0, 0, 0⟩ : Extraction Bytes).outputBytes + pieces.flatten.length) := by
    rwa [Nat.zero_add]
  have hdecode := decodeLzw_encode hpieces hshort hpadding hpack hstart
  have hcharge : (forEach (chunks controlChunkSize ((coding.compress pieces).drop headerBytes))
      fun chunk => checkpoint chunk.length).result = .ok () := forEach_eq_ok.mpr fun _ _ => rfl
  rw [extract, Session.result_lift_bind (checkLimit_of_le hdictionary _),
    Session.result_lift_bind (result_checkpoint _), if_neg hlength]
  dsimp only
  rw [Session.result_lift_bind hcharge, Session.result_bind_ok hdecode, written, List.nil_append,
    Nat.zero_add]
  rfl

/-- What opening a file makes of it. -/
def compressedStream (coding : Coding) (pieces : List Bytes) (limits : Limits) : CompressedStream where
  bytes := coding.compress pieces
  info := {
    format := .unixCompress
    compressedSize := (coding.compress pieces).length
    uncompressedSize := none
    kind := .unixCompress
      ⟨coding.maximumWidth, coding.blockMode, 4 * 2 ^ coding.maximumWidth⟩ }
  layout := .unixCompress
    ⟨coding.maximumWidth, coding.blockMode, 2 ^ coding.maximumWidth, 4 * 2 ^ coding.maximumWidth⟩
  limits

theorem openBytes_compress (coding : Coding) (pieces : List Bytes) (xxHash32 : Bytes → Nat)
    (hinput : (coding.compress pieces).length ≤ limits.maxTotalInputBytes)
    (hframes : 1 ≤ limits.maxStreamFrames)
    (hdictionary : 4 * 2 ^ coding.maximumWidth ≤ limits.maxDictionaryBytes) :
    (CompressedStream.openBytes xxHash32 (coding.compress pieces) limits).result
      = .ok (compressedStream coding pieces limits) := by
  have hmagic : 2 ≤ (coding.compress pieces).length ∧
      (coding.compress pieces).take 2 = unixCompressMagic := by
    refine ⟨?_, rfl⟩
    show 2 ≤ _ + 1 + 1
    omega
  have hformat : (detectFormat (coding.compress pieces)).result = .ok .unixCompress := by
    rw [detectFormat, if_pos hmagic]
    rfl
  have hparse : (CompressedStream.parseAs xxHash32 (coding.compress pieces) limits .unixCompress).result
      = .ok ((compressedStream coding pieces limits).info.kind, none,
        (compressedStream coding pieces limits).layout) := by
    rw [CompressedStream.parseAs, Metered.result_bind_ok (parse_compress coding pieces hframes hdictionary)]
    rfl
  have hopen : (CompressedStream.openFormat xxHash32 (coding.compress pieces) limits
      .unixCompress).result = .ok (compressedStream coding pieces limits) := by
    rw [CompressedStream.openFormat, Metered.result_bind_ok hparse]
    rfl
  rw [CompressedStream.openBytes, CompressedStream.openBytesInner,
    Metered.result_bind_ok (checkLimit_of_le hinput _), Metered.result_bind_ok (result_consumeBytes _)]
  show (detectFormat _ >>= _).result = _
  rw [Metered.result_bind_ok hformat]
  exact hopen

/--
**Unix `compress` decoding undoes coding**: the file of any pieces, with the table cleared between
them or with one piece only, is taken for what it is, and decompressed to the pieces.
-/
theorem decompress_compress {coding : Coding} {pieces : List Bytes} {δ δ' : Type}
    (decoders : StreamDecoders δ δ') (xxHash32 : Bytes → Nat)
    (hpieces : coding.blockMode = true ∨ pieces.length ≤ 1)
    (hsmall : (coding.compress pieces).length < 2 ^ 64)
    (hinput : (coding.compress pieces).length ≤ limits.maxTotalInputBytes)
    (hframes : 1 ≤ limits.maxStreamFrames)
    (hdictionary : 4 * 2 ^ coding.maximumWidth ≤ limits.maxDictionaryBytes)
    (hfits : Fits limits pieces.flatten.length) :
    ∃ stream, (CompressedStream.openBytes xxHash32 (coding.compress pieces) limits).result = .ok stream ∧
      (stream.decompress decoders).result = .ok pieces.flatten := by
  refine ⟨_, openBytes_compress coding pieces xxHash32 hinput hframes hdictionary, ?_⟩
  have hextract := extract_compress hpieces hsmall hdictionary hfits
  have hlayout : ((compressedStream coding pieces limits).extractLayout decoders fallibleVec).result
      ⟨[], 0, 0, 0⟩ = (.ok (), ⟨pieces.flatten, pieces.flatten.length, 1, 0⟩) := hextract
  have hextracted : ((compressedStream coding pieces limits).extractTo decoders fallibleVec).result
      ⟨[], 0, 0, 0⟩ = (.ok ⟨pieces.flatten.length, 1, 0⟩,
        ⟨pieces.flatten, pieces.flatten.length, 1, 0⟩) := by
    rw [CompressedStream.extractTo, Session.result_bind_ok hlayout]
    rfl
  rw [CompressedStream.decompress, Session.result_discard, Session.result_bind_ok hextracted]
  rfl

/-- A table of nine bits, cleared once; the second code of the first piece stands for itself. -/
theorem decompress_compress_cleared :
    ∃ stream, (CompressedStream.openBytes (fun _ => 0)
        (Coding.compress ⟨9, true, by decide, by decide⟩ [[7, 7, 7], [7, 9]]) {}).result = .ok stream ∧
      (stream.decompress (⟨⟨⟨fun _ _ => (.panicked, ()), fun _ => 0⟩, fun _ => ()⟩,
          ⟨⟨fun _ _ => (.panicked, ()), fun _ => 0⟩, fun _ => .ok (), fun _ => none, fun _ => none⟩⟩ :
        StreamDecoders Unit Unit)).result = .ok [7, 7, 7, 7, 9] :=
  decompress_compress _ _ (Or.inl rfl) (by decide +kernel) (by decide +kernel) (by decide)
    (by decide) ⟨by decide, by decide, by decide⟩

end Files

end UnixCompress

end Un7z
