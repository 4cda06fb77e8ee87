/-
LZW decoding is safe on any payload.

Every entry of the table has a prefix below itself, and so does every stale one that a
CLEAR code has put out of bounds, since it is overwritten before it is in bounds again.
So a walk goes down until it is at a literal, in no more steps than there are codes, and
none of the guards in its way can fire (`LzwState.Invariant`).  The reader takes codes
out of a group that holds complete codes of one width only, and a new width starts a new
group (`CodeReader.Aligned`).  What is left of the errors are the two about codes that
no encoder writes, and those of the output.
-/
import Un7z.UnixCompress
import Un7z.Lib.Loop

namespace Un7z

open Metered (fail)

namespace UnixCompress

theorem orRefuse_eq_ok {α : Type} {value : Option α} {detail : String} {a : α} :
    (orRefuse value detail).result = .ok a ↔ value = some a := orStreamFormat_eq_ok

/-- A check that holds, in front of the rest. -/
theorem result_orRefuse_bind {α β : Type} {value : Option α} {detail : String} {a : α}
    {f : α → Work β} (h : value = some a) : (orRefuse value detail >>= f).result = (f a).result :=
  Metered.result_bind_ok (orRefuse_eq_ok.mpr h)

/-! ### Codes -/

namespace CodeReader

variable {reader : CodeReader} {width : Nat} {force : Bool}

/-- The group that was started lies in the input, and unless a new one is due it is cut into codes. -/
structure Aligned (width : Nat) (force : Bool) (reader : CodeReader) : Prop where
  input_lt : reader.input.length < 2 ^ 64
  position_eq : reader.position = reader.groupStart + reader.groupLength
  position_le : reader.position ≤ reader.input.length
  groupLength_le : reader.groupLength ≤ 16
  validBits_le : reader.validBits ≤ 8 * reader.groupLength
  aligned : force = false → width ∣ reader.bitOffset ∧ width ∣ reader.validBits

theorem aligned_new {input : Bytes} (h : input.length < 2 ^ 64) : (new input).Aligned width force where
  input_lt := h
  position_eq := rfl
  position_le := Nat.zero_le _
  groupLength_le := Nat.zero_le _
  validBits_le := Nat.zero_le _
  aligned := fun _ => ⟨Nat.dvd_zero _, Nat.dvd_zero _⟩

theorem Aligned.forced {width' : Nat} (h : reader.Aligned width force) :
    reader.Aligned width' true :=
  { h with aligned := fun heq => absurd heq (by decide) }

/-- The bits that may still be read. -/
def bitsLeft (reader : CodeReader) : Nat :=
  8 * (reader.input.length - reader.position) + (reader.validBits - reader.bitOffset)

theorem gatherBits_result {group : Bytes} {bitOffset : Nat} (count : Nat) :
    ∀ {outputBit value : Nat}, bitOffset + outputBit + count ≤ 8 * group.length →
      bitOffset + outputBit + count < 2 ^ 64 → outputBit + count ≤ 32 → value < 2 ^ outputBit →
      ∃ code < 2 ^ (outputBit + count),
        (gatherBits group bitOffset count outputBit value).result = .ok code := by
  induction count with
  | zero =>
      intro outputBit value _ _ _ hvalue
      exact ⟨value, hvalue, rfl⟩
  | succ count ih =>
      intro outputBit value hgroup hlt hwidth hvalue
      have hbyte : (bitOffset + outputBit) / 8 < group.length := by omega
      have hshift : checkedShl 32 ((group[(bitOffset + outputBit) / 8] >>>
          UInt8.ofNat ((bitOffset + outputBit) % 8)) &&& 1).toNat outputBit
            = some ((((group[(bitOffset + outputBit) / 8] >>>
          UInt8.ofNat ((bitOffset + outputBit) % 8)) &&& 1).toNat <<< outputBit) % 2 ^ 32) :=
        checkedShl_of_lt (by omega)
      rw [gatherBits, result_orRefuse_bind (checkedAdd_of_lt (by omega)),
        result_orRefuse_bind (List.getElem?_eq_getElem hbyte), result_orRefuse_bind hshift]
      have hbit : ((group[(bitOffset + outputBit) / 8] >>>
          UInt8.ofNat ((bitOffset + outputBit) % 8)) &&& 1).toNat < 2 := by
        rw [UInt8.toNat_and]
        exact Nat.lt_succ_of_le Nat.and_le_right
      generalize ((group[(bitOffset + outputBit) / 8] >>>
          UInt8.ofNat ((bitOffset + outputBit) % 8)) &&& 1).toNat = bit at hbit
      have hshifted : (bit <<< outputBit) % 2 ^ 32 < 2 ^ (outputBit + 1) := by
        refine Nat.lt_of_le_of_lt (Nat.mod_le _ _) ?_
        rw [Nat.shiftLeft_eq, Nat.pow_succ, Nat.mul_comm]
        exact Nat.mul_lt_mul_of_pos_left hbit (Nat.two_pow_pos outputBit)
      have hnext : value ||| (bit <<< outputBit) % 2 ^ 32 < 2 ^ (outputBit + 1) :=
        Nat.or_lt_two_pow
          (Nat.lt_trans hvalue (Nat.pow_lt_pow_right (by decide) (Nat.lt_succ_self _))) hshifted
      obtain ⟨code, hcode, hresult⟩ := ih (by omega) (by omega) (by omega) hnext
      rw [show outputBit + 1 + count = outputBit + (count + 1) by omega] at hcode
      exact ⟨code, hcode, hresult⟩

theorem readCode_result (h : reader.Aligned width false) (hwidth : width ≤ 16)
    (hmore : reader.bitOffset < reader.validBits) :
    ∃ code < 2 ^ width, (reader.readCode width).result
        = .ok (code, { reader with bitOffset := reader.bitOffset + width }) ∧
      reader.bitOffset + width ≤ reader.validBits := by
  have hposition := h.position_le
  have hinput := h.input_lt
  have hgroup := h.groupLength_le
  have hvalid := h.validBits_le
  rw [h.position_eq] at hposition
  have hfits : reader.bitOffset + width ≤ reader.validBits := by
    obtain ⟨⟨a, ha⟩, ⟨b, hb⟩⟩ := h.aligned rfl
    rw [ha, hb] at hmore ⊢
    have hlt : a < b := Nat.lt_of_mul_lt_mul_left hmore
    calc width * a + width = width * (a + 1) := (Nat.mul_succ _ _).symm
      _ ≤ width * b := Nat.mul_le_mul_left _ hlt
  have hlength : ((reader.input.drop reader.groupStart).take reader.groupLength).length
      = reader.groupLength := by
    rw [List.length_take, List.length_drop]
    omega
  obtain ⟨code, hcode, hbits⟩ := @gatherBits_result
    ((reader.input.drop reader.groupStart).take reader.groupLength) reader.bitOffset width 0 0
    (by rw [hlength]; omega) (by omega) (by omega) (by decide)
  rw [Nat.zero_add] at hcode
  have hshort : code < 2 ^ 16 := Nat.lt_of_lt_of_le hcode (Nat.pow_le_pow_right (by decide) hwidth)
  refine ⟨code, hcode, ?_, hfits⟩
  rw [readCode, result_orRefuse_bind (checkedAdd_of_lt (by omega)), if_neg (by omega),
    Metered.result_bind_ok hbits, result_orRefuse_bind (checkedAdd_of_lt (by omega)),
    result_orRefuse_bind (tryFrom_of_lt hshort)]
  rfl

/-- A new group is cut into codes of the width it is started for. -/
theorem refill_result (h : reader.Aligned width force) {next : Nat} (hpos : 0 < next)
    (hnext : next ≤ 16) :
    ∃ ready reader', (reader.refill next).result = .ok (ready, reader') ∧
      (ready = true → reader'.Aligned next false ∧ reader'.bitOffset < reader'.validBits ∧
        reader'.bitsLeft ≤ reader.bitsLeft) := by
  have hposition := h.position_le
  have hinput := h.input_lt
  rw [refill, if_neg (by omega)]
  by_cases hend : (reader.input.drop reader.position).isEmpty = true
  · rw [if_pos hend]
    exact ⟨false, reader, rfl, fun heq => absurd heq (by decide)⟩
  · have hmore : reader.position < reader.input.length := by
      rw [List.isEmpty_iff, List.drop_eq_nil_iff] at hend
      omega
    rw [if_neg hend]
    generalize hlength : min (reader.input.drop reader.position).length next = length
    rw [List.length_drop] at hlength
    have hdiv : 8 * length / next * next ≤ 8 * length := Nat.div_mul_le_self _ _
    have hcodes : length * 8 / next * next ≤ 8 * length := by rwa [Nat.mul_comm length]
    rw [result_orRefuse_bind (checkedAdd_of_lt (by omega)),
      result_orRefuse_bind (checkedMul_of_lt (by omega)), if_neg (by omega),
      result_orRefuse_bind (checkedMul_of_lt (by omega))]
    refine ⟨_, _, rfl, fun hready => ?_⟩
    have hready : length * 8 / next ≠ 0 := of_decide_eq_true hready
    have hvalid : 0 < length * 8 / next * next := Nat.mul_pos (Nat.pos_of_ne_zero hready) hpos
    refine ⟨⟨hinput, rfl, ?_, ?_, hcodes, fun _ => ⟨Nat.dvd_zero _, Nat.dvd_mul_left _ _⟩⟩, hvalid, ?_⟩
    · show reader.position + length ≤ reader.input.length
      omega
    · show length ≤ 16
      omega
    · show 8 * (reader.input.length - (reader.position + length)) + (length * 8 / next * next - 0)
        ≤ 8 * (reader.input.length - reader.position) + _
      omega

/-- **Reading a code** never fails, and a code is below two to the power of its width. -/
theorem nextCode_result (h : reader.Aligned width force) (hpos : 0 < width) (hwidth : width ≤ 16) :
    ∃ out reader', (reader.nextCode width force).result = .ok (out, reader') ∧
      ∀ code, out = some code → code < 2 ^ width ∧ reader'.Aligned width false ∧
        reader'.bitsLeft < reader.bitsLeft := by
  have hread : ∀ reader' : CodeReader, reader'.Aligned width false →
      reader'.bitOffset < reader'.validBits → reader'.bitsLeft ≤ reader.bitsLeft →
      ∃ code < 2 ^ width, ∃ last, (reader'.readCode width).result = .ok (code, last) ∧
        last.Aligned width false ∧ last.bitsLeft < reader.bitsLeft := by
    intro reader' haligned hmore hleft
    obtain ⟨code, hcode, hresult, hfits⟩ := readCode_result haligned hwidth hmore
    refine ⟨code, hcode, _, hresult, { haligned with aligned := fun _ => ?_ }, ?_⟩
    · obtain ⟨hoffset, hvalid⟩ := haligned.aligned rfl
      exact ⟨Nat.dvd_add hoffset (Nat.dvd_refl _), hvalid⟩
    · refine Nat.lt_of_lt_of_le ?_ hleft
      show 8 * (reader'.input.length - reader'.position)
          + (reader'.validBits - (reader'.bitOffset + width))
        < 8 * (reader'.input.length - reader'.position)
          + (reader'.validBits - reader'.bitOffset)
      omega
  by_cases hrefill : force = true ∨ reader.bitOffset ≥ reader.validBits
  · obtain ⟨ready, reader', hresult, hready⟩ := refill_result h hpos hwidth
    rw [nextCode, if_pos (by simpa using hrefill), Metered.result_bind_ok hresult]
    cases ready with
    | false => exact ⟨none, reader', rfl, fun _ heq => absurd heq (by simp)⟩
    | true =>
        obtain ⟨haligned, hmore, hleft⟩ := hready rfl
        obtain ⟨code, hcode, last, hlast, hkept⟩ := hread reader' haligned hmore hleft
        refine ⟨some code, last, ?_, fun code' heq => ?_⟩
        · show (reader'.readCode width >>= _).result = _
          rw [Metered.result_bind_ok hlast]
          rfl
        · obtain rfl := Option.some.inj heq
          exact ⟨hcode, hkept⟩
  · obtain ⟨hforce, hmore⟩ := not_or.mp hrefill
    obtain rfl : force = false := Bool.not_eq_true _ ▸ hforce
    obtain ⟨code, hcode, last, hlast, hkept⟩ := hread reader h (by omega) (Nat.le_refl _)
    refine ⟨some code, last, ?_, fun code' heq => ?_⟩
    · rw [nextCode, if_neg (by simpa using hmore), Metered.result_bind_ok rfl]
      show (reader.readCode width >>= _).result = _
      rw [Metered.result_bind_ok hlast]
      rfl
    · obtain rfl := Option.some.inj heq
      exact ⟨hcode, hkept⟩

end CodeReader

/-! ### The dictionary -/

/-- The parameters of a header that was accepted. -/
structure LzwParameters.Fit (parameters : LzwParameters) : Prop where
  width_ge : 9 ≤ parameters.maximumCodeBits
  width_le : parameters.maximumCodeBits ≤ 16
  entries : parameters.dictionaryEntries = 2 ^ parameters.maximumCodeBits
  codes : parameters.maximumCodes = 2 ^ parameters.maximumCodeBits

/-- The code is not the one that clears the table. -/
def LzwParameters.Plain (parameters : LzwParameters) (code : Nat) : Prop :=
  parameters.blockMode = true → code ≠ clearCode

theorem maximumCodeForWidth_result {width maximumWidth : Nat} (h : width < 32) :
    ∃ code, (maximumCodeForWidth width maximumWidth).result = .ok code := by
  have hone : 1 ≤ (1 <<< width) % 2 ^ 32 := by
    rw [Nat.one_shiftLeft, Nat.mod_eq_of_lt (Nat.pow_lt_pow_right (by decide) h)]
    exact Nat.one_le_two_pow
  rw [maximumCodeForWidth, result_orRefuse_bind (checkedShl_of_lt h)]
  split
  · exact ⟨_, rfl⟩
  · exact ⟨_, orRefuse_eq_ok.mpr (checkedSub_of_le hone)⟩

theorem setAt_result {α : Type} {values : List α} {index : Nat} (h : index < values.length)
    (value : α) (detail : String) :
    (setAt values index value detail).result = .ok (values.set index value) := by
  rw [setAt, if_pos h]
  rfl

namespace LzwState

variable {parameters : LzwParameters} {state : LzwState}

/-- What holds at the top of every round. -/
structure Invariant (parameters : LzwParameters) (state : LzwState) : Prop where
  prefixes_length : state.prefixes.length = 2 ^ parameters.maximumCodeBits
  suffixes_length : state.suffixes.length = 2 ^ parameters.maximumCodeBits
  width_ge : 9 ≤ state.codeBits
  /-- The width never exceeds the maximum of the header. -/
  width_le : state.codeBits ≤ parameters.maximumCodeBits
  next_ge : 256 ≤ state.nextCode
  next_gt : parameters.blockMode = true → 257 ≤ state.nextCode
  /-- The next code never exceeds the number of codes. -/
  next_le : state.nextCode ≤ 2 ^ parameters.maximumCodeBits
  /-- An entry has a prefix below itself, and never the CLEAR code. -/
  prefix_lt : ∀ code, 255 < code → code < state.nextCode →
    ∃ previous, state.prefixes[code]? = some previous ∧ previous < code ∧ parameters.Plain previous
  previous_lt : ∀ previous, state.previousCode = some previous →
    previous < state.nextCode ∧ parameters.Plain previous
  reader : state.reader.Aligned state.codeBits state.forceRefill

theorem widen_result (hfit : parameters.Fit) (h : state.Invariant parameters) :
    ∃ next, (state.widen parameters).result = .ok next ∧ next.Invariant parameters ∧
      next.reader = state.reader := by
  have hwidth := h.width_le
  have hmaximum := hfit.width_le
  rw [widen]
  by_cases hwide : state.nextCode > state.maximumCurrentCode ∧
      state.codeBits < parameters.maximumCodeBits
  · obtain ⟨code, hcode⟩ := @maximumCodeForWidth_result (state.codeBits + 1)
      parameters.maximumCodeBits (by omega)
    rw [if_pos hwide, result_orRefuse_bind (checkedAdd_of_lt (by omega)),
      Metered.result_bind_ok hcode]
    refine ⟨_, rfl, { h with width_ge := ?_, width_le := hwide.2, reader := h.reader.forced }, rfl⟩
    exact Nat.le_trans h.width_ge (Nat.le_succ _)
  · rw [if_neg hwide]
    exact ⟨state, rfl, h, rfl⟩

/-- A CLEAR code leaves stale entries behind, but all of them out of bounds. -/
theorem clear_result (hfit : parameters.Fit) (h : state.Invariant parameters)
    (hblock : parameters.blockMode = true) :
    ∃ next, (state.clear parameters).result = .ok next ∧ next.Invariant parameters ∧
      next.reader = state.reader := by
  obtain ⟨code, hcode⟩ := @maximumCodeForWidth_result initialCodeBits
    parameters.maximumCodeBits (by decide)
  rw [clear, Metered.result_bind_ok hcode]
  refine ⟨_, rfl, { h with
    width_ge := Nat.le_refl _, width_le := hfit.width_ge, next_ge := ?_, next_gt := ?_, next_le := ?_,
    prefix_lt := ?_, previous_lt := ?_, reader := h.reader.forced }, rfl⟩
  · show 256 ≤ 257
    decide
  · exact fun _ => Nat.le_refl _
  · exact Nat.le_trans (h.next_gt hblock) h.next_le
  · intro code hlow hhigh
    exact h.prefix_lt code hlow (Nat.lt_of_lt_of_le hhigh (h.next_gt hblock))
  · exact fun previous heq => absurd heq (by simp)

/-- **A walk** ends at a literal, without coming to one of its guards. -/
theorem walk_result (hfit : parameters.Fit) (h : state.Invariant parameters) (fuel : Nat) :
    ∀ {traversed code : Nat} {expansion : Bytes}, code < state.nextCode → code < 256 + fuel →
      traversed + (code - 255) ≤ parameters.dictionaryEntries →
      ∃ literal expansion', (walk parameters state fuel traversed code expansion).result
          = .ok (literal, expansion') ∧ literal ≤ 255 ∧
        expansion'.length ≤ expansion.length + (code - 255) := by
  have hlimit : parameters.dictionaryEntries ≤ 2 ^ 16 := by
    rw [hfit.entries]
    exact Nat.pow_le_pow_right (by decide) hfit.width_le
  induction fuel with
  | zero =>
      intro traversed code expansion _ hfuel _
      exact ⟨code, expansion, rfl, by omega, Nat.le_add_right _ _⟩
  | succ fuel ih =>
      intro traversed code expansion hcode hfuel htraversed
      rw [walk]
      by_cases hlow : code > 255
      · obtain ⟨previous, hprefix, hlt, -⟩ := h.prefix_lt code hlow hcode
        have hin : code < state.suffixes.length := by
          rw [h.suffixes_length]
          exact Nat.lt_of_lt_of_le hcode h.next_le
        obtain ⟨literal, expansion', hwalk, hliteral, hlength⟩ :=
          @ih (traversed + 1) previous (state.suffixes[code] :: expansion)
            (Nat.lt_trans hlt hcode) (by omega) (by omega)
        refine ⟨literal, expansion', ?_, hliteral, ?_⟩
        · rw [if_pos hlow, Metered.result_bind_ok (result_checkpoint 1),
            result_orRefuse_bind (checkedAdd_of_lt (by omega)), if_neg (by omega),
            if_neg (by omega), result_orRefuse_bind (List.getElem?_eq_getElem hin),
            result_orRefuse_bind hprefix]
          exact hwalk
        · rw [List.length_cons] at hlength
          omega
      · rw [if_neg hlow]
        exact ⟨code, expansion, rfl, by omega, Nat.le_add_right _ _⟩

/-- Each prefix step of a walk goes down, so it is at a literal soon. -/
theorem Invariant.prefix_chain (h : state.Invariant parameters) (code : Nat) :
    code < state.nextCode → ∃ steps ≤ code - 255,
      (fun code => state.prefixes.getD code 0)^[steps] code ≤ 255 := by
  induction code using Nat.strongRecOn with
  | ind code ih =>
      intro hcode
      by_cases hlow : code > 255
      · obtain ⟨previous, hprefix, hlt, -⟩ := h.prefix_lt code hlow hcode
        obtain ⟨steps, hsteps, hend⟩ := ih previous hlt (Nat.lt_trans hlt hcode)
        refine ⟨steps + 1, by omega, ?_⟩
        rw [Function.iterate_succ_apply, List.getD_eq_getElem?_getD, hprefix]
        exact hend
      · exact ⟨0, Nat.zero_le _, by simpa using hlow⟩

/-- The error of a code that is not in the table and is not the next one either. -/
def uninitialized : Error :=
  streamFormatError "unix-compress" "code references an uninitialized dictionary entry"

/-- **An expansion** is refused for a code out of bounds only, and is no longer than the table. -/
theorem expand_ensures (hfit : parameters.Fit) (h : state.Invariant parameters)
    {encodedCode previous : Nat} (hprevious : previous < state.nextCode) :
    (state.expand parameters encodedCode previous).Ensures
      (fun out => encodedCode ≤ state.nextCode ∧ out.2.length ≤ parameters.dictionaryEntries)
      (· = uninitialized) := by
  have hentries : parameters.dictionaryEntries = 2 ^ parameters.maximumCodeBits := hfit.entries
  have hlarge : 2 ^ 9 ≤ 2 ^ parameters.maximumCodeBits :=
    Nat.pow_le_pow_right (by decide) hfit.width_ge
  have hnext := h.next_le
  have hend : ∀ {literal : Nat} {expansion : Bytes}, literal ≤ 255 →
      (orRefuse (tryFrom 8 literal) "expanded literal is not representable" >>= fun literal =>
        (pure (UInt8.ofNat literal, UInt8.ofNat literal :: expansion) : Work (UInt8 × Bytes))).result
        = .ok (UInt8.ofNat literal, UInt8.ofNat literal :: expansion) := by
    intro literal expansion hliteral
    rw [result_orRefuse_bind (tryFrom_of_lt (by omega))]
    rfl
  rw [expand]
  by_cases hbeyond : encodedCode > state.nextCode
  · rw [if_pos hbeyond]
    exact Metered.ensures_of_error rfl rfl
  · rw [if_neg hbeyond]
    by_cases hsame : encodedCode = state.nextCode
    · obtain ⟨literal, expansion, hwalk, hliteral, hlength⟩ :=
        @walk_result parameters state hfit h (parameters.dictionaryEntries + 1) 0 previous
          [state.firstCharacter] hprevious (by omega) (by omega)
      rw [if_pos hsame]
      refine Metered.ensures_bind_ok hwalk (Metered.ensures_of_ok (hend hliteral) ⟨by omega, ?_⟩)
      rw [List.length_singleton] at hlength
      rw [List.length_cons]
      omega
    · obtain ⟨literal, expansion, hwalk, hliteral, hlength⟩ :=
        @walk_result parameters state hfit h (parameters.dictionaryEntries + 1) 0 encodedCode []
          (by omega) (by omega) (by omega)
      rw [if_neg hsame]
      refine Metered.ensures_bind_ok hwalk (Metered.ensures_of_ok (hend hliteral) ⟨by omega, ?_⟩)
      rw [List.length_nil] at hlength
      rw [List.length_cons]
      omega

/-- A new entry has the previous code as its prefix, which is below it. -/
theorem addEntry_result (hfit : parameters.Fit) (h : state.Invariant parameters) (first : UInt8)
    {encodedCode previous : Nat} (hprevious : previous < state.nextCode)
    (hplain : parameters.Plain previous) (hencoded : encodedCode ≤ state.nextCode)
    (hlt : encodedCode < 2 ^ parameters.maximumCodeBits) :
    ∃ next, (state.addEntry parameters first previous).result = .ok next ∧
      next.Invariant parameters ∧ encodedCode < next.nextCode ∧ next.reader = state.reader := by
  have hsmall : 2 ^ parameters.maximumCodeBits ≤ 2 ^ 16 :=
    Nat.pow_le_pow_right (by decide) hfit.width_le
  rw [addEntry, hfit.codes]
  by_cases hroom : state.nextCode < 2 ^ parameters.maximumCodeBits
  · have hprefixes : state.nextCode < state.prefixes.length := by rwa [h.prefixes_length]
    have hsuffixes : state.nextCode < state.suffixes.length := by rwa [h.suffixes_length]
    rw [if_pos hroom, Metered.result_bind_ok (setAt_result hprefixes _ _),
      Metered.result_bind_ok (setAt_result hsuffixes _ _),
      result_orRefuse_bind (checkedAdd_of_lt (by omega))]
    refine ⟨_, rfl, { h with
      prefixes_length := ?_, suffixes_length := ?_, next_ge := ?_, next_gt := ?_, next_le := hroom,
      prefix_lt := ?_, previous_lt := ?_ }, Nat.lt_succ_of_le hencoded, rfl⟩
    · exact List.length_set.trans h.prefixes_length
    · exact List.length_set.trans h.suffixes_length
    · exact Nat.le_succ_of_le h.next_ge
    · exact fun hblock => Nat.le_succ_of_le (h.next_gt hblock)
    · intro code hlow hhigh
      show ∃ previous', (state.prefixes.set state.nextCode previous)[code]? = some previous' ∧ _
      rcases Nat.lt_or_eq_of_le (Nat.le_of_lt_succ hhigh) with hold | rfl
      · rw [List.getElem?_set_ne (by omega)]
        exact h.prefix_lt code hlow hold
      · exact ⟨previous, List.getElem?_set_self hprefixes, hprevious, hplain⟩
    · intro previous' heq
      obtain ⟨hbelow, hplain'⟩ := h.previous_lt previous' heq
      exact ⟨Nat.lt_succ_of_lt hbelow, hplain'⟩
  · rw [if_neg hroom]
    exact ⟨state, rfl, h, by omega, rfl⟩

/-- Only the previous code and the first character are left to be moved on. -/
theorem Invariant.moveOn (h : state.Invariant parameters) {encodedCode : Nat} (first : UInt8)
    (hlt : encodedCode < state.nextCode) (hplain : parameters.Plain encodedCode) :
    ({ state with firstCharacter := first, previousCode := some encodedCode } : LzwState).Invariant
      parameters where
  __ := h
  previous_lt := fun previous heq => by
    obtain rfl := Option.some.inj heq
    exact ⟨hlt, hplain⟩

/-- The state after its next code has been read. -/
theorem Invariant.read (hfit : parameters.Fit) (h : state.Invariant parameters) :
    ∃ out reader, (state.reader.nextCode state.codeBits state.forceRefill).result = .ok (out, reader) ∧
      ∀ code, out = some code → code < 2 ^ state.codeBits ∧
        code < 2 ^ parameters.maximumCodeBits ∧
        ({ state with reader, forceRefill := false } : LzwState).Invariant parameters ∧
        reader.bitsLeft < state.reader.bitsLeft := by
  have hge := h.width_ge
  have hle := h.width_le
  have hmaximum := hfit.width_le
  obtain ⟨out, reader, hresult, hout⟩ :=
    CodeReader.nextCode_result h.reader (by omega) (by omega)
  refine ⟨out, reader, hresult, fun code heq => ?_⟩
  obtain ⟨hcode, haligned, hleft⟩ := hout code heq
  exact ⟨hcode, Nat.lt_of_lt_of_le hcode (Nat.pow_le_pow_right (by decide) hle),
    { h with reader := haligned }, hleft⟩

end LzwState

/-! ### Rounds -/

/-- The errors of decoding: two about the codes, and those of the control and of the output. -/
inductive Refusal : Error → Prop
  | firstCode : Refusal
      (streamFormatError "unix-compress" "first code after reset is not a literal")
  | uninitialized : Refusal LzwState.uninitialized
  | cancelled : Refusal .cancelled
  | limit {limit : LimitKind} {requested maximum : Nat} :
      Refusal (.limitExceeded limit requested maximum)
  | outputSize : Refusal (streamFormatError "compressed" "output size overflows")
  | io {kind : IoErrorKind} {detail : String} : Refusal (.ioError kind detail)

theorem Refusal.of_interrupts {control : ParseControl} {error : Error}
    (h : control.Interrupts error) : Refusal error := by
  rcases h with ⟨rfl, -⟩ | ⟨requested, maximum, rfl⟩
  · exact .cancelled
  · exact .limit

section Rounds

variable {σ : Type} {writer : Writer σ} {limits : Limits} {parameters : LzwParameters}
  {state : LzwState}

/-- A session that fails in these ways only, and returns a value in `Q`. -/
def Refuses {α : Type} (m : Extracting σ α) (Q : α → Prop) : Prop :=
  Session.Triple (fun _ => True) m (fun a _ => Q a) (fun error _ => Refusal error)

namespace Refuses

variable {α β : Type} {Q : α → Prop} {R : β → Prop}

theorem pure {a : α} (h : Q a) : Refuses (Pure.pure a : Extracting σ α) Q :=
  Session.Triple.pure fun _ _ => h

theorem bind {m : Extracting σ α} {f : α → Extracting σ β} (hm : Refuses m Q)
    (hf : ∀ a, Q a → Refuses (f a) R) : Refuses (m >>= f) R := by
  refine Session.Triple.bind hm fun a s k ha => ?_
  exact hf a ha s k trivial

/-- A computation that ends in a value, apart from what interrupts it. -/
theorem lift {m : Work α} (hm : m.Ensures Q Refusal) :
    Refuses (liftM m : Extracting σ α) Q :=
  Session.Triple.liftEnsures hm (fun _ _ h _ => h) (fun _ _ h _ => h)
    fun _ _ _ hint _ => Refusal.of_interrupts hint

theorem liftOk {m : Work α} {a : α} (hm : m.result = .ok a) (ha : Q a) :
    Refuses (liftM m : Extracting σ α) Q :=
  lift (Metered.ensures_of_ok hm ha)

theorem map {m : Extracting σ α} {g : α → β} (hm : Refuses m fun a => R (g a)) :
    Refuses (g <$> m) R := by
  refine Refuses.bind (f := fun a => Pure.pure (g a)) hm fun a ha => ?_
  exact Refuses.pure ha

end Refuses

theorem refuses_writeOutput (bytes : Bytes) :
    Refuses (Extraction.writeOutput writer limits bytes) fun _ => True := by
  refine Refuses.bind (Refuses.liftOk (Q := fun _ => True) result_checkCancelled trivial) fun _ _ => ?_
  refine Refuses.bind (Q := fun _ => True) (Session.Triple.act (fun _ _ _ _ _ => trivial)
    fun _ _ _ _ heq => absurd (Prod.mk.inj heq).1 (by simp)) fun extraction _ => ?_
  refine Refuses.bind (Q := fun _ => True) (Refuses.lift ?_) fun next _ => ?_
  · have hlimit : ∀ (value maximum : Nat) (kind : LimitKind),
        (checkLimit value maximum kind).Ensures (fun _ => True) Refusal := by
      intro value maximum kind
      unfold checkLimit
      split
      · exact Metered.ensures_of_error rfl .limit
      · exact Metered.ensures_of_ok rfl trivial
    refine Metered.Ensures.bind (P := fun _ => True) ?_ fun next _ => ?_
    · cases checkedAdd 64 extraction.outputBytes bytes.length with
      | none => exact Metered.ensures_of_error rfl .outputSize
      | some next => exact Metered.ensures_of_ok rfl trivial
    · refine (hlimit _ _ _).bind fun _ _ => (hlimit _ _ _).bind fun _ _ => ?_
      exact Metered.ensures_of_ok rfl trivial
  · refine Session.Triple.act (fun _ _ _ _ _ => trivial) fun extraction error after _ heq => ?_
    rcases hwrite : writer.writeAll bytes extraction.writer with ⟨⟨kind, detail⟩ | _, _⟩
    · rw [hwrite] at heq
      obtain ⟨herror, -⟩ := Prod.mk.inj heq
      obtain rfl := Except.error.inj herror
      exact .io
    · rw [hwrite] at heq
      exact absurd (Prod.mk.inj heq).1 (by simp)

theorem refuses_writeChunks (pieces : List Bytes) :
    Refuses (writeChunks writer limits pieces) fun _ => True := by
  induction pieces with
  | nil => exact Refuses.pure trivial
  | cons piece rest ih =>
      refine Refuses.bind (Refuses.liftOk (Q := fun _ => True) (result_checkpoint _) trivial)
        fun _ _ => ?_
      exact Refuses.bind (refuses_writeOutput piece) fun _ _ => ih

/-- The code after a reset is a literal, or it is refused. -/
theorem refuses_firstLiteral (h : state.Invariant parameters) (encodedCode : Nat) :
    Refuses (firstLiteral writer limits encodedCode state) fun next =>
      next.Invariant parameters ∧ next.reader = state.reader := by
  unfold firstLiteral
  by_cases hlarge : encodedCode > 255
  · rw [if_pos hlarge]
    exact Refuses.lift (Metered.ensures_of_error rfl .firstCode)
  · rw [if_neg hlarge]
    have hnext := h.next_ge
    refine Refuses.bind (Refuses.liftOk (Q := fun _ => True)
      (orRefuse_eq_ok.mpr (tryFrom_of_lt (by omega))) trivial) fun literal _ => ?_
    refine Refuses.bind (Refuses.liftOk (Q := fun _ => True) (result_checkpoint 1) trivial)
      fun _ _ => ?_
    refine Refuses.bind (refuses_writeOutput _) fun _ _ => Refuses.pure ⟨?_, rfl⟩
    refine h.moveOn _ (by omega) fun _ heq => ?_
    rw [heq] at hlarge
    exact hlarge (by decide)

/-- A code after a code is expanded, written, and entered into the table. -/
theorem refuses_nextExpansion (hfit : parameters.Fit) (h : state.Invariant parameters)
    {encodedCode previous : Nat} (hprevious : state.previousCode = some previous)
    (hlt : encodedCode < 2 ^ parameters.maximumCodeBits) (hplain : parameters.Plain encodedCode) :
    Refuses (nextExpansion writer limits parameters encodedCode previous state) fun next =>
      next.Invariant parameters ∧ next.reader = state.reader := by
  obtain ⟨hbelow, hplain'⟩ := h.previous_lt previous hprevious
  have hexpand := (@LzwState.expand_ensures _ _ hfit h encodedCode previous hbelow).mono
    (fun _ hout => hout) fun error (herror : error = _) => herror ▸ Refusal.uninitialized
  refine Refuses.bind (Refuses.lift hexpand) fun out hout => ?_
  refine Refuses.bind (refuses_writeChunks _) fun _ _ => ?_
  obtain ⟨next, hadd, hnext, hencoded, hreader⟩ :=
    LzwState.addEntry_result hfit h out.1 hbelow hplain' hout.1 hlt
  refine Refuses.bind (Refuses.liftOk (Q := (· = next)) hadd rfl) fun next' heq => ?_
  subst heq
  exact Refuses.pure ⟨hnext.moveOn _ hencoded hplain, hreader⟩

/-- A code that was read is decoded, whichever it is. -/
theorem refuses_decodeCode (hfit : parameters.Fit) (h : state.Invariant parameters)
    {encodedCode : Nat} (hlt : encodedCode < 2 ^ parameters.maximumCodeBits) :
    Refuses (decodeCode writer limits parameters encodedCode state) fun next =>
      next.Invariant parameters ∧ next.reader = state.reader := by
  unfold decodeCode
  by_cases hclear : parameters.blockMode = true ∧ encodedCode = clearCode
  · obtain ⟨next, hnext, hnextInv, hnextReader⟩ := LzwState.clear_result hfit h hclear.1
    rw [if_pos hclear]
    exact Refuses.liftOk hnext ⟨hnextInv, hnextReader⟩
  · have hplain : parameters.Plain encodedCode := fun hblock heq => hclear ⟨hblock, heq⟩
    rw [if_neg hclear]
    cases hprevious : state.previousCode with
    | none => exact refuses_firstLiteral h encodedCode
    | some previous => exact refuses_nextExpansion hfit h hprevious hlt hplain

/-- **One round** keeps the invariant, and reads on. -/
theorem refuses_decodeRound (hfit : parameters.Fit) (h : state.Invariant parameters) :
    Refuses (decodeRound writer limits parameters state) fun out => ∀ next, out = .inl next →
      next.Invariant parameters ∧ next.reader.bitsLeft < state.reader.bitsLeft := by
  unfold decodeRound
  refine Refuses.bind (Refuses.liftOk (Q := fun _ => True) (result_checkpoint 1) trivial)
    fun _ _ => ?_
  obtain ⟨wide, hwide, hwideInv, hwideReader⟩ := LzwState.widen_result hfit h
  refine Refuses.bind (Refuses.liftOk (Q := (· = wide)) hwide rfl) fun wide' heq => ?_
  subst heq
  obtain ⟨out, reader, hread, hout⟩ := hwideInv.read hfit
  rw [hwideReader] at hout
  refine Refuses.bind (Refuses.liftOk (Q := (· = (out, reader))) hread rfl) fun out' heq => ?_
  subst heq
  cases out with
  | none => exact Refuses.pure fun next heq => absurd heq (by simp)
  | some encodedCode =>
      obtain ⟨-, hlt, hafter, hleft⟩ := hout encodedCode rfl
      have hcode := @refuses_decodeCode σ writer limits _ _ hfit hafter _ hlt
      refine Refuses.map (hcode.mono (fun _ h => h) (fun next _ hnext next' heq => ?_) fun _ _ h => h)
      obtain rfl := Sum.inl.inj heq
      exact ⟨hnext.1, hnext.2 ▸ hleft⟩

end Rounds

/-! ### Whole runs -/

/-- What is promised of a state at the top of a round, and of the code that is read there. -/
structure LzwState.Safe (parameters : LzwParameters) (state : LzwState) : Prop where
  invariant : state.Invariant parameters
  chain : ∀ code < state.nextCode, ∃ steps ≤ state.nextCode,
    (fun code => state.prefixes.getD code 0)^[steps] code ≤ 255
  read : ∀ wide code reader, (state.widen parameters).result = .ok wide →
    (wide.reader.nextCode wide.codeBits wide.forceRefill).result = .ok (some code, reader) →
    wide.codeBits ≤ parameters.maximumCodeBits ∧ code < 2 ^ wide.codeBits ∧
      ∀ previous first expansion, wide.previousCode = some previous →
        (({ wide with reader, forceRefill := false } : LzwState).expand parameters code
          previous).result = .ok (first, expansion) →
        expansion.length ≤ parameters.dictionaryEntries

theorem LzwState.Invariant.safe {parameters : LzwParameters} {state : LzwState}
    (hfit : parameters.Fit) (h : state.Invariant parameters) : state.Safe parameters where
  invariant := h
  chain := fun code hcode => by
    obtain ⟨steps, hsteps, hend⟩ := h.prefix_chain code hcode
    exact ⟨steps, by omega, hend⟩
  read := fun wide code reader hwide hread => by
    obtain ⟨wide', hwide', hinvariant, -⟩ := LzwState.widen_result hfit h
    obtain rfl := Except.ok.inj (hwide.symm.trans hwide')
    obtain ⟨out, reader', hread', hout⟩ := hinvariant.read hfit
    obtain ⟨rfl, rfl⟩ := Prod.mk.inj (Except.ok.inj (hread'.symm.trans hread))
    obtain ⟨hcode, -, hafter, -⟩ := hout code rfl
    refine ⟨hinvariant.width_le, hcode, fun previous first expansion hprevious hexpand => ?_⟩
    exact ((LzwState.expand_ensures hfit hafter (hinvariant.previous_lt previous hprevious).1).ok
      hexpand).2

theorem fillLiterals_result (literals : List Nat) : ∀ {suffixes : Bytes},
    (∀ literal ∈ literals, literal < 256) → 256 ≤ suffixes.length →
    ∃ filled, (fillLiterals literals suffixes).result = .ok filled ∧
      filled.length = suffixes.length := by
  induction literals with
  | nil => exact fun _ _ => ⟨_, rfl, rfl⟩
  | cons literal rest ih =>
      intro suffixes hsmall hlong
      have hliteral := hsmall literal List.mem_cons_self
      obtain ⟨filled, hfilled, hlength⟩ := @ih (suffixes.set literal (UInt8.ofNat literal))
        (fun next hnext => hsmall next (List.mem_cons_of_mem _ hnext))
        (by rw [List.length_set]; exact hlong)
      refine ⟨filled, ?_, hlength.trans List.length_set⟩
      rw [fillLiterals, result_orRefuse_bind (tryFrom_of_lt (by omega)),
        Metered.result_bind_ok (setAt_result (by omega) _ _)]
      exact hfilled

theorem trace_fillLiterals (literals : List Nat) :
    ∀ suffixes : Bytes, (fillLiterals literals suffixes).trace = [] := by
  induction literals with
  | nil => exact fun _ => rfl
  | cons literal rest ih =>
      intro suffixes
      refine Metered.trace_bind_of_free (trace_orStreamFormat _ _ _) fun value => ?_
      refine Metered.trace_bind_of_free ?_ fun suffixes => ih suffixes
      unfold setAt
      split <;> rfl

theorem trace_initialState (input : Bytes) (maximumCodeBits dictionaryEntries : Nat)
    (blockMode : Bool) :
    (initialState input maximumCodeBits dictionaryEntries blockMode).trace = [] := by
  refine Metered.trace_bind_of_free (trace_fillLiterals _ _) fun suffixes => ?_
  refine Metered.trace_bind_of_free (trace_orStreamFormat _ _ _) fun maximumCodes => ?_
  refine Metered.trace_bind_of_free ?_ fun _ => rfl
  refine Metered.trace_bind_of_free (trace_orStreamFormat _ _ _) fun codes => ?_
  split
  · rfl
  · exact trace_orStreamFormat _ _ _

/-- The parameters of a dictionary of codes of up to this many bits. -/
def LzwParameters.ofWidth (maximumCodeBits : Nat) (blockMode : Bool) : LzwParameters :=
  ⟨maximumCodeBits, blockMode, 2 ^ maximumCodeBits, 2 ^ maximumCodeBits⟩

theorem initialState_result {input : Bytes} {maximumCodeBits : Nat} (blockMode : Bool)
    (hlt : input.length < 2 ^ 64) (hge : 9 ≤ maximumCodeBits) (hle : maximumCodeBits ≤ 16) :
    ∃ state, (initialState input maximumCodeBits (2 ^ maximumCodeBits) blockMode).result
        = .ok (.ofWidth maximumCodeBits blockMode, state) ∧
      state.Invariant (.ofWidth maximumCodeBits blockMode) ∧ state.reader = .new input := by
  have hlarge : 2 ^ 9 ≤ 2 ^ maximumCodeBits := Nat.pow_le_pow_right (by decide) hge
  obtain ⟨filled, hfilled, hlength⟩ := @fillLiterals_result (List.range 256)
    (List.replicate (2 ^ maximumCodeBits) 0) (fun literal hliteral => List.mem_range.mp hliteral)
    (by rw [List.length_replicate]; omega)
  rw [List.length_replicate] at hlength
  obtain ⟨code, hcode⟩ := @maximumCodeForWidth_result initialCodeBits maximumCodeBits (by decide)
  have hcodes : (1 <<< maximumCodeBits) % 2 ^ 32 = 2 ^ maximumCodeBits := by
    rw [Nat.one_shiftLeft, Nat.mod_eq_of_lt (Nat.pow_lt_pow_right (by decide) (by omega))]
  rw [initialState, Metered.result_bind_ok hfilled,
    result_orRefuse_bind (checkedShl_of_lt (by omega)), Metered.result_bind_ok hcode, hcodes]
  refine ⟨_, rfl, ?_, rfl⟩
  refine {
    prefixes_length := List.length_replicate, suffixes_length := hlength,
    width_ge := Nat.le_refl _, width_le := hge, next_ge := ?_, next_gt := ?_, next_le := ?_,
    prefix_lt := ?_, previous_lt := fun _ heq => absurd heq (by simp),
    reader := CodeReader.aligned_new hlt }
  · show 256 ≤ if blockMode = true then firstBlockCode else firstPlainCode
    split <;> decide
  · intro hblock
    obtain rfl : blockMode = true := hblock
    exact Nat.le_refl _
  · show (if blockMode = true then firstBlockCode else firstPlainCode) ≤ 2 ^ maximumCodeBits
    refine Nat.le_trans ?_ hlarge
    split <;> decide
  · intro code hlow hhigh
    have hcode : code < 257 := by
      refine Nat.lt_of_lt_of_le hhigh ?_
      show (if blockMode = true then firstBlockCode else firstPlainCode) ≤ 257
      split <;> decide
    have hin : code < 2 ^ maximumCodeBits := by omega
    refine ⟨0, ?_, by omega, fun _ => by decide⟩
    show (List.replicate (2 ^ maximumCodeBits) 0)[code]? = some 0
    rw [List.getElem?_replicate, if_pos hin]

section Runs

variable {σ : Type}

theorem decodeLoop_unrolls (writer : Writer σ) (limits : Limits) (parameters : LzwParameters)
    (fuel : Nat) (t : LzwState × Extraction σ) :
    decodeLoop writer limits parameters (fuel + 1) t.1 t.2
      = Session.asRound (decodeRound writer limits parameters) t >>=
        Sum.elim (fun t => decodeLoop writer limits parameters fuel t.1 t.2) pure := by
  rw [Session.asRound_bind]
  show decodeRound writer limits parameters t.1 t.2 >>= _ = _
  congr 1
  funext out
  rcases out with ⟨_ | ⟨⟩, _⟩ <;> rfl

/-- The locals are set up for free, and then the loop is run. -/
theorem decodeLzw_run (writer : Writer σ) (limits : Limits) {payload : Bytes}
    {maximumCodeBits dictionaryEntries : Nat} {blockMode : Bool} {parameters : LzwParameters}
    {state : LzwState}
    (h : (initialState payload maximumCodeBits dictionaryEntries blockMode).result
      = .ok (parameters, state)) (extraction : Extraction σ) (control : ParseControl) :
    (decodeLzw writer limits payload maximumCodeBits blockMode dictionaryEntries extraction).run control
      = (decodeLoop writer limits parameters (8 * payload.length + 1) state extraction).run
          control := by
  have hfree := Metered.run_of_free
    (trace_initialState payload maximumCodeBits dictionaryEntries blockMode) control
  rw [h] at hfree
  rw [decodeLzw, Session.run_lift_bind hfree]

/--
**LZW decoding is safe** on every payload, with every width and in both modes, under every
control and with every writer.

A run of `decode_lzw` is a run of its rounds, up to one that breaks or fails.  Every state
at the top of a round is safe, and a run that fails does so for one of the reasons a
`Refusal` has.
-/
theorem decodeLzw_safe {payload : Bytes} {maximumCodeBits : Nat} (blockMode : Bool)
    (hlt : payload.length < 2 ^ 64) (hge : 9 ≤ maximumCodeBits) (hle : maximumCodeBits ≤ 16)
    (writer : Writer σ) (limits : Limits) (extraction : Extraction σ) (control : ParseControl) :
    ∃ state, (initialState payload maximumCodeBits (2 ^ maximumCodeBits) blockMode).result
        = .ok (.ofWidth maximumCodeBits blockMode, state) ∧
      (∀ n t control', Loop.Visits
          (Session.asRound (decodeRound writer limits (.ofWidth maximumCodeBits blockMode)))
          (state, extraction) control n t control' →
        t.1.Safe (.ofWidth maximumCodeBits blockMode)) ∧
      (∃ n, Loop.Returns
        (Session.asRound (decodeRound writer limits (.ofWidth maximumCodeBits blockMode)))
        (state, extraction) control n
        ((decodeLzw writer limits payload maximumCodeBits blockMode (2 ^ maximumCodeBits)
          extraction).run control)) ∧
      ∀ error, ((decodeLzw writer limits payload maximumCodeBits blockMode
        (2 ^ maximumCodeBits)).run extraction control).1 = .error error → Refusal error := by
  obtain ⟨state, hinitial, hstart, hreader⟩ := initialState_result blockMode hlt hge hle
  have hfit : (LzwParameters.ofWidth maximumCodeBits blockMode).Fit := ⟨hge, hle, rfl, rfl⟩
  have hround : ∀ t u k k', t.1.Invariant (.ofWidth maximumCodeBits blockMode) →
      (Session.asRound (decodeRound writer limits (.ofWidth maximumCodeBits blockMode)) t).run k
        = (.ok (.inl u), k') →
      u.1.Invariant (.ofWidth maximumCodeBits blockMode) ∧
        u.1.reader.bitsLeft < t.1.reader.bitsLeft := by
    intro t u k k' ht hrun
    exact (refuses_decodeRound hfit ht t.2 k trivial).1 _ _ (Session.asRound_run_inl hrun) u.1 rfl
  have hvisits : ∀ n t control', Loop.Visits
      (Session.asRound (decodeRound writer limits (.ofWidth maximumCodeBits blockMode)))
      (state, extraction) control n t control' →
      t.1.Invariant (.ofWidth maximumCodeBits blockMode) := fun n t control' h =>
    h.invariant_of_run hstart fun t u k k' ht hrun => (hround t u k k' ht hrun).1
  have hrun := decodeLzw_run writer limits hinitial extraction control
  have hleft : state.reader.bitsLeft < 8 * payload.length + 1 := by
    rw [hreader]
    exact Nat.lt_succ_of_le (Nat.le_refl _)
  generalize 8 * payload.length + 1 = fuel at hrun hleft
  have hfirst : Loop.Visits
      (Session.asRound (decodeRound writer limits (.ofWidth maximumCodeBits blockMode)))
      (state, extraction) control 0 (state, extraction) control := .start
  obtain ⟨n, hreturns⟩ := Loop.returns_of_fuel
    (fun fuel (t : LzwState × Extraction σ) =>
      decodeLoop writer limits (.ofWidth maximumCodeBits blockMode) fuel t.1 t.2)
    (fun t => t.1.Invariant (.ofWidth maximumCodeBits blockMode)) (fun t => t.1.reader.bitsLeft)
    (decodeLoop_unrolls writer limits _) hround fuel hstart hleft hfirst
  refine ⟨state, hinitial, fun n t control' h => (hvisits n t control' h).safe hfit, ?_, ?_⟩
  · rw [hrun]
    exact ⟨n, hreturns⟩
  · intro error herror
    rw [Session.run, hrun] at herror
    obtain ⟨t, control', hvisit, hends⟩ := hreturns
    rcases hends with ⟨a, k, -, hout⟩ | ⟨⟨error', last⟩, k, hfails, hout⟩
    · rw [hout] at herror
      exact absurd herror (by simp [Session.outcome])
    · rw [hout] at herror
      obtain rfl := Except.error.inj herror
      exact (refuses_decodeRound hfit (hvisits _ _ _ hvisit) t.2 control' trivial).2 _ _
        (Session.asRound_run_error hfails)

end Runs

/-- A writer that takes everything and keeps it. -/
def keepingWriter : Writer Bytes := ⟨fun bytes written => (.ok (), written ++ bytes)⟩

/-- The nine bits of `a`, and then those of a code that no table has yet. -/
theorem decodeLzw_safe_unknown :
    ∃ state, (initialState [97, 254, 3] 9 (2 ^ 9) true).result = .ok (.ofWidth 9 true, state) ∧
      state.Safe (.ofWidth 9 true) ∧
      ∀ error, ((decodeLzw keepingWriter {} [97, 254, 3] 9 true (2 ^ 9)).run ⟨[], 0, 0, 0⟩
        (.uncancelled .unlimited)).1 = .error error → Refusal error := by
  obtain ⟨state, hinitial, hvisits, -, hrefusal⟩ := @decodeLzw_safe Bytes [97, 254, 3] 9 true
    (by decide) (by decide) (by decide) keepingWriter {} ⟨[], 0, 0, 0⟩ (.uncancelled .unlimited)
  exact ⟨state, hinitial, hvisits 0 _ _ .start, hrefusal⟩

end UnixCompress

end Un7z
