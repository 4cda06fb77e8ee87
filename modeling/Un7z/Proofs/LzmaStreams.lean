/-
The streams of LZMA and LZMA2, decoded under guard.

The output never outgrows its limit and no match reaches before the dictionary, so the
arithmetic of the output is out of reach as well; the state of the decoder is a number
below twelve and four distances that have room for one more.  Every operation keeps this
and adds to the output, which is what bounds the loop, and every chunk of LZMA2 takes a byte
of the input.
-/
import Un7z.Proofs.LzmaGuards

namespace Un7z

namespace Lzma

variable {lc lp maximum : Nat} {alarm : Error}

/-! ### The output -/

theorem ensures_checkLimit (requested : Nat) :
    (checkLimit requested maximum .totalOutputBytes).Ensures (fun _ => requested ≤ maximum)
      (Failure maximum) := by
  refine Metered.ensures_iff.mpr ⟨fun _ h => checkLimit_eq_ok.mp h, fun e he => ?_⟩
  obtain rfl := checkLimit_eq_error he
  by_cases hle : requested ≤ maximum
  · rw [checkLimit_of_le hle] at he
    exact absurd he (by simp)
  · exact .limit (Nat.not_le.mp hle)

/-- Within the limit, the vector is only too small for what no machine can hold. -/
theorem ensures_reserve {capacity : Nat} (h : capacity ≤ maximum) (detail : String) :
    (reserve capacity detail).Ensures (fun _ => capacity ≤ vectorMax) (Failure maximum) := by
  unfold reserve
  split
  · exact Metered.ensures_of_error rfl (.capacity (by omega))
  · exact Metered.ensures_of_ok rfl (by omega)

namespace Output

structure Sound (maximum : Nat) (output : Output) : Prop where
  maximum_eq : output.maximum = maximum
  position_le : output.position ≤ maximum
  vector_le : output.position ≤ vectorMax
  dictionary_le : output.dictionaryStart ≤ output.position

variable {output : Output}

/-- The output `next` has this many bytes more. -/
def Grows (maximum : Nat) (output : Output) (count : Nat) (next : Output) : Prop :=
  next.Sound maximum ∧ next.position = output.position + count

theorem ensures_new (dictionarySize : Nat) (expected : Option Nat) :
    (new maximum dictionarySize expected).Ensures
      (fun output => output.Sound maximum ∧ output.position = 0 ∧ expected.getD 0 ≤ vectorMax)
      (Failure maximum) := by
  refine (ensures_checkLimit _).bind fun _ hlimit => ?_
  refine (ensures_reserve hlimit _).bind fun _ hvector => ?_
  exact Metered.ensures_of_ok rfl
    ⟨⟨rfl, Nat.zero_le _, Nat.zero_le _, Nat.le_refl _⟩, rfl, hvector⟩

theorem Sound.ensures_additional (h : output.Sound maximum) {additional : Nat}
    (hsmall : additional < 2 ^ 63) :
    (output.ensureAdditional additional).Ensures
      (fun _ => output.position + additional ≤ maximum ∧ output.position + additional ≤ vectorMax)
      (Failure maximum) := by
  have hvector := h.vector_le
  rw [vectorMax] at hvector
  have hadd : checkedAdd 64 output.position additional = some (output.position + additional) :=
    checkedAdd_of_lt (by omega)
  refine Metered.ensures_bind_ok (orFormat_eq_ok.mpr hadd) ?_
  rw [h.maximum_eq]
  refine (ensures_checkLimit _).bind fun _ hlimit => ?_
  exact (ensures_reserve hlimit _).mono (fun _ hle => ⟨hlimit, hle⟩) fun _ he => he

/-- Bytes that there is room for can be added. -/
theorem Sound.grows {bytes : Bytes} (h : output.Sound maximum)
    (hroom : output.position + bytes.length ≤ maximum ∧
      output.position + bytes.length ≤ vectorMax) :
    output.Grows maximum bytes.length { output with bytes := output.bytes ++ bytes } := by
  have hlength : ({ output with bytes := output.bytes ++ bytes } : Output).position
      = output.position + bytes.length := List.length_append
  refine ⟨⟨h.maximum_eq, ?_, ?_, ?_⟩, hlength⟩
  · rw [hlength]
    exact hroom.1
  · rw [hlength]
    exact hroom.2
  · rw [hlength]
    exact Nat.le_trans h.dictionary_le (Nat.le_add_right _ _)

theorem Sound.ensures_push (h : output.Sound maximum) (byte : UInt8) :
    (output.push byte).Ensures (output.Grows maximum 1) (Failure maximum) := by
  refine (h.ensures_additional (by decide)).bind fun _ hroom => ?_
  refine Metered.ensures_bind_ok (result_checkpoint 1) ?_
  exact Metered.ensures_of_ok rfl (@Sound.grows maximum output [byte] h hroom)

theorem Sound.ensures_extend (h : output.Sound maximum) {bytes : Bytes}
    (hsmall : bytes.length < 2 ^ 63) :
    (output.extendUncompressed bytes).Ensures (output.Grows maximum bytes.length)
      (Failure maximum) := by
  refine (h.ensures_additional hsmall).bind fun _ hroom => ?_
  refine Metered.ensures_bind_ok (a := ()) (forEach_eq_ok.mpr fun _ _ => result_checkpoint _) ?_
  exact Metered.ensures_of_ok rfl (h.grows hroom)

/-- The bytes of a match are all there, some of them once those before are copied. -/
theorem result_copyFrom {distance : Nat} (hdistance : 0 < distance) (length : Nat)
    {bytes : Bytes} (h : distance ≤ bytes.length) :
    ∃ copied : Bytes, copied.length = length ∧
      (copyFrom distance length bytes).result = .ok (bytes ++ copied) := by
  induction length generalizing bytes with
  | zero => exact ⟨[], rfl, by rw [List.append_nil]; rfl⟩
  | succ length ih =>
      have hlt : bytes.length - distance < bytes.length := by omega
      have hbyte := List.getElem?_eq_getElem hlt
      generalize bytes[bytes.length - distance] = byte at hbyte
      have hnext : distance ≤ (bytes ++ [byte]).length := by
        rw [List.length_append]
        omega
      obtain ⟨copied, hlength, hcopied⟩ := ih hnext
      refine ⟨byte :: copied, congrArg Nat.succ hlength, ?_⟩
      rw [copyFrom, Metered.result_bind_ok (result_checkpoint 1),
        Metered.result_bind_ok (orFormat_eq_ok.mpr (checkedSub_of_le h)),
        Metered.result_bind_ok (orFormat_eq_ok.mpr hbyte), hcopied, List.append_assoc]
      rfl

theorem Sound.ensures_copyMatch (h : output.Sound maximum) {distance length : Nat}
    (hdistance : 0 < distance) (hlength : length < 2 ^ 63) :
    (output.copyMatch distance length).Ensures (output.Grows maximum length)
      (Failure maximum) := by
  unfold copyMatch
  rw [if_neg (Nat.pos_iff_ne_zero.mp hdistance)]
  split
  · exact Metered.ensures_of_error rfl .dictionary
  have havailable : output.dictionaryLength.result
      = .ok (output.position - output.dictionaryStart) :=
    orFormat_eq_ok.mpr (checkedSub_of_le h.dictionary_le)
  refine Metered.ensures_bind_ok havailable ?_
  split
  · rename_i hfar
    exact Metered.ensures_of_error rfl (.history hfar)
  · rename_i hnear
    have hthere : distance ≤ output.bytes.length :=
      Nat.le_trans (Nat.not_lt.mp hnear) (Nat.sub_le _ _)
    obtain ⟨copied, rfl, hcopied⟩ := result_copyFrom hdistance length hthere
    refine (h.ensures_additional hlength).bind fun _ hroom => ?_
    exact Metered.ensures_bind_ok hcopied (Metered.ensures_of_ok rfl (h.grows hroom))

theorem Sound.resetDictionary (h : output.Sound maximum) : output.resetDictionary.Sound maximum :=
  ⟨h.maximum_eq, h.position_le, h.vector_le, Nat.le_refl _⟩

end Output

/-! ### Operations -/

namespace LzmaState

/-- The state between two operations. -/
structure Sound (lc lp : Nat) (state : LzmaState) : Prop where
  lc_eq : state.lc = lc
  lp_eq : state.lp = lp
  state_lt : state.state < stateCount
  mask_lt : state.positionMask < positionStates
  length_eq : state.repetitions.length = 4
  repetition_lt : ∀ distance ∈ state.repetitions, distance < eosDistance

variable {state : LzmaState} {distance index : Nat}

/-- The number of the state is updated. -/
theorem Sound.update (h : state.Sound lc lp) {next : Nat} (hnext : next < stateCount) :
    ({ state with state := next } : LzmaState).Sound lc lp :=
  ⟨h.lc_eq, h.lp_eq, hnext, h.mask_lt, h.length_eq, h.repetition_lt⟩

theorem Sound.updateLiteral (h : state.Sound lc lp) : state.updateLiteral.Sound lc lp := by
  have hlt : state.state < 12 := h.state_lt
  refine h.update ?_
  show _ < 12
  split
  · decide
  · split <;> omega

theorem Sound.updateMatch (h : state.Sound lc lp) : state.updateMatch.Sound lc lp := by
  refine h.update ?_
  split <;> decide

theorem Sound.updateRepetition (h : state.Sound lc lp) : state.updateRepetition.Sound lc lp := by
  refine h.update ?_
  split <;> decide

theorem Sound.updateShortRepetition (h : state.Sound lc lp) :
    state.updateShortRepetition.Sound lc lp := by
  refine h.update ?_
  split <;> decide

theorem Sound.setRepetition (h : state.Sound lc lp) (index : Nat)
    (hdistance : distance < eosDistance) : (state.setRepetition index distance).Sound lc lp := by
  refine ⟨h.lc_eq, h.lp_eq, h.state_lt, h.mask_lt, ?_, fun other hother => ?_⟩
  · exact List.length_set.trans h.length_eq
  · rcases List.mem_or_eq_of_mem_set hother with hold | rfl
    · exact h.repetition_lt other hold
    · exact hdistance

theorem Sound.repetition (h : state.Sound lc lp) (hindex : index < 4) :
    ∃ distance, (state.repetition index).result = .ok distance ∧ distance < eosDistance := by
  have hlt : index < state.repetitions.length := by rwa [h.length_eq]
  exact ⟨_, orFormat_eq_ok.mpr (List.getElem?_eq_getElem hlt),
    h.repetition_lt _ (List.getElem_mem hlt)⟩

theorem sound_initial {mask : Nat} (hmask : mask < positionStates) :
    (⟨[0, 0, 0, 0], 0, lc, lp, mask⟩ : LzmaState).Sound lc lp :=
  ⟨rfl, rfl, show 0 < stateCount by decide, hmask, rfl,
    show ∀ distance ∈ [0, 0, 0, 0], distance < eosDistance by decide⟩

theorem Sound.reset (h : state.Sound lc lp) : state.reset.Sound lc lp := by
  obtain ⟨rfl, rfl⟩ := And.intro h.lc_eq h.lp_eq
  exact sound_initial h.mask_lt

end LzmaState

open LzmaState in
/-- What an operation leaves behind, unless it is the last one. -/
def Operation.Sound (lc lp : Nat) (state : LzmaState) : Operation → Prop
  | .literal _ => state.Sound lc lp
  | .match distance length => 0 < distance ∧ 0 < length ∧ length ≤ 273 ∧ state.Sound lc lp
  | .end => True

variable {state : LzmaState} {positionState : Nat}

theorem coupled_decodeMatch (h : state.Sound lc lp) (hposition : positionState < positionStates) :
    Coupled (Coder.Sound lc lp) (Failure maximum)
      (decodeMatch (guardedSource alarm) state positionState)
      (decodeMatch rangeSource state positionState) fun out => out.1.Sound lc lp out.2 := by
  obtain ⟨rep0, hrep0, hlt0⟩ := h.repetition (show 0 < 4 by decide)
  obtain ⟨rep1, hrep1, hlt1⟩ := h.repetition (show 1 < 4 by decide)
  obtain ⟨rep2, hrep2, hlt2⟩ := h.repetition (show 2 < 4 by decide)
  refine Coupled.lift_bind hrep0 (Coupled.lift_bind hrep1 (Coupled.lift_bind hrep2 ?_))
  have hmoved := (((h.setRepetition 3 hlt2).setRepetition 2 hlt1).setRepetition 1 hlt0).updateMatch
  refine (coupled_decodeLength hposition).bind fun lengthOffset hlength => ?_
  refine (coupled_decodeDistance lengthOffset).bind fun distanceOffset hdistance => ?_
  refine Coupled.ite (fun _ => Coupled.pure trivial) fun hgo => ?_
  have hlt : distanceOffset < eosDistance := by
    rw [eosDistance] at hgo ⊢
    omega
  refine coupled_some (checkedAdd_of_lt (show distanceOffset + 1 < 2 ^ 32 by
    rw [eosDistance] at hlt
    omega)) ?_
  refine coupled_some (checkedAdd_of_lt (show lengthOffset + minMatchLength < 2 ^ 32 by
    rw [minMatchLength]
    omega)) ?_
  refine Coupled.pure ⟨Nat.succ_pos _, Nat.succ_pos _, ?_, hmoved.setRepetition 0 hlt⟩
  rw [minMatchLength]
  omega

theorem coupled_chooseRepetition (h : state.Sound lc lp) :
    Coupled (Coder.Sound lc lp) (Failure maximum) (chooseRepetition (guardedSource alarm) state)
      (chooseRepetition rangeSource state)
      fun out => out.1 < eosDistance ∧ out.2.Sound lc lp := by
  obtain ⟨rep1, hrep1, hlt1⟩ := h.repetition (show 1 < 4 by decide)
  obtain ⟨rep2, hrep2, hlt2⟩ := h.repetition (show 2 < 4 by decide)
  obtain ⟨rep3, hrep3, hlt3⟩ := h.repetition (show 3 < 4 by decide)
  have hone : (Slot.isRepOne state.state).InRange lc lp := ⟨_, rfl, h.state_lt⟩
  have htwo : (Slot.isRepTwo state.state).InRange lc lp := ⟨_, rfl, h.state_lt⟩
  refine (coupled_coded hone _ _).bind fun notOne _ => ?_
  refine Coupled.ite (fun _ => Coupled.lift_bind hrep1 (Coupled.pure ⟨hlt1, h⟩)) fun _ => ?_
  refine (coupled_coded htwo _ _).bind fun notTwo _ => ?_
  have hchoice : (if notTwo = 0 then do
        let distance ← state.repetition 2
        pure (distance, state)
      else do
        let distance ← state.repetition 3
        let rep2 ← state.repetition 2
        pure (distance, state.setRepetition 3 rep2) : Work (Nat × LzmaState)).Ensures
      (fun out => out.1 < eosDistance ∧ out.2.Sound lc lp) (Failure maximum) := by
    split
    · exact Metered.ensures_bind_ok hrep2 (Metered.ensures_of_ok rfl ⟨hlt2, h⟩)
    · refine Metered.ensures_bind_ok hrep3 (Metered.ensures_bind_ok hrep2 ?_)
      exact Metered.ensures_of_ok rfl ⟨hlt3, h.setRepetition 3 hlt2⟩
  refine (Coupled.lift hchoice).bind ?_
  rintro ⟨distance, chosen⟩ ⟨hdistance, hchosen⟩
  obtain ⟨last, hlast, hlt⟩ := hchosen.repetition (show 1 < 4 by decide)
  exact Coupled.lift_bind hlast (Coupled.pure ⟨hdistance, hchosen.setRepetition 2 hlt⟩)

theorem coupled_finishRepetition {distance : Nat} (h : state.Sound lc lp)
    (hdistance : distance < eosDistance) (hposition : positionState < positionStates) :
    Coupled (Coder.Sound lc lp) (Failure maximum)
      (finishRepetition (guardedSource alarm) state distance positionState)
      (finishRepetition rangeSource state distance positionState)
      fun out => out.1.Sound lc lp out.2 := by
  refine (coupled_decodeLength hposition).bind fun lengthOffset hlength => ?_
  refine coupled_some (checkedAdd_of_lt (show distance + 1 < 2 ^ 32 by
    rw [eosDistance] at hdistance
    omega)) ?_
  refine coupled_some (checkedAdd_of_lt (show lengthOffset + minMatchLength < 2 ^ 32 by
    rw [minMatchLength]
    omega)) ?_
  refine Coupled.pure ⟨Nat.succ_pos _, Nat.succ_pos _, ?_, h.updateRepetition⟩
  rw [minMatchLength]
  omega

theorem coupled_decodeRepetition {combined : Nat} (h : state.Sound lc lp)
    (hcombined : combined < stateCount * positionStates)
    (hposition : positionState < positionStates) :
    Coupled (Coder.Sound lc lp) (Failure maximum)
      (decodeRepetition (guardedSource alarm) state combined positionState)
      (decodeRepetition rangeSource state combined positionState)
      fun out => out.1.Sound lc lp out.2 := by
  obtain ⟨rep0, hrep0, hlt0⟩ := h.repetition (show 0 < 4 by decide)
  have hzero : (Slot.isRepZero state.state).InRange lc lp := ⟨_, rfl, h.state_lt⟩
  have hlong : (Slot.isRepZeroLong combined).InRange lc lp := ⟨_, rfl, hcombined⟩
  refine Coupled.lift_bind hrep0 ?_
  refine (coupled_coded hzero _ _).bind fun notZero _ => ?_
  refine Coupled.ite (fun _ => ?_) fun _ => ?_
  · refine (coupled_coded hlong _ _).bind fun long _ => ?_
    refine Coupled.ite (fun _ => ?_) fun _ => coupled_finishRepetition h hlt0 hposition
    refine coupled_some (checkedAdd_of_lt (show rep0 + 1 < 2 ^ 32 by
      rw [eosDistance] at hlt0
      omega)) ?_
    exact Coupled.pure ⟨Nat.succ_pos _, Nat.one_pos, by decide, h.updateShortRepetition⟩
  · refine (coupled_chooseRepetition h).bind ?_
    rintro ⟨distance, chosen⟩ ⟨hdistance, hchosen⟩
    obtain ⟨first, hfirst, hlt⟩ := hchosen.repetition (show 0 < 4 by decide)
    refine Coupled.lift_bind hfirst ?_
    exact coupled_finishRepetition ((hchosen.setRepetition 1 hlt).setRepetition 0 hdistance)
      hdistance hposition

/-- No operation meets one of its guards. -/
theorem coupled_decodeOperation (h : state.Sound lc lp) (hsmall : lc + lp ≤ 4) (output : Output) :
    Coupled (Coder.Sound lc lp) (Failure maximum)
      (decodeOperation (guardedSource alarm) state output)
      (decodeOperation rangeSource state output) fun out => out.1.Sound lc lp out.2 := by
  have hposition : output.position &&& state.positionMask < positionStates :=
    Nat.lt_of_le_of_lt Nat.and_le_right h.mask_lt
  have hstate := h.state_lt
  rw [positionStates, maxPositionBits] at hposition
  rw [stateCount] at hstate
  have hcombined : ((checkedMul 64 state.state positionStates).bind fun value =>
      checkedAdd 64 value (output.position &&& state.positionMask))
      = some (state.state * 16 + (output.position &&& state.positionMask)) := by
    rw [positionStates, maxPositionBits, checkedMul_of_lt (by omega), Option.bind_some]
    exact checkedAdd_of_lt (by omega)
  have hlt : state.state * 16 + (output.position &&& state.positionMask)
      < stateCount * positionStates := by
    rw [stateCount, positionStates, maxPositionBits]
    omega
  have hmatch : (Slot.isMatch (state.state * 16 + (output.position &&& state.positionMask))).InRange
    lc lp := ⟨_, rfl, hlt⟩
  have hrep : (Slot.isRep state.state).InRange lc lp := ⟨_, rfl, h.state_lt⟩
  refine Coupled.lift_bind (result_checkpoint 1) ?_
  refine coupled_some hcombined ?_
  refine (coupled_coded hmatch _ _).bind fun isMatch _ => ?_
  refine Coupled.ite (fun _ => ?_) fun _ => ?_
  · obtain ⟨rep0, hrep0, -⟩ := h.repetition (show 0 < 4 by decide)
    refine Coupled.lift_bind hrep0 ?_
    rw [h.lc_eq, h.lp_eq]
    refine (coupled_decodeLiteral hsmall _ _ _ _).bind fun byte _ => ?_
    exact Coupled.pure h.updateLiteral
  · refine (coupled_coded hrep _ _).bind fun isRep _ => ?_
    exact Coupled.ite (fun _ => coupled_decodeMatch h hposition)
      fun _ => coupled_decodeRepetition h hlt hposition

/-! ### Streams -/

theorem Output.Sound.ensures_applyMatch {output : Output} (h : output.Sound maximum)
    (target : Option Nat) {distance length : Nat} (hdistance : 0 < distance)
    (hlength : length ≤ 273) :
    (applyMatch output target distance length).Ensures (output.Grows maximum length)
      (Failure maximum) := by
  have hcopy := h.ensures_copyMatch hdistance (show length < 2 ^ 63 by omega)
  have hvector := h.vector_le
  rw [vectorMax] at hvector
  cases target with
  | none => exact Metered.ensures_bind_ok rfl hcopy
  | some target =>
      refine Metered.ensures_bind_ok (orFormat_eq_ok.mpr (checkedAdd_of_lt (by omega))) ?_
      split
      · exact Metered.ensures_of_error rfl (.size (by decide))
      · exact hcopy

theorem ensures_finishAtEos {target : Option Nat} {requireEos : Bool}
    (hend : requireEos || target.isSome) (output : Output) (decoder : RangeDecoder) :
    (finishAtEos output decoder target requireEos).Ensures
      (fun _ => ∀ size, target = some size → output.position = size) (Failure maximum) := by
  unfold finishAtEos
  rw [if_pos hend]
  split
  · exact Metered.ensures_of_error rfl (.marker (by decide))
  split
  · exact Metered.ensures_of_error rfl (.marker (by decide))
  split
  · exact Metered.ensures_of_error rfl (.marker (by decide))
  · rename_i hsize
    refine Metered.ensures_of_ok rfl fun size htarget => ?_
    simpa [htarget] using hsize

/-- Every operation adds to the output, up to its limit, so the loop comes to an end. -/
theorem coupled_decodeLoop {atEos : Output → Coder → Work Unit} {target : Option Nat}
    (hsmall : lc + lp ≤ 4)
    (heos : ∀ output coder, (atEos output coder).Ensures
      (fun _ => ∀ size, target = some size → output.position = size) (Failure maximum))
    {fuel : Nat} {stream : StreamState} (hstate : stream.state.Sound lc lp)
    (houtput : stream.output.Sound maximum)
    (hfuel : maximum + 1 ≤ stream.output.position + fuel) :
    Coupled (Coder.Sound lc lp) (Failure maximum)
      (decodeLoop (guardedSource alarm) atEos target fuel stream)
      (decodeLoop rangeSource atEos target fuel stream)
      fun last => last.output.Sound maximum ∧ (target.isSome → last.state.Sound lc lp) := by
  induction fuel generalizing stream with
  | zero =>
      have hle := houtput.position_le
      omega
  | succ fuel ih =>
      refine Coupled.ite (fun _ => Coupled.pure ⟨houtput, fun _ => hstate⟩) fun hgo => ?_
      refine (coupled_decodeOperation hstate hsmall stream.output).bind ?_
      rintro ⟨operation, state⟩ hsound
      cases operation with
      | literal byte =>
          refine (Coupled.lift (houtput.ensures_push byte)).bind fun next hnext => ?_
          exact ih hsound hnext.1 (by rw [hnext.2]; omega)
      | «match» distance length =>
          obtain ⟨hdistance, hlength, hle, hstate'⟩ := hsound
          refine (Coupled.lift (houtput.ensures_applyMatch target hdistance hle)).bind ?_
          intro next hnext
          exact ih hstate' hnext.1 (by rw [hnext.2]; omega)
      | «end» =>
          refine Coupled.get_bind fun coder _ => ?_
          refine (Coupled.lift (heos stream.output coder)).bind fun _ hsize => ?_
          -- A declared size ends the loop before it is asked for an end marker.
          refine Coupled.pure ⟨houtput, fun hsome => ?_⟩
          obtain ⟨size, rfl⟩ := Option.isSome_iff_exists.mp hsome
          exact absurd (congrArg some (hsize size rfl).symm) hgo

structure StoredState.Sound (lc lp : Nat) (stored : StoredState) : Prop where
  state : stored.state.Sound lc lp
  tables : stored.tables.Sound lc lp
  small : lc + lp ≤ 4

theorem StoredState.Sound.reset {stored : StoredState} (h : stored.Sound lc lp) :
    stored.reset.Sound lc lp := by
  refine ⟨h.state.reset, ?_, h.small⟩
  show (Tables.new stored.state.lc stored.state.lp).Sound lc lp
  rw [h.state.lc_eq, h.state.lp_eq]
  exact Tables.sound_new lc lp

theorem propertiesFromByte_eq_ok {byte : UInt8} {lc lp pb : Nat}
    (h : propertiesFromByte byte = .ok (lc, lp, pb)) : pb ≤ 4 ∧ lc + lp ≤ 4 := by
  unfold propertiesFromByte at h
  dsimp only at h
  rw [ite_error_eq_ok, ite_error_eq_ok] at h
  obtain ⟨-, hnot, heq⟩ := h
  obtain ⟨rfl, rfl, rfl⟩ := Prod.mk.inj (Except.ok.inj heq) |>.imp id Prod.mk.inj
  omega

theorem propertiesFromByte_error {byte : UInt8} {e : Error}
    (h : propertiesFromByte byte = .error e) : Failure maximum e := by
  unfold propertiesFromByte at h
  dsimp only at h
  split at h
  · obtain rfl := Except.error.inj h
    exact .chunk (by decide)
  · split at h
    · obtain rfl := Except.error.inj h
      exact .chunk (by decide)
    · exact absurd h (by simp)

/-- Accepted properties make a state. -/
theorem StoredState.new_eq {pb : Nat} (hpb : pb ≤ 4) (hsmall : lc + lp ≤ 4) :
    StoredState.new lc lp pb
      = .ok ⟨⟨[0, 0, 0, 0], 0, lc, lp, 2 ^ pb - 1⟩, Tables.new lc lp⟩ := by
  have hpow : 2 ^ pb ≤ 2 ^ 4 := Nat.pow_le_pow_right Nat.two_pos hpb
  have hmask : ((checkedShl 64 1 pb).bind fun value => checkedSub value 1)
      = some (2 ^ pb - 1) := by
    rw [checkedShl_of_lt (by omega), Option.bind_some, Nat.shiftLeft_eq, Nat.one_mul,
      Nat.mod_eq_of_lt (by omega), checkedSub_of_le (Nat.two_pow_pos pb)]
  have hstate : LzmaState.new lc lp pb = .ok ⟨[0, 0, 0, 0], 0, lc, lp, 2 ^ pb - 1⟩ := by
    unfold LzmaState.new
    rw [if_neg (by omega), hmask, okOr_some, except_ok_bind, checkedAdd_of_lt (by omega),
      okOr_some, except_ok_bind, if_neg (by omega)]
    rfl
  rw [StoredState.new, hstate]
  rfl

theorem StoredState.new_eq_ok {pb : Nat} (hpb : pb ≤ 4) (hsmall : lc + lp ≤ 4) :
    ∃ stored, StoredState.new lc lp pb = .ok stored ∧ stored.Sound lc lp := by
  have hpow : 2 ^ pb ≤ 2 ^ 4 := Nat.pow_le_pow_right Nat.two_pos hpb
  refine ⟨_, StoredState.new_eq hpb hsmall, LzmaState.sound_initial ?_, Tables.sound_new lc lp,
    hsmall⟩
  show 2 ^ pb - 1 < 16
  omega

/-- A stream leaves a state for the next one when its size is declared. -/
theorem alike_decodeStream {stored : StoredState} {input : Bytes} {output : Output}
    {expectedIncrement : Option Nat} {requireEos : Bool} (hstored : stored.Sound lc lp)
    (hinput : input.length < 2 ^ 63) (houtput : output.Sound maximum)
    (hincrement : expectedIncrement.getD 0 < 2 ^ 63)
    (hend : requireEos || expectedIncrement.isSome) :
    Metered.Alike (Failure maximum)
      (decodeStream (guardedSource alarm) stored input output expectedIncrement requireEos)
      (decodeStream rangeSource stored input output expectedIncrement requireEos)
      fun out => out.2.Sound maximum ∧ (expectedIncrement.isSome → out.1.Sound lc lp) := by
  have htarget : (streamTarget output expectedIncrement).Ensures
      (fun target => target.isSome = expectedIncrement.isSome) (Failure maximum) := by
    cases expectedIncrement with
    | none => exact Metered.ensures_of_ok rfl rfl
    | some size =>
        have hvector := houtput.vector_le
        have hsize : size < 2 ^ 63 := hincrement
        rw [vectorMax] at hvector
        refine Metered.ensures_bind_ok (orFormat_eq_ok.mpr (checkedAdd_of_lt (by omega))) ?_
        rw [houtput.maximum_eq]
        refine (ensures_checkLimit _).bind fun _ _ => Metered.ensures_of_ok rfl rfl
  refine (Metered.Alike.refl htarget).bind fun target hsome => ?_
  refine (Metered.Alike.refl (RangeDecoder.ensures_new hinput)).bind fun range hrange => ?_
  rw [← hsome] at hend ⊢
  refine (coupled_decodeLoop hstored.small (fun output coder =>
    ensures_finishAtEos hend output coder.decoder) hstored.state houtput ?_
    ⟨range, stored.tables⟩ ⟨hrange, hstored.tables⟩).bind ?_
  · rw [houtput.maximum_eq]
    show maximum + 1 ≤ output.position + (maximum + 1 - output.position)
    omega
  · rintro ⟨stream, coder⟩ ⟨⟨hout, hstate⟩, hcoder⟩
    exact Metered.Alike.pure ⟨hout, fun h => ⟨hstate h, hcoder.tables, hstored.small⟩⟩

theorem alike_decodeLzma {input properties : Bytes} {property : UInt8} {dictionary pb : Nat}
    (hinput : input.length < 2 ^ 63)
    (hproperties : lzmaDictionary properties = .ok (property, dictionary))
    (hproperty : propertiesFromByte property = .ok (lc, lp, pb)) (expected : Option Nat) :
    Metered.Alike (Failure maximum)
      (decodeLzmaFrom (guardedSource alarm) input properties expected maximum)
      (decodeLzma input properties expected maximum) fun _ => True := by
  obtain ⟨hpb, hsmall⟩ := propertiesFromByte_eq_ok hproperty
  obtain ⟨stored, hnew, hstored⟩ := StoredState.new_eq_ok hpb hsmall
  unfold decodeLzma decodeLzmaFrom
  refine Metered.Alike.bind_ok ((result_ofExcept _).trans hproperties) ?_
  refine Metered.Alike.bind_ok ((result_ofExcept _).trans hproperty) ?_
  refine Metered.Alike.bind_ok ((result_ofExcept _).trans hnew) ?_
  refine (Metered.Alike.refl (Output.ensures_new dictionary expected)).bind fun output hout => ?_
  obtain ⟨houtput, -, hexpected⟩ := hout
  rw [vectorMax] at hexpected
  refine (alike_decodeStream hstored hinput houtput (by omega) ?_).bind fun _ _ =>
    Metered.Alike.pure trivial
  cases expected <;> rfl

/-! ### LZMA2 -/

namespace SliceCursor

/-- The cursor is inside its bytes, at this place or behind it. -/
structure From (bytes : Bytes) (start : Nat) (cursor : SliceCursor) : Prop where
  bytes_eq : cursor.bytes = bytes
  position_le : cursor.position ≤ bytes.length
  start_le : start ≤ cursor.position

variable {bytes : Bytes} {start : Nat} {cursor : SliceCursor}

theorem From.ensures_readU8 (hbytes : bytes.length < 2 ^ 63) (h : cursor.From bytes start) :
    (readU8 cursor).Ensures (fun out => out.2.From bytes (start + 1)) (Failure maximum) := by
  obtain ⟨rfl, hle, hstart⟩ := h
  refine Metered.ensures_bind_ok (result_checkpoint 1) ?_
  cases hbyte : cursor.bytes[cursor.position]? with
  | none => exact Metered.ensures_of_error rfl (.truncation (by decide))
  | some byte =>
      have hlt : cursor.position < cursor.bytes.length := (List.getElem?_eq_some_iff.mp hbyte).1
      have hadd : checkedAdd 64 cursor.position 1 = some (cursor.position + 1) :=
        checkedAdd_of_lt (by omega)
      refine Metered.ensures_bind_ok rfl ?_
      refine Metered.ensures_bind_ok (orFormat_eq_ok.mpr hadd) ?_
      exact Metered.ensures_of_ok rfl ⟨rfl, hlt, Nat.succ_le_succ hstart⟩

theorem coupled_readU8 (hbytes : bytes.length < 2 ^ 63) :
    Coupled (From bytes start) (Failure maximum) readU8 readU8 fun _ => True :=
  fun _ h => Metered.Alike.refl ((h.ensures_readU8 hbytes).mono
    (fun _ hout => ⟨trivial, hout.bytes_eq, hout.position_le, Nat.le_of_succ_le hout.start_le⟩)
    fun _ he => he)

theorem coupled_readU16Be (hbytes : bytes.length < 2 ^ 63) :
    Coupled (From bytes start) (Failure maximum) readU16Be readU16Be (· < 2 ^ 16) := by
  refine (coupled_readU8 hbytes).bind fun high _ => ?_
  refine (coupled_readU8 hbytes).bind fun low _ => Coupled.pure ?_
  have hhigh : high.toNat < 2 ^ 8 := UInt8.toNat_lt high
  have hlow : low.toNat < 2 ^ 8 := UInt8.toNat_lt low
  refine Nat.or_lt_two_pow ?_ (by omega)
  rw [Nat.shiftLeft_eq]
  omega

theorem coupled_readBytes (hbytes : bytes.length < 2 ^ 63) {length : Nat}
    (hlength : length < 2 ^ 63) :
    Coupled (From bytes start) (Failure maximum) (readBytes length) (readBytes length)
      fun slice => slice.length < 2 ^ 63 := by
  intro cursor h
  obtain ⟨rfl, hle, hstart⟩ := h
  refine Metered.Alike.refl ?_
  have hrange : (checkedRange cursor.bytes cursor.position length "LZMA2 input range overflows"
      "truncated LZMA2 chunk").Ensures
      (fun slice => cursor.position + length ≤ cursor.bytes.length ∧ slice.length ≤ length)
      (Failure maximum) := by
    refine Metered.ensures_bind_ok (orFormat_eq_ok.mpr (checkedAdd_of_lt (by omega))) ?_
    split
    · rename_i hend
      refine Metered.ensures_of_ok rfl ⟨hend, ?_⟩
      exact List.length_take_le _ _
    · exact Metered.ensures_of_error rfl (.truncation (by decide))
  refine hrange.bind fun slice hslice => ?_
  refine Metered.ensures_bind_ok (result_consumeBytes slice) ?_
  exact Metered.ensures_of_ok rfl ⟨Nat.lt_of_le_of_lt hslice.2 hlength, rfl, hslice.1,
    Nat.le_trans hstart (Nat.le_add_right _ _)⟩

end SliceCursor

/-- What the loop of `decode_lzma2` keeps. -/
structure Chunked.Sound (maximum : Nat) (chunked : Chunked) : Prop where
  output : chunked.output.Sound maximum
  stored : ∀ stored, chunked.stored = some stored → ∃ lc lp, stored.Sound lc lp
  properties : chunked.needsProperties = false → chunked.stored.isSome

variable {bytes : Bytes} {start : Nat} {chunked : Chunked}

theorem Chunked.Sound.ensures_resetDictionary (h : chunked.Sound maximum) (control : Nat) :
    (resetDictionary chunked control).Ensures (Chunked.Sound maximum) (Failure maximum) := by
  unfold resetDictionary
  split
  · exact Metered.ensures_of_ok rfl ⟨h.output.resetDictionary, h.stored, fun hno => by cases hno⟩
  · split
    · exact Metered.ensures_of_error rfl (.chunk (by decide))
    · exact Metered.ensures_of_ok rfl h

theorem ensures_properties (property : UInt8) :
    (ofExcept (propertiesFromByte property)).Ensures
      (fun out => ∃ stored, StoredState.new out.1 out.2.1 out.2.2 = .ok stored ∧
        stored.Sound out.1 out.2.1) (Failure maximum) := by
  refine Metered.ensures_iff.mpr ⟨?_, fun e he => ?_⟩
  · rintro ⟨lc, lp, pb⟩ hout
    rw [result_ofExcept] at hout
    obtain ⟨hpb, hsmall⟩ := propertiesFromByte_eq_ok hout
    exact StoredState.new_eq_ok hpb hsmall
  · rw [result_ofExcept] at he
    exact propertiesFromByte_error he

theorem coupled_resetState (hbytes : bytes.length < 2 ^ 63) (h : chunked.Sound maximum)
    (control : Nat) :
    Coupled (SliceCursor.From bytes start) (Failure maximum) (resetState chunked control)
      (resetState chunked control)
      fun next => next.Sound maximum ∧ ∃ stored, next.stored = some stored := by
  refine Coupled.ite (fun _ => ?_) fun _ => ?_
  · refine (SliceCursor.coupled_readU8 hbytes).bind fun property _ => ?_
    refine (Coupled.lift (ensures_properties property)).bind ?_
    rintro ⟨lc, lp, pb⟩ ⟨stored, hnew, hstored⟩
    refine Coupled.lift_bind ((result_ofExcept _).trans hnew) (Coupled.pure ⟨?_, stored, rfl⟩)
    refine ⟨h.output, fun other hother => ?_, fun _ => rfl⟩
    obtain rfl := Option.some.inj hother
    exact ⟨lc, lp, hstored⟩
  · refine Coupled.ite (fun _ => Coupled.lift ?_) fun hproperties => ?_
    · exact Metered.ensures_of_error rfl (.chunk (by decide))
    have hsome := h.properties (by simpa using hproperties)
    obtain ⟨stored, hstored⟩ := Option.isSome_iff_exists.mp hsome
    refine Coupled.ite (fun _ => ?_) fun _ => Coupled.pure ⟨h, stored, hstored⟩
    refine coupled_some hstored (Coupled.pure ⟨⟨h.output, fun other hother => ?_, fun _ => rfl⟩,
      stored.reset, rfl⟩)
    obtain rfl := Option.some.inj hother
    obtain ⟨lc, lp, hsound⟩ := h.stored stored hstored
    exact ⟨lc, lp, hsound.reset⟩

theorem coupled_compressedChunk (hbytes : bytes.length < 2 ^ 63) (h : chunked.Sound maximum)
    (control : Nat) :
    Coupled (SliceCursor.From bytes start) (Failure maximum)
      (compressedChunk (guardedSource alarm) chunked control)
      (compressedChunk rangeSource chunked control) (Chunked.Sound maximum) := by
  have hcontrol : control &&& 0x1f < 2 ^ 5 := Nat.lt_of_le_of_lt Nat.and_le_right (by decide)
  have hhigh : checkedShl 64 (control &&& 0x1f) 16 = some ((control &&& 0x1f) * 2 ^ 16) := by
    rw [checkedShl_of_lt (by decide), Nat.shiftLeft_eq, Nat.mod_eq_of_lt (by omega)]
  refine coupled_some hhigh ?_
  refine (SliceCursor.coupled_readU16Be hbytes).bind fun low hlow => ?_
  have hunpacked : ((checkedAdd 64 ((control &&& 0x1f) * 2 ^ 16) low).bind fun value =>
      checkedAdd 64 value 1) = some ((control &&& 0x1f) * 2 ^ 16 + low + 1) := by
    rw [checkedAdd_of_lt (by omega), Option.bind_some, checkedAdd_of_lt (by omega)]
  refine coupled_some hunpacked ?_
  refine (SliceCursor.coupled_readU16Be hbytes).bind fun packed hpacked => ?_
  refine coupled_some (checkedAdd_of_lt (by omega)) ?_
  refine (coupled_resetState hbytes h control).bind ?_
  rintro next ⟨hnext, stored, hstored⟩
  refine (SliceCursor.coupled_readBytes hbytes (by omega)).bind fun slice hslice => ?_
  refine coupled_some hstored ?_
  obtain ⟨lc, lp, hsound⟩ := hnext.stored stored hstored
  intro cursor hcursor
  refine ((alike_decodeStream hsound hslice hnext.output ?_ rfl).bind (R := fun out =>
    (out.1.1.Sound lc lp ∧ out.1.2.Sound maximum) ∧ out.2.From bytes start) ?_).bind ?_
  · show (control &&& 0x1f) * 2 ^ 16 + low + 1 < 2 ^ 63
    omega
  · rintro out ⟨houtput, hstored'⟩
    exact Metered.Alike.pure ⟨⟨hstored' rfl, houtput⟩, hcursor⟩
  · rintro ⟨⟨last, output⟩, cursor'⟩ ⟨⟨hlast, houtput⟩, hcursor'⟩
    refine Metered.Alike.pure ⟨⟨houtput, fun other hother => ?_, fun _ => rfl⟩, hcursor'⟩
    obtain rfl := Option.some.inj hother
    exact ⟨lc, lp, hlast⟩

theorem coupled_uncompressedChunk (hbytes : bytes.length < 2 ^ 63) (h : chunked.Sound maximum) :
    Coupled (SliceCursor.From bytes start) (Failure maximum) (uncompressedChunk chunked)
      (uncompressedChunk chunked) (Chunked.Sound maximum) := by
  refine (SliceCursor.coupled_readU16Be hbytes).bind fun unpacked hunpacked => ?_
  refine coupled_some (checkedAdd_of_lt (by omega)) ?_
  refine (SliceCursor.coupled_readBytes hbytes (by omega)).bind fun slice hslice => ?_
  refine (Coupled.lift (h.output.ensures_extend hslice)).bind fun output houtput => ?_
  exact Coupled.pure ⟨houtput.1, h.stored, h.properties⟩

theorem coupled_decodeChunk (hbytes : bytes.length < 2 ^ 63) (h : chunked.Sound maximum)
    (control : Nat) :
    Coupled (SliceCursor.From bytes start) (Failure maximum)
      (decodeChunk (guardedSource alarm) chunked control) (decodeChunk rangeSource chunked control)
      (Chunked.Sound maximum) := by
  refine (Coupled.lift (h.ensures_resetDictionary control)).bind fun next hnext => ?_
  refine Coupled.ite (fun _ => coupled_compressedChunk hbytes hnext control) fun _ => ?_
  refine Coupled.ite (fun _ => coupled_uncompressedChunk hbytes hnext) fun _ => Coupled.lift ?_
  exact Metered.ensures_of_error rfl (.chunk (by decide))

/-- Every chunk takes its control byte from the input, so the loop comes to an end. -/
theorem alike_decodeChunks (hbytes : bytes.length < 2 ^ 63) (expected : Option Nat) {fuel : Nat}
    (h : chunked.Sound maximum) (hfuel : bytes.length + 1 ≤ start + fuel) {cursor : SliceCursor}
    (hcursor : cursor.From bytes start) :
    Metered.Alike (Failure maximum)
      (decodeChunks (guardedSource alarm) expected fuel chunked cursor)
      (decodeChunks rangeSource expected fuel chunked cursor) fun _ => True := by
  induction fuel generalizing start chunked cursor with
  | zero =>
      have hle := Nat.le_trans hcursor.start_le hcursor.position_le
      omega
  | succ fuel ih =>
      refine Metered.Alike.bind_ok (a := ((), cursor)) rfl ?_
      refine (Metered.Alike.refl (hcursor.ensures_readU8 hbytes)).bind ?_
      rintro ⟨control, next⟩ hnext
      dsimp only at hnext ⊢
      split
      · refine Metered.Alike.bind_ok (a := (next, next)) rfl ?_
        dsimp only
        split
        · exact Metered.Alike.refl (Metered.ensures_of_error rfl (.marker (by decide)))
        split
        · exact Metered.Alike.refl (Metered.ensures_of_error rfl (.size (by decide)))
        · exact Metered.Alike.pure trivial
      · refine (coupled_decodeChunk hbytes h control.toNat next hnext).bind ?_
        rintro ⟨chunked', last⟩ ⟨hchunked, hlast⟩
        dsimp only at hchunked hlast ⊢
        split
        · exact Metered.Alike.refl (Metered.ensures_of_error rfl (.size (by decide)))
        · exact ih hchunked (by omega) hlast

theorem alike_decodeLzma2 {input properties : Bytes} {dictionary : Nat}
    (hinput : input.length < 2 ^ 63) (hproperties : lzma2Dictionary properties = .ok dictionary)
    (expected : Option Nat) :
    Metered.Alike (Failure maximum)
      (decodeLzma2From (guardedSource alarm) input properties expected maximum)
      (decodeLzma2 input properties expected maximum) fun _ => True := by
  unfold decodeLzma2 decodeLzma2From
  refine Metered.Alike.bind_ok ((result_ofExcept _).trans hproperties) ?_
  refine (Metered.Alike.refl (Output.ensures_new _ expected)).bind fun output hout => ?_
  have hchunked : (⟨output, none, true, true⟩ : Chunked).Sound maximum :=
    ⟨hout.1, (fun _ h => by cases h), fun h => by cases h⟩
  refine (alike_decodeChunks hinput expected hchunked (Nat.le_of_eq (Nat.zero_add _).symm)
    ⟨rfl, Nat.zero_le _, Nat.le_refl 0⟩).bind fun _ _ => Metered.Alike.pure trivial

/-! ### The decoders -/

/--
**The guards of LZMA are never reached**, by any input under any properties that are accepted.

The decoders over a source that raises an alarm, when a bit has no probability, or leaves an
extreme one, a narrow range or more than one byte read behind, are the decoders.  So no
alarm is ever raised, whatever it is, and an error that a run returns is a `Failure`, none of
which is that of a guard, or an interruption.
-/
theorem decoders_guarded (alarm : Error) {input : Bytes} (hinput : input.length < 2 ^ 63)
    (properties : Bytes) (expected : Option Nat) (maximum : Nat) (control : ParseControl) :
    (∀ property dictionary lc lp pb, lzmaDictionary properties = .ok (property, dictionary) →
      propertiesFromByte property = .ok (lc, lp, pb) →
      decodeLzmaFrom (guardedSource alarm) input properties expected maximum
        = decodeLzma input properties expected maximum ∧
      ∀ error, ((decodeLzma input properties expected maximum).run control).1 = .error error →
        Failure maximum error ∨ control.Interrupts error) ∧
    (∀ dictionary, lzma2Dictionary properties = .ok dictionary →
      decodeLzma2From (guardedSource alarm) input properties expected maximum
        = decodeLzma2 input properties expected maximum ∧
      ∀ error, ((decodeLzma2 input properties expected maximum).run control).1 = .error error →
        Failure maximum error ∨ control.Interrupts error) := by
  refine ⟨fun property dictionary lc lp pb hproperties hproperty => ?_,
    fun dictionary hproperties => ?_⟩
  · have halike := @alike_decodeLzma lc lp maximum alarm input properties property dictionary pb
      hinput hproperties hproperty expected
    exact ⟨halike.eq, fun error herror => halike.ensures.run_error herror⟩
  · have halike := @alike_decodeLzma2 maximum alarm input properties dictionary hinput hproperties
      expected
    exact ⟨halike.eq, fun error herror => halike.ensures.run_error herror⟩

/-- A stream of three literals with an end marker, and the same bytes in an uncompressed chunk. -/
theorem decoders_guarded_abc :
    (decodeLzmaFrom (guardedSource (formatError "alarm"))
        [0x00, 0x30, 0x98, 0x88, 0xa4, 0x4a, 0x8e, 0x9f, 0xff, 0xf6, 0x63, 0x80, 0x00]
        [0x5d, 0x00, 0x10, 0x00, 0x00] none 3).result = .ok [97, 98, 99] ∧
      decodeLzma2From (guardedSource (formatError "alarm")) [1, 0, 2, 97, 98, 99, 0] [0] (some 3) 3
        = decodeLzma2 [1, 0, 2, 97, 98, 99, 0] [0] (some 3) 3 := by
  refine ⟨?_, ?_⟩
  · rw [((decoders_guarded _ (by decide) _ _ _ (.uncancelled .unlimited)).1 0x5d 4096 3 0 2 rfl
      rfl).1]
    decide +kernel
  · exact ((decoders_guarded _ (by decide) _ _ _ (.uncancelled .unlimited)).2 4096 rfl).1

end Lzma

end Un7z
