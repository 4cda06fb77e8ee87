/-
The arithmetic guards of LZMA are never reached.

The decoders check every addition, every shift and every index, and no input gets them to
refuse one.  `guardedSource` is a source of bits that watches for it: it raises an alarm
when it is asked for a bit that its tables do not have, or when a bit leaves behind a
probability out of bounds, a narrow range or more than one byte read.  What is proved is
that the decoders over the guarded source are the decoders, so that no alarm is ever raised,
and that each of their errors is one of a `Failure`.

Both follow from one invariant, `Coder.Sound`: every bit keeps it, and under it every index
that the decoders of trees, lengths, distances, literals and operations compute has its
place.  The proofs go through the decoders in that order, one lemma for each.
-/
import Un7z.Lzma
import Un7z.Lib.Coupled
import Un7z.Proofs.LzmaRange

namespace Un7z

namespace Lzma

/-! ### The ways to fail -/

def truncations : List String :=
  ["truncated LZMA range stream", "truncated LZMA2 stream", "truncated LZMA2 chunk"]

def initialFaults : List String :=
  ["LZMA range stream does not begin with zero", "invalid initial LZMA range state"]

def markerFaults : List String :=
  ["LZMA range state is not final at EOS", "LZMA stream has trailing input after EOS",
    "LZMA EOS precedes its declared size", "LZMA2 stream has trailing bytes after EOS"]

def sizeFaults : List String :=
  ["LZMA output exceeds its declared size", "LZMA2 output exceeds its declared size",
    "LZMA2 output size does not match its declaration"]

def chunkFaults : List String :=
  ["LZMA2 stream omits its initial dictionary reset",
    "LZMA2 compressed chunk omits required properties", "reserved LZMA2 control byte",
    "invalid LZMA property byte", "invalid LZMA lc/lp/pb properties"]

/-- What decoding can fail with, under a limit on the output. -/
inductive Failure (maximum : Nat) : Error → Prop
  | truncation {detail : String} : detail ∈ truncations → Failure maximum (formatError detail)
  | initial {detail : String} : detail ∈ initialFaults → Failure maximum (formatError detail)
  | dictionary :
      Failure maximum (formatError "LZMA match distance exceeds the declared dictionary")
  | history {distance available position : Nat} : available < distance → Failure maximum
      (formatError s!"LZMA match distance {distance} exceeds available history {available} at output {position}")
  | marker {detail : String} : detail ∈ markerFaults → Failure maximum (formatError detail)
  | size {detail : String} : detail ∈ sizeFaults → Failure maximum (formatError detail)
  | chunk {detail : String} : detail ∈ chunkFaults → Failure maximum (formatError detail)
  | limit {requested : Nat} : maximum < requested →
      Failure maximum (.limitExceeded .totalOutputBytes requested maximum)
  -- No machine has the memory for it.
  | capacity {detail : String} : vectorMax < maximum → Failure maximum (.ioError .outOfMemory detail)

/-! ### The range decoder -/

namespace RangeDecoder

/-- The decoder between two bits, whatever its input. -/
structure Sound (decoder : RangeDecoder) : Prop where
  wide : 2 ^ 24 ≤ decoder.range
  range_lt : decoder.range < 2 ^ 32
  input_lt : decoder.input.length < 2 ^ 63

/-- The decoder `next` is sound, and has read at most one byte more. -/
def Follows (decoder next : RangeDecoder) : Prop :=
  next.Sound ∧ next.cursor ≤ decoder.cursor + 1

variable {decoder : RangeDecoder} {maximum : Nat}

theorem ensures_readByte (hinput : decoder.input.length < 2 ^ 63) :
    (readByte decoder).Ensures
      (fun out => out.2 = { decoder with cursor := decoder.cursor + 1 }) (Failure maximum) := by
  cases hbyte : decoder.input[decoder.cursor]? with
  | some byte => exact Metered.ensures_of_ok (readByte_of_some hbyte (by omega)) rfl
  | none => exact Metered.ensures_of_error (readByte_of_none hbyte) (.truncation (by decide))

/-- One byte is enough where the range has not become too narrow. -/
theorem ensures_normalize (hlow : 2 ^ 16 ≤ decoder.range) (hhigh : decoder.range < 2 ^ 32)
    (hinput : decoder.input.length < 2 ^ 63) :
    (normalize decoder).Ensures (fun out => decoder.Follows out.2) (Failure maximum) := by
  by_cases hwide : 2 ^ 24 ≤ decoder.range
  · exact Metered.ensures_of_ok (normalize_of_wide hwide) ⟨⟨hwide, hhigh, hinput⟩, Nat.le_succ _⟩
  · have hread := @ensures_readByte { decoder with range := decoder.range * 256 } maximum hinput
    refine hread.of_map (normalize_of_narrow (Nat.not_le.mp hwide)) ?_
    rintro ⟨byte, next⟩ rfl
    refine ⟨⟨?_, ?_, hinput⟩, Nat.le_refl _⟩
    · show 2 ^ 24 ≤ decoder.range * 256
      omega
    · show decoder.range * 256 < 2 ^ 32
      omega

/-- Both sides of the bound of a moderate probability are wide enough. -/
theorem Sound.sides {probability : Nat} (h : decoder.Sound) (hp : Moderate probability) :
    2 ^ 16 ≤ decoder.range / 2048 * probability ∧
      2 ^ 16 ≤ decoder.range - decoder.range / 2048 * probability := by
  have hunit : 2 ^ 13 ≤ decoder.range / 2048 := by
    have hwide := h.wide
    omega
  have hlow : decoder.range / 2048 * 31 ≤ decoder.range / 2048 * probability :=
    Nat.mul_le_mul_left _ hp.1
  have hhigh : decoder.range / 2048 * probability ≤ decoder.range / 2048 * 2017 :=
    Nat.mul_le_mul_left _ hp.2
  omega

/-- A bit that is coded: what becomes of the decoder and of the probability. -/
theorem Sound.ensures_decodeBit {probability : Nat} (h : decoder.Sound)
    (hp : Moderate probability) :
    (decodeBit probability decoder).Ensures
      (fun out => (out.1.1 ≤ 1 ∧ Moderate out.1.2) ∧ decoder.Follows out.2)
      (Failure maximum) := by
  obtain ⟨hleft, hright⟩ := h.sides hp
  obtain ⟨hzero, hone⟩ := hp.towards
  have hle := @bound_le decoder probability hp
  have hlt := h.range_lt
  have hresult := result_decodeBit h.range_lt hp
  split at hresult
  · have hnext := @ensures_normalize
      { decoder with range := decoder.range / 2048 * probability } maximum hleft
      (Nat.lt_of_le_of_lt hle hlt) h.input_lt
    exact hnext.of_map hresult fun _ hfollows => ⟨⟨Nat.zero_le _, hzero⟩, hfollows⟩
  · have hnext := @ensures_normalize
      { decoder with
        range := decoder.range - decoder.range / 2048 * probability
        code := decoder.code - decoder.range / 2048 * probability } maximum hright
      (Nat.lt_of_le_of_lt (Nat.sub_le _ _) hlt) h.input_lt
    exact hnext.of_map hresult fun _ hfollows => ⟨⟨Nat.le_refl _, hone⟩, hfollows⟩

theorem Sound.ensures_decodeDirectBit (h : decoder.Sound) :
    (decodeDirectBit decoder).Ensures (fun out => out.1 ≤ 1 ∧ decoder.Follows out.2)
      (Failure maximum) := by
  have hwide := h.wide
  have hlt := h.range_lt
  have hnext : ∀ code, (normalize { decoder with range := decoder.range / 2, code }).Ensures
      (fun out => decoder.Follows out.2) (Failure maximum) := fun code =>
    @ensures_normalize { decoder with range := decoder.range / 2, code } maximum
      (show 2 ^ 16 ≤ decoder.range / 2 by omega) (show decoder.range / 2 < 2 ^ 32 by omega)
      h.input_lt
  have hresult := result_decodeDirectBit decoder
  split at hresult
  · exact (hnext _).of_map hresult fun _ hfollows => ⟨Nat.le_refl _, hfollows⟩
  · exact (hnext _).of_map hresult fun _ hfollows => ⟨Nat.zero_le _, hfollows⟩

theorem ensures_readCode (hinput : decoder.input.length < 2 ^ 63) (count : Nat) :
    (readCode count decoder).Ensures
      (fun out => out.2.range = decoder.range ∧ out.2.input = decoder.input)
      (Failure maximum) := by
  induction count generalizing decoder with
  | zero => exact Metered.ensures_of_ok rfl ⟨rfl, rfl⟩
  | succ count ih =>
      refine (ensures_readByte hinput).bind ?_
      rintro ⟨byte, next⟩ rfl
      exact @ih ⟨decoder.input, decoder.cursor + 1, decoder.range, shiftCode decoder.code byte⟩
        hinput

/-- A decoder that starts is sound. -/
theorem ensures_new {input : Bytes} (hinput : input.length < 2 ^ 63) :
    (new input).Ensures Sound (Failure maximum) := by
  unfold new
  refine (@ensures_readByte ⟨input, 0, 2 ^ 32 - 1, 0⟩ maximum hinput).bind ?_
  rintro ⟨first, next⟩ rfl
  dsimp only
  split
  · exact Metered.ensures_of_error rfl (.initial (by decide))
  · refine (@ensures_readCode ⟨input, 1, 2 ^ 32 - 1, 0⟩ maximum hinput 4).bind ?_
    rintro ⟨_, last⟩ ⟨hrange, hsame⟩
    dsimp only at hrange hsame ⊢
    split
    · exact Metered.ensures_of_error rfl (.initial (by decide))
    · refine Metered.ensures_of_ok rfl ⟨?_, ?_, ?_⟩
      · rw [hrange]
        decide
      · rw [hrange]
        decide
      · rwa [hsame]

end RangeDecoder

/-! ### The tables -/

/-- How long the array of a probability is, if there is one. -/
def Slot.rowLength (lc lp : Nat) : Slot → Option Nat
  | .isMatch _ | .isRepZeroLong _ => some (stateCount * positionStates)
  | .isRep _ | .isRepZero _ | .isRepOne _ | .isRepTwo _ => some stateCount
  | .literal _ => some ((1 <<< (lc + lp)) * 0x300)
  | .choice _ _ => some 2
  | .low _ positionState _ | .middle _ positionState _ =>
      if positionState < positionStates then some 8 else none
  | .high _ _ => some 256
  | .positionSlot lengthState _ => if lengthState < lengthStates then some 64 else none
  | .positionModel model _ =>
      if model < endPositionModel - startPositionModel then some (1 <<< positionModelBits model)
      else none
  | .alignment _ => some 16

/-- Another probability of the same array. -/
def Slot.withIndex (slot : Slot) (index : Nat) : Slot :=
  match slot with
  | .isMatch _ => .isMatch index
  | .isRepZeroLong _ => .isRepZeroLong index
  | .isRep _ => .isRep index
  | .isRepZero _ => .isRepZero index
  | .isRepOne _ => .isRepOne index
  | .isRepTwo _ => .isRepTwo index
  | .literal _ => .literal index
  | .choice kind _ => .choice kind index
  | .low kind positionState _ => .low kind positionState index
  | .middle kind positionState _ => .middle kind positionState index
  | .high kind _ => .high kind index
  | .positionSlot lengthState _ => .positionSlot lengthState index
  | .positionModel model _ => .positionModel model index
  | .alignment _ => .alignment index

/-- The array of a probability, named by its first one. -/
def Slot.array (slot : Slot) : Slot := slot.withIndex 0

theorem Slot.array_withIndex (slot : Slot) : slot.array.withIndex slot.index = slot := by
  cases slot <;> rfl

theorem Slot.rowLength_array (lc lp : Nat) (slot : Slot) :
    slot.array.rowLength lc lp = slot.rowLength lc lp := by
  cases slot <;> rfl

theorem Slot.eq_of_array {slot other : Slot} (harray : other.array = slot.array)
    (hindex : other.index = slot.index) : other = slot := by
  rw [← other.array_withIndex, harray, hindex, slot.array_withIndex]

/-- The probability has its place in tables of these widths. -/
def Slot.InRange (lc lp : Nat) (slot : Slot) : Prop :=
  ∃ n, slot.rowLength lc lp = some n ∧ slot.index < n

/-- Every array is as long as its trees need it, and nothing in it is extreme. -/
structure Tables.Sound (lc lp : Nat) (tables : Tables) : Prop where
  shape : ∀ slot, (tables.row slot).map List.length = slot.rowLength lc lp
  moderate : ∀ slot row, tables.row slot = some row → ∀ p ∈ row, Moderate p

namespace Tables

variable {lc lp : Nat} {tables : Tables} {slot : Slot} {row : List Nat}

theorem length_newTree (bits : Nat) : (newTree bits).length = 1 <<< bits := List.length_replicate

/-- All arrays start in the middle. -/
theorem row_new (h : (Tables.new lc lp).row slot = some row) :
    ∃ n, row = List.replicate n probInitial := by
  have htrees : ∀ {n bits i : Nat}, (List.replicate n (newTree bits))[i]? = some row →
      ∃ n, row = List.replicate n probInitial := by
    intro n bits i htree
    exact ⟨1 <<< bits, (List.eq_of_mem_replicate (List.mem_of_getElem? htree))⟩
  cases slot with
  | low kind positionState node => cases kind <;> exact htrees h
  | middle kind positionState node => cases kind <;> exact htrees h
  | choice kind index => cases kind <;> exact ⟨_, (Option.some.inj h).symm⟩
  | high kind node => cases kind <;> exact ⟨_, (Option.some.inj h).symm⟩
  | positionSlot lengthState node => exact htrees h
  | positionModel model node =>
      obtain ⟨i, -, hi⟩ := List.mem_map.mp (List.mem_of_getElem? h)
      exact ⟨1 <<< positionModelBits i, hi.symm⟩
  | _ => exact ⟨_, (Option.some.inj h).symm⟩

theorem shape_new (lc lp : Nat) (slot : Slot) :
    ((Tables.new lc lp).row slot).map List.length = slot.rowLength lc lp := by
  cases slot with
  | low kind positionState node =>
      cases kind <;> simp only [row, lengthOf, new, LengthTables.new, Slot.rowLength,
        List.getElem?_replicate] <;> split <;> rfl
  | middle kind positionState node =>
      cases kind <;> simp only [row, lengthOf, new, LengthTables.new, Slot.rowLength,
        List.getElem?_replicate] <;> split <;> rfl
  | choice kind index => cases kind <;> rfl
  | high kind node => cases kind <;> exact congrArg some (length_newTree 8)
  | positionSlot lengthState node =>
      simp only [row, new, Slot.rowLength, List.getElem?_replicate]
      split <;> rfl
  | positionModel model node =>
      simp only [row, new, Slot.rowLength, List.getElem?_map, Option.map_map]
      by_cases hmodel : model < endPositionModel - startPositionModel
      · rw [if_pos hmodel, List.getElem?_range hmodel]
        exact congrArg some (length_newTree _)
      · rw [if_neg hmodel, List.getElem?_eq_none (by simpa using hmodel)]
        rfl
  | alignment node => exact congrArg some (length_newTree 4)
  | _ => exact congrArg some List.length_replicate

theorem sound_new (lc lp : Nat) : (Tables.new lc lp).Sound lc lp := by
  refine ⟨shape_new lc lp, fun slot row h p hp => ?_⟩
  obtain ⟨n, rfl⟩ := row_new h
  rw [List.eq_of_mem_replicate hp]
  exact moderate_initial

/-- One row of a table replaced, under names that tell the rows apart. -/
theorem getElem?_set_named {rows : List (List Nat)} {i : Nat} (name : Nat → Slot)
    (hname : ∀ i j, name i = name j → i = j) (hi : (rows[i]?).isSome) (new : List Nat) (j : Nat) :
    (rows.set i new)[j]? = rows[j]? ∧ name j ≠ name i ∨
      (rows.set i new)[j]? = some new ∧ name j = name i := by
  by_cases h : i = j
  · subst h
    have hlt : i < rows.length := by simpa using hi
    exact Or.inr ⟨List.getElem?_set_self hlt, rfl⟩
  · exact Or.inl ⟨List.getElem?_set_ne h, fun heq => h (hname j i heq).symm⟩

/-- Replacing one array leaves the others. -/
theorem row_setRow (hslot : (tables.row slot).isSome) (new : List Nat) (other : Slot) :
    (tables.setRow new slot).row other = tables.row other ∧ other.array ≠ slot.array ∨
      (tables.setRow new slot).row other = some new ∧ other.array = slot.array := by
  cases slot with
  | low kind positionState node =>
      cases other with
      | low kind' positionState' node' =>
          cases kind <;> cases kind' <;> first
            | exact Or.inl ⟨rfl, nofun⟩
            | exact getElem?_set_named (fun i => Slot.low _ i 0) (by simp) hslot new _
      | choice kind' _ | middle kind' _ _ | high kind' _ =>
          cases kind <;> cases kind' <;> exact Or.inl ⟨rfl, nofun⟩
      | _ => cases kind <;> exact Or.inl ⟨rfl, nofun⟩
  | middle kind positionState node =>
      cases other with
      | middle kind' positionState' node' =>
          cases kind <;> cases kind' <;> first
            | exact Or.inl ⟨rfl, nofun⟩
            | exact getElem?_set_named (fun i => Slot.middle _ i 0) (by simp) hslot new _
      | choice kind' _ | low kind' _ _ | high kind' _ =>
          cases kind <;> cases kind' <;> exact Or.inl ⟨rfl, nofun⟩
      | _ => cases kind <;> exact Or.inl ⟨rfl, nofun⟩
  | choice kind index =>
      cases other with
      | choice kind' _ | low kind' _ _ | middle kind' _ _ | high kind' _ =>
          cases kind <;> cases kind' <;> first
            | exact Or.inl ⟨rfl, nofun⟩
            | exact Or.inr ⟨rfl, rfl⟩
      | _ => cases kind <;> exact Or.inl ⟨rfl, nofun⟩
  | high kind node =>
      cases other with
      | choice kind' _ | low kind' _ _ | middle kind' _ _ | high kind' _ =>
          cases kind <;> cases kind' <;> first
            | exact Or.inl ⟨rfl, nofun⟩
            | exact Or.inr ⟨rfl, rfl⟩
      | _ => cases kind <;> exact Or.inl ⟨rfl, nofun⟩
  | positionSlot lengthState node =>
      cases other with
      | positionSlot lengthState' node' =>
          exact getElem?_set_named (fun i => Slot.positionSlot i 0) (by simp) hslot new _
      | _ => exact Or.inl ⟨rfl, nofun⟩
  | positionModel model node =>
      cases other with
      | positionModel model' node' =>
          exact getElem?_set_named (fun i => Slot.positionModel i 0) (by simp) hslot new _
      | _ => exact Or.inl ⟨rfl, nofun⟩
  | _ =>
      cases other <;> first
        | exact Or.inl ⟨rfl, nofun⟩
        | exact Or.inr ⟨rfl, rfl⟩

/-- A row that keeps its length and gets one new probability. -/
theorem Sound.setRow {probability : Nat} (h : tables.Sound lc lp)
    (hrow : tables.row slot = some row) (hp : Moderate probability) :
    (tables.setRow (row.set slot.index probability) slot).Sound lc lp := by
  have hsome : (tables.row slot).isSome := hrow ▸ rfl
  have hlength : some row.length = slot.rowLength lc lp := by
    have hshape := h.shape slot
    rwa [hrow] at hshape
  refine ⟨fun other => ?_, fun other found hfound p hmem => ?_⟩
  · obtain ⟨hsame, -⟩ | ⟨hnew, hother⟩ :=
      row_setRow hsome (row.set slot.index probability) other
    · rw [hsame]
      exact h.shape other
    · rw [hnew, ← other.rowLength_array, hother, slot.rowLength_array, ← hlength]
      exact congrArg some List.length_set
  · obtain ⟨hsame, -⟩ | ⟨hnew, -⟩ :=
      row_setRow hsome (row.set slot.index probability) other
    · exact h.moderate other found (hsame ▸ hfound) p hmem
    · obtain rfl : row.set slot.index probability = found :=
        Option.some.inj (hnew.symm.trans hfound)
      rcases List.mem_or_eq_of_mem_set hmem with hold | rfl
      · exact h.moderate slot row hrow p hold
      · exact hp

/-- A probability that has its place is there. -/
theorem Sound.exists_row (h : tables.Sound lc lp) (hslot : slot.InRange lc lp) :
    ∃ row, tables.row slot = some row ∧ slot.index < row.length := by
  obtain ⟨n, hn, hlt⟩ := hslot
  have hshape := h.shape slot
  rw [hn, Option.map_eq_some_iff] at hshape
  obtain ⟨row, hrow, rfl⟩ := hshape
  exact ⟨row, hrow, hlt⟩

end Tables

/-! ### A source that watches -/

instance (probability : Nat) : Decidable (Moderate probability) :=
  inferInstanceAs (Decidable (_ ∧ _))

def LengthTables.rows (tables : LengthTables) : List (List Nat) :=
  tables.choice :: tables.high :: (tables.low ++ tables.middle)

/-- Every array of the decoder. -/
def Tables.rows (tables : Tables) : List (List Nat) :=
  [tables.isMatch, tables.isRepZeroLong, tables.isRep, tables.isRepZero, tables.isRepOne,
    tables.isRepTwo, tables.literal, tables.alignment] ++
  tables.length.rows ++ tables.repetitionLength.rows ++ tables.positionSlots ++
  tables.positionModels

namespace Coder

/-- No probability is out of bounds, and the range is wide. -/
def Safe (coder : Coder) : Prop :=
  (∀ row ∈ coder.tables.rows, ∀ p ∈ row, Moderate p) ∧ topValue ≤ coder.decoder.range

/-- There is such a probability. -/
def Has (coder : Coder) (slot : Slot) : Prop :=
  ((coder.tables.row slot).bind fun row => row[slot.index]?).isSome

/-- The state `next` is safe again, at most one byte later. -/
def After (coder next : Coder) : Prop :=
  next.Safe ∧ next.decoder.cursor ≤ coder.decoder.cursor + 1

instance (coder : Coder) : Decidable coder.Safe := inferInstanceAs (Decidable (_ ∧ _))

instance (coder : Coder) (slot : Slot) : Decidable (coder.Has slot) :=
  inferInstanceAs (Decidable (_ = _))

instance (coder next : Coder) : Decidable (coder.After next) := inferInstanceAs (Decidable (_ ∧ _))

end Coder

/-- The range decoder with its tables, and an alarm. -/
def guardedSource (alarm : Error) : Source Coder where
  coded slot row index :=
    watch (fun coder => coder.Safe ∧ coder.Has slot) Coder.After alarm
      (rangeSource.coded slot row index)
  direct := watch Coder.Safe Coder.After alarm rangeSource.direct

/-- What every bit keeps. -/
structure Coder.Sound (lc lp : Nat) (coder : Coder) : Prop where
  decoder : coder.decoder.Sound
  tables : coder.tables.Sound lc lp

section guards

variable {lc lp maximum : Nat} {alarm : Error} {coder : Coder} {slot : Slot}

theorem LengthTables.exists_row {tables : Tables} {kind : LengthKind} {row : List Nat}
    (h : row ∈ (tables.lengthOf kind).rows) : ∃ slot, tables.row slot = some row := by
  rcases List.mem_cons.mp h with rfl | h
  · exact ⟨.choice kind 0, rfl⟩
  rcases List.mem_cons.mp h with rfl | h
  · exact ⟨.high kind 0, rfl⟩
  rcases List.mem_append.mp h with h | h
  · obtain ⟨i, hi⟩ := List.mem_iff_getElem?.mp h
    exact ⟨.low kind i 0, hi⟩
  · obtain ⟨i, hi⟩ := List.mem_iff_getElem?.mp h
    exact ⟨.middle kind i 0, hi⟩

/-- Every array is that of a probability. -/
theorem Tables.exists_slot {tables : Tables} {row : List Nat} (h : row ∈ tables.rows) :
    ∃ slot, tables.row slot = some row := by
  rcases List.mem_append.mp h with h | h
  · rcases List.mem_append.mp h with h | h
    · rcases List.mem_append.mp h with h | h
      · rcases List.mem_append.mp h with h | h
        · simp only [List.mem_cons, List.not_mem_nil, or_false] at h
          rcases h with rfl | rfl | rfl | rfl | rfl | rfl | rfl | rfl
          · exact ⟨.isMatch 0, rfl⟩
          · exact ⟨.isRepZeroLong 0, rfl⟩
          · exact ⟨.isRep 0, rfl⟩
          · exact ⟨.isRepZero 0, rfl⟩
          · exact ⟨.isRepOne 0, rfl⟩
          · exact ⟨.isRepTwo 0, rfl⟩
          · exact ⟨.literal 0, rfl⟩
          · exact ⟨.alignment 0, rfl⟩
        · exact @LengthTables.exists_row tables .match row h
      · exact @LengthTables.exists_row tables .repetition row h
    · obtain ⟨i, hi⟩ := List.mem_iff_getElem?.mp h
      exact ⟨.positionSlot i 0, hi⟩
  · obtain ⟨i, hi⟩ := List.mem_iff_getElem?.mp h
    exact ⟨.positionModel i 0, hi⟩

theorem Coder.Sound.safe (h : coder.Sound lc lp) : coder.Safe := by
  refine ⟨fun row hrow => ?_, h.decoder.wide⟩
  obtain ⟨slot, hslot⟩ := Tables.exists_slot hrow
  exact h.tables.moderate slot row hslot

theorem Coder.Sound.has (h : coder.Sound lc lp) (hslot : slot.InRange lc lp) : coder.Has slot := by
  obtain ⟨row, hrow, hlt⟩ := h.tables.exists_row hslot
  show ((coder.tables.row slot).bind fun row => row[slot.index]?).isSome
  rw [hrow, Option.bind_some, List.getElem?_eq_getElem hlt]
  rfl

/-- A bit that is asked for where there is a probability for it raises no alarm. -/
theorem coupled_coded (hslot : slot.InRange lc lp) (row index : String) :
    Coupled (Coder.Sound lc lp) (Failure maximum) ((guardedSource alarm).coded slot row index)
      (rangeSource.coded slot row index) (· ≤ 1) := by
  refine Coupled.of_watch (fun coder h => ⟨h.safe, h.has hslot⟩) fun coder h => ?_
  obtain ⟨probabilities, hrow, hlt⟩ := h.tables.exists_row hslot
  have hget := List.getElem?_eq_getElem hlt
  have hmoderate := h.tables.moderate slot probabilities hrow _ (List.getElem_mem hlt)
  show (orFormat (coder.tables.row slot) row >>= _).Ensures _ _
  rw [hrow]
  refine Metered.ensures_bind_ok rfl ?_
  show (orFormat probabilities[slot.index]? index >>= _).Ensures _ _
  rw [hget]
  refine Metered.ensures_bind_ok rfl ?_
  refine (h.decoder.ensures_decodeBit hmoderate).bind ?_
  rintro ⟨⟨bit, probability⟩, decoder⟩ ⟨⟨hbit, hp⟩, hsound, hcursor⟩
  have hnext : (⟨decoder, coder.tables.setRow (probabilities.set slot.index probability) slot⟩ :
    Coder).Sound lc lp := ⟨hsound, h.tables.setRow hrow hp⟩
  exact Metered.ensures_of_ok rfl ⟨hbit, hnext, hnext.safe, hcursor⟩

theorem coupled_direct :
    Coupled (Coder.Sound lc lp) (Failure maximum) (guardedSource alarm).direct rangeSource.direct
      (· ≤ 1) := by
  refine Coupled.of_watch (fun coder h => h.safe) fun coder h => ?_
  refine h.decoder.ensures_decodeDirectBit.bind ?_
  rintro ⟨bit, decoder⟩ ⟨hbit, hsound, hcursor⟩
  have hnext : (⟨decoder, coder.tables⟩ : Coder).Sound lc lp := ⟨hsound, h.tables⟩
  exact Metered.ensures_of_ok rfl ⟨hbit, hnext, hnext.safe, hcursor⟩

/-! ### Trees -/

/-- A value that is there is out of the way. -/
theorem coupled_some {σ α β : Type} {I : σ → Prop} {F : Error → Prop} {P : β → Prop}
    {value : Option α} {a : α} {detail : String} {f g : α → StateT σ Work β} (h : value = some a)
    (hf : Coupled I F (f a) (g a) P) :
    Coupled I F (liftM (orFormat value detail) >>= f) (liftM (orFormat value detail) >>= g) P :=
  Coupled.lift_bind (orFormat_eq_ok.mpr h) hf

theorem nextNode_of_le {node bit : Nat} (hnode : node < 2 ^ 16) (hbit : bit ≤ 1) :
    nextNode node bit = some (node * 2 + bit) := by
  rw [nextNode, checkedMul_of_lt (by omega), Option.bind_some, checkedAdd_of_lt (by omega)]

/-- A walk from the root ends below the last row of its tree. -/
theorem coupled_walkTree {slots : Nat → Slot} {total : Nat} (row : String) (htotal : total ≤ 8)
    (hslots : ∀ node, node < 2 ^ total → (slots node).InRange lc lp) {done bits node : Nat}
    (hbits : done + bits = total) (hge : 2 ^ done ≤ node) (hlt : node < 2 ^ (done + 1)) :
    Coupled (Coder.Sound lc lp) (Failure maximum)
      (walkTree (guardedSource alarm) slots row bits node) (walkTree rangeSource slots row bits node)
      (fun last => 2 ^ total ≤ last ∧ last < 2 ^ (total + 1)) := by
  induction bits generalizing done node with
  | zero =>
      obtain rfl : done = total := hbits
      exact Coupled.pure ⟨hge, hlt⟩
  | succ bits ih =>
      have hle : 2 ^ (done + 1) ≤ 2 ^ total := Nat.pow_le_pow_right Nat.two_pos (by omega)
      have hsmall : 2 ^ total ≤ 2 ^ 8 := Nat.pow_le_pow_right Nat.two_pos htotal
      refine (coupled_coded (hslots node (Nat.lt_of_lt_of_le hlt hle)) row _).bind ?_
      intro bit hbit
      refine coupled_some (nextNode_of_le (by omega) hbit) ?_
      refine @ih (done + 1) (node * 2 + bit) (by omega) ?_ ?_
      · rw [Nat.pow_succ]
        omega
      · rw [Nat.pow_succ]
        omega

theorem coupled_decodeTree {slots : Nat → Slot} {bits : Nat} (row : String) (hbits : bits ≤ 8)
    (hslots : ∀ node, node < 2 ^ bits → (slots node).InRange lc lp) :
    Coupled (Coder.Sound lc lp) (Failure maximum) (decodeTree (guardedSource alarm) slots bits row)
      (decodeTree rangeSource slots bits row) (· < 2 ^ bits) := by
  have hsmall : 2 ^ bits ≤ 2 ^ 8 := Nat.pow_le_pow_right Nat.two_pos hbits
  refine (coupled_walkTree row hbits hslots (Nat.zero_add bits) (Nat.le_refl 1)
    (Nat.lt_succ_self 1)).bind ?_
  rintro node ⟨hge, hlt⟩
  have hbase : checkedShl 64 1 bits = some (2 ^ bits) := by
    rw [checkedShl_of_lt (by omega), Nat.shiftLeft_eq, Nat.one_mul, Nat.mod_eq_of_lt (by omega)]
  refine coupled_some hbase ?_
  refine coupled_some (checkedSub_of_le hge) ?_
  rw [Nat.pow_succ] at hlt
  refine Coupled.lift (Metered.ensures_of_ok (a := node - 2 ^ bits) ?_ ?_)
  · exact orFormat_eq_ok.mpr (tryFrom_of_lt (by omega))
  · omega

theorem coupled_walkReverse {slots : Nat → Slot} {total : Nat} (row : String) (htotal : total ≤ 8)
    (hslots : ∀ node, node < 2 ^ total → (slots node).InRange lc lp) {shift bits node value : Nat}
    (hbits : shift + bits = total) (hge : 2 ^ shift ≤ node) (hlt : node < 2 ^ (shift + 1))
    (hvalue : value < 2 ^ shift) :
    Coupled (Coder.Sound lc lp) (Failure maximum)
      (walkReverse (guardedSource alarm) slots row bits shift node value)
      (walkReverse rangeSource slots row bits shift node value) (· < 2 ^ total) := by
  induction bits generalizing shift node value with
  | zero =>
      obtain rfl : shift = total := hbits
      exact Coupled.pure hvalue
  | succ bits ih =>
      have hle : 2 ^ (shift + 1) ≤ 2 ^ total := Nat.pow_le_pow_right Nat.two_pos (by omega)
      have hsmall : 2 ^ total ≤ 2 ^ 8 := Nat.pow_le_pow_right Nat.two_pos htotal
      have hstep : 2 ^ (shift + 1) = 2 ^ shift * 2 := Nat.pow_succ 2 shift
      refine (coupled_coded (hslots node (Nat.lt_of_lt_of_le hlt hle)) row _).bind ?_
      intro bit hbit
      have hshifted : bit * 2 ^ shift < 2 ^ (shift + 1) := by
        have hmul : bit * 2 ^ shift ≤ 1 * 2 ^ shift := Nat.mul_le_mul_right _ hbit
        omega
      have hshl : checkedShl 32 bit shift = some (bit * 2 ^ shift) := by
        rw [checkedShl_of_lt (by omega), Nat.shiftLeft_eq, Nat.mod_eq_of_lt (by omega)]
      refine coupled_some hshl ?_
      refine coupled_some (nextNode_of_le (by omega) hbit) ?_
      refine @ih (shift + 1) (node * 2 + bit) (value ||| bit * 2 ^ shift) (by omega) ?_ ?_ ?_
      · omega
      · rw [Nat.pow_succ]
        omega
      · exact Nat.or_lt_two_pow (by omega) hshifted

theorem coupled_decodeReverse {slots : Nat → Slot} {bits : Nat} (row : String) (hbits : bits ≤ 8)
    (hslots : ∀ node, node < 2 ^ bits → (slots node).InRange lc lp) :
    Coupled (Coder.Sound lc lp) (Failure maximum)
      (decodeReverse (guardedSource alarm) slots bits row) (decodeReverse rangeSource slots bits row)
      (· < 2 ^ bits) :=
  coupled_walkReverse row hbits hslots (Nat.zero_add bits) (Nat.le_refl 1) (Nat.lt_succ_self 1)
    Nat.one_pos

/-! ### Lengths and distances -/

theorem coupled_decodeLength {kind : LengthKind} {positionState : Nat}
    (hstate : positionState < positionStates) :
    Coupled (Coder.Sound lc lp) (Failure maximum)
      (decodeLength (guardedSource alarm) kind positionState)
      (decodeLength rangeSource kind positionState) (· ≤ 271) := by
  have hchoice : ∀ index, index < 2 → (Slot.choice kind index).InRange lc lp :=
    fun index h => ⟨2, rfl, h⟩
  have hlow : ∀ node, node < 2 ^ 3 → (Slot.low kind positionState node).InRange lc lp :=
    fun node h => ⟨8, if_pos hstate, h⟩
  have hmiddle : ∀ node, node < 2 ^ 3 → (Slot.middle kind positionState node).InRange lc lp :=
    fun node h => ⟨8, if_pos hstate, h⟩
  have hhigh : ∀ node, node < 2 ^ 8 → (Slot.high kind node).InRange lc lp :=
    fun node h => ⟨256, rfl, h⟩
  refine (coupled_coded (hchoice 0 (by decide)) _ _).bind fun choice _ => ?_
  refine Coupled.ite (fun _ => ?_) fun _ => ?_
  · refine (coupled_decodeTree _ (by decide) hlow).mono fun value hvalue => ?_
    omega
  · refine (coupled_coded (hchoice 1 (by decide)) _ _).bind fun choice _ => ?_
    refine Coupled.ite (fun _ => ?_) fun _ => ?_
    · refine (coupled_decodeTree _ (by decide) hmiddle).bind fun value hvalue => ?_
      refine Coupled.lift (Metered.ensures_of_ok (a := value + 8) ?_ (by omega))
      exact orFormat_eq_ok.mpr (checkedAdd_of_lt (by omega))
    · refine (coupled_decodeTree _ (by decide) hhigh).bind fun value hvalue => ?_
      refine Coupled.lift (Metered.ensures_of_ok (a := value + 16) ?_ (by omega))
      exact orFormat_eq_ok.mpr (checkedAdd_of_lt (by omega))

/-- So many direct bits are a number of so many bits. -/
theorem coupled_decodeDirect {bits done direct : Nat} (hbits : done + bits ≤ 31)
    (hdirect : direct < 2 ^ done) :
    Coupled (Coder.Sound lc lp) (Failure maximum) (decodeDirect (guardedSource alarm) bits direct)
      (decodeDirect rangeSource bits direct) (· < 2 ^ (done + bits)) := by
  induction bits generalizing done direct with
  | zero => exact Coupled.pure hdirect
  | succ bits ih =>
      have hle : 2 ^ done ≤ 2 ^ 30 := Nat.pow_le_pow_right Nat.two_pos (by omega)
      refine coupled_direct.bind fun bit hbit => ?_
      have hnext : ((checkedShl 32 direct 1).bind fun value => checkedAdd 32 value bit)
          = some (direct * 2 + bit) := by
        rw [checkedShl_of_lt (by decide), Option.bind_some, Nat.shiftLeft_eq,
          Nat.mod_eq_of_lt (by omega)]
        exact checkedAdd_of_lt (by omega)
      refine coupled_some hnext ?_
      refine (@ih (done + 1) (direct * 2 + bit) (by omega) ?_).mono fun value hvalue => ?_
      · rw [Nat.pow_succ]
        omega
      · rwa [Nat.add_assoc, Nat.add_comm 1] at hvalue

/-- The upper bits of a distance, and the ones below. -/
theorem distance_lt {upper bits lower : Nat} (hupper : upper ≤ 3) (hlower : lower < 2 ^ bits)
    (hbits : bits ≤ 30) : upper * 2 ^ bits + lower < 2 ^ 32 := by
  have hmul : upper * 2 ^ bits ≤ 3 * 2 ^ bits := Nat.mul_le_mul_right _ hupper
  have hpow : 2 ^ bits ≤ 2 ^ 30 := Nat.pow_le_pow_right Nat.two_pos hbits
  omega

theorem coupled_decodeDistance (length : Nat) :
    Coupled (Coder.Sound lc lp) (Failure maximum) (decodeDistance (guardedSource alarm) length)
      (decodeDistance rangeSource length) (· < 2 ^ 32) := by
  have hstate : min length (lengthStates - 1) < lengthStates :=
    Nat.lt_of_le_of_lt (Nat.min_le_right _ _) (by decide)
  have hslots : ∀ node, node < 2 ^ 6 →
      (Slot.positionSlot (min length (lengthStates - 1)) node).InRange lc lp :=
    fun node h => ⟨64, if_pos hstate, h⟩
  refine (coupled_decodeTree _ (by decide) hslots).bind fun positionSlot hslot => ?_
  refine Coupled.ite (fun _ => Coupled.pure (by omega)) fun hlarge => ?_
  have hstart : startPositionModel ≤ positionSlot := Nat.not_lt.mp hlarge
  have hfour : 4 ≤ positionSlot := hstart
  have hhalf : positionSlot >>> 1 = positionSlot / 2 := Nat.shiftRight_eq_div_pow _ 1
  have hupper : 2 ||| (positionSlot &&& 1) ≤ 3 :=
    Nat.lt_succ_iff.mp (Nat.or_lt_two_pow (n := 2) (by decide)
      (Nat.lt_of_le_of_lt Nat.and_le_right (by decide)))
  generalize hbits : positionSlot / 2 - 1 = bits
  have hbase : checkedShl 32 (2 ||| (positionSlot &&& 1)) bits
      = some ((2 ||| (positionSlot &&& 1)) * 2 ^ bits) := by
    have hlt := @distance_lt (2 ||| (positionSlot &&& 1)) bits 0 hupper (Nat.two_pow_pos _)
      (by omega)
    rw [Nat.add_zero] at hlt
    rw [checkedShl_of_lt (by omega), Nat.shiftLeft_eq, Nat.mod_eq_of_lt hlt]
  rw [hhalf]
  refine coupled_some (checkedSub_of_le (by omega)) ?_
  rw [hbits]
  refine coupled_some hbase ?_
  refine Coupled.ite (fun hmodel => ?_) fun hdirect => ?_
  · have hwidth : positionModelBits (positionSlot - startPositionModel) = bits := by
      rw [positionModelBits, Nat.sub_add_cancel hstart, hhalf, hbits]
    have hmodels : ∀ node, node < 2 ^ bits →
        (Slot.positionModel (positionSlot - startPositionModel) node).InRange lc lp := by
      intro node h
      refine ⟨1 <<< bits, ?_, by rwa [Nat.shiftLeft_eq, Nat.one_mul]⟩
      rw [← hwidth]
      exact if_pos (Nat.sub_lt_sub_right hstart hmodel)
    have hfew : bits ≤ 8 := by
      have hend : positionSlot < 14 := hmodel
      omega
    refine coupled_some (checkedSub_of_le hstart) ?_
    rw [hwidth]
    refine (coupled_decodeReverse _ hfew hmodels).bind fun suffix hsuffix => ?_
    have hlt := distance_lt hupper hsuffix (by omega)
    exact Coupled.lift (Metered.ensures_of_ok (orFormat_eq_ok.mpr (checkedAdd_of_lt hlt)) hlt)
  · have hend : 14 ≤ positionSlot := Nat.not_lt.mp hdirect
    have hpow : 2 ^ bits = 2 ^ (bits - 4) * 2 ^ 4 := by
      rw [← Nat.pow_add, Nat.sub_add_cancel (by omega)]
    refine coupled_some (checkedSub_of_le (show alignBits ≤ bits by
      rw [alignBits]
      omega)) ?_
    refine (@coupled_decodeDirect lc lp maximum alarm (bits - alignBits) 0 0 (by omega)
      Nat.one_pos).bind fun direct hbound => ?_
    rw [Nat.zero_add, alignBits] at hbound
    have hfits : direct * 2 ^ 4 + 2 ^ 4 ≤ 2 ^ bits := by omega
    have hsmall : 2 ^ bits ≤ 2 ^ 30 := Nat.pow_le_pow_right Nat.two_pos (by omega)
    have hshl : checkedShl 32 direct alignBits = some (direct * 2 ^ 4) := by
      rw [alignBits, checkedShl_of_lt (by decide), Nat.shiftLeft_eq, Nat.mod_eq_of_lt (by omega)]
    refine coupled_some hshl ?_
    have halign : ∀ node, node < 2 ^ 4 → (Slot.alignment node).InRange lc lp :=
      fun node h => ⟨16, rfl, h⟩
    refine (coupled_decodeReverse _ (by decide) halign).bind fun alignment halignment => ?_
    have hlt := @distance_lt (2 ||| (positionSlot &&& 1)) bits (direct * 2 ^ 4 + alignment) hupper
      (by omega) (by omega)
    rw [← Nat.add_assoc] at hlt
    have hsum : ((checkedAdd 32 ((2 ||| (positionSlot &&& 1)) * 2 ^ bits) (direct * 2 ^ 4)).bind
        fun value => checkedAdd 32 value alignment)
        = some ((2 ||| (positionSlot &&& 1)) * 2 ^ bits + direct * 2 ^ 4 + alignment) := by
      rw [checkedAdd_of_lt (by omega), Option.bind_some, checkedAdd_of_lt hlt]
    exact Coupled.lift (Metered.ensures_of_ok (orFormat_eq_ok.mpr hsum) hlt)

/-! ### Literals -/

theorem nextSymbol_of_le {symbol bit : Nat} (hsymbol : symbol < 2 ^ 16) (hbit : bit ≤ 1) :
    nextSymbol symbol bit = some (symbol * 2 + bit) := by
  rw [nextSymbol, checkedShl_of_lt (by decide), Option.bind_some, Nat.shiftLeft_eq,
    Nat.mod_eq_of_lt (by omega), checkedAdd_of_lt (by omega)]

/-- A context of the literals has its probabilities, 0x300 of them. -/
theorem literal_inRange {context index : Nat} (hcontext : context < 2 ^ (lc + lp))
    (hindex : index < 0x300) : (Slot.literal (context * 0x300 + index)).InRange lc lp := by
  refine ⟨_, rfl, ?_⟩
  show context * 0x300 + index < (1 <<< (lc + lp)) * 0x300
  rw [Nat.shiftLeft_eq, Nat.one_mul]
  omega

/-- The number of a literal's context. -/
def literalContext (lc lp position previous : Nat) : Nat := position % 2 ^ lp * 2 ^ lc + previous

theorem literalContext_lt {previous : Nat} (h : previous < 2 ^ lc) (position : Nat) :
    literalContext lc lp position previous < 2 ^ (lc + lp) := by
  have hmod := Nat.mod_lt position (Nat.two_pow_pos lp)
  rw [literalContext, Nat.pow_add, Nat.mul_comm (2 ^ lc)]
  calc position % 2 ^ lp * 2 ^ lc + previous < (position % 2 ^ lp + 1) * 2 ^ lc := by
        rw [Nat.succ_mul]
        omega
    _ ≤ 2 ^ lp * 2 ^ lc := Nat.mul_le_mul_right _ hmod

/-- The high bits of the byte before. -/
theorem previousPart_lt (h : lc ≤ 8) (byte : UInt8) : byte.toNat >>> (8 - lc) < 2 ^ lc := by
  rw [Nat.shiftRight_eq_div_pow, Nat.div_lt_iff_lt_mul (Nat.two_pow_pos _), ← Nat.pow_add,
    Nat.add_sub_cancel' h]
  exact UInt8.toNat_lt _

theorem result_literalBase (h : lc + lp ≤ 4) (previousByte : UInt8) (position : Nat) :
    (literalBase lc lp previousByte position).result
      = .ok (literalContext lc lp position (previousByte.toNat >>> (8 - lc)) * 0x300) := by
  have hlp : 2 ^ lp ≤ 2 ^ 4 := Nat.pow_le_pow_right Nat.two_pos (by omega)
  have hsum : 2 ^ (lc + lp) ≤ 2 ^ 4 := Nat.pow_le_pow_right Nat.two_pos h
  have hmask : ((checkedShl 64 1 lp).bind fun value => checkedSub value 1)
      = some (2 ^ lp - 1) := by
    rw [checkedShl_of_lt (by omega), Option.bind_some, Nat.shiftLeft_eq, Nat.one_mul,
      Nat.mod_eq_of_lt (by omega), checkedSub_of_le (Nat.two_pow_pos lp)]
  have hprevious := previousPart_lt (show lc ≤ 8 by omega) previousByte
  have hcontext := @literalContext_lt lc lp _ hprevious position
  have hproduct : literalContext lc lp position (previousByte.toNat >>> (8 - lc)) * 0x300
      < 2 ^ 64 := by omega
  have hposition : position % 2 ^ lp * 2 ^ lc < 2 ^ 64 := by
    have hle : position % 2 ^ lp * 2 ^ lc
        ≤ literalContext lc lp position (previousByte.toNat >>> (8 - lc)) := Nat.le_add_right _ _
    omega
  have hpart : checkedShl 64 (position &&& (2 ^ lp - 1)) lc
      = some (position % 2 ^ lp * 2 ^ lc) := by
    rw [checkedShl_of_lt (by omega), Nat.and_two_pow_sub_one_eq_mod, Nat.shiftLeft_eq,
      Nat.mod_eq_of_lt hposition]
  have hor : position % 2 ^ lp * 2 ^ lc ||| previousByte.toNat >>> (8 - lc)
      = literalContext lc lp position (previousByte.toNat >>> (8 - lc)) := by
    rw [← Nat.shiftLeft_eq, ← Nat.shiftLeft_add_eq_or_of_lt hprevious, Nat.shiftLeft_eq]
    rfl
  unfold literalBase
  dsimp only
  rw [hmask, Metered.result_bind_ok (result_orFormat_some _ _), hpart,
    Metered.result_bind_ok (result_orFormat_some _ _), hor]
  exact orFormat_eq_ok.mpr (checkedMul_of_lt hproduct)

/-- Where the probabilities of a matched literal are in its context. -/
theorem matchedIndex_eq {symbol : Nat} (hsymbol : symbol < 2 ^ 8) (matched : Nat) :
    (((checkedAdd 32 1 (matched >>> 7 &&& 1)).bind fun value => checkedShl 32 value 8).map
      fun value => value ||| symbol)
      = some ((1 + (matched >>> 7 &&& 1)) * 2 ^ 8 + symbol) := by
  have hmatch : matched >>> 7 &&& 1 ≤ 1 := Nat.and_le_right
  rw [checkedAdd_of_lt (by omega), Option.bind_some, checkedShl_of_lt (by decide),
    Nat.mod_eq_of_lt (by rw [Nat.shiftLeft_eq]; omega), Option.map_some,
    ← Nat.shiftLeft_add_eq_or_of_lt hsymbol, Nat.shiftLeft_eq]

/-- What a symbol is after some bits: a one, and then the bits. -/
def IsSymbol (done symbol : Nat) : Prop := 2 ^ done ≤ symbol ∧ symbol < 2 ^ (done + 1)

theorem IsSymbol.next {done symbol bit : Nat} (h : IsSymbol done symbol) (hbit : bit ≤ 1) :
    IsSymbol (done + 1) (symbol * 2 + bit) := by
  obtain ⟨hge, hlt⟩ := h
  rw [Nat.pow_succ] at hlt
  refine ⟨?_, ?_⟩
  · rw [Nat.pow_succ]
    omega
  · rw [Nat.pow_succ, Nat.pow_succ]
    omega

theorem coupled_decodeMatched {context fuel done matched symbol : Nat}
    (hcontext : context < 2 ^ (lc + lp)) (hsmall : lc + lp ≤ 4) (hfuel : done + fuel = 8)
    (hdone : done < 8) (hsymbol : IsSymbol done symbol) :
    Coupled (Coder.Sound lc lp) (Failure maximum)
      (decodeMatched (guardedSource alarm) (context * 0x300) fuel matched symbol)
      (decodeMatched rangeSource (context * 0x300) fuel matched symbol)
      (fun symbol => ∃ done, done ≤ 8 ∧ IsSymbol done symbol) := by
  induction fuel generalizing done matched symbol with
  | zero => omega
  | succ fuel ih =>
      have hpow : 2 ^ (done + 1) ≤ 2 ^ 8 := Nat.pow_le_pow_right Nat.two_pos (by omega)
      have hbyte : symbol < 2 ^ 8 := Nat.lt_of_lt_of_le hsymbol.2 hpow
      have hcontexts : 2 ^ (lc + lp) ≤ 2 ^ 4 := Nat.pow_le_pow_right Nat.two_pos hsmall
      have hmatch : matched >>> 7 &&& 1 ≤ 1 := Nat.and_le_right
      refine coupled_some (matchedIndex_eq hbyte matched) ?_
      refine coupled_some (checkedAdd_of_lt (by omega)) ?_
      refine (coupled_coded (literal_inRange hcontext (by omega)) _ _).bind fun bit hbit => ?_
      refine coupled_some (nextSymbol_of_le (by omega) hbit) ?_
      have hnext := hsymbol.next hbit
      refine Coupled.ite (fun _ => Coupled.pure ⟨done + 1, hdone, hnext⟩) fun hgo => ?_
      -- A symbol of eight bits has left the loop.
      have hlast : done + 1 < 8 := by
        have hlow : symbol * 2 + bit < 0x100 := by omega
        by_contra hend
        have hpow' : 2 ^ 8 ≤ 2 ^ (done + 1) := Nat.pow_le_pow_right Nat.two_pos (by omega)
        have hge := hnext.1
        omega
      exact ih (by omega) hlast hnext

theorem coupled_decodePlain {context fuel done symbol : Nat}
    (hcontext : context < 2 ^ (lc + lp)) (hsmall : lc + lp ≤ 4) (hfuel : 9 ≤ done + fuel)
    (hdone : done ≤ 8) (hsymbol : IsSymbol done symbol) :
    Coupled (Coder.Sound lc lp) (Failure maximum)
      (decodePlain (guardedSource alarm) (context * 0x300) fuel symbol)
      (decodePlain rangeSource (context * 0x300) fuel symbol) (IsSymbol 8) := by
  induction fuel generalizing done symbol with
  | zero => omega
  | succ fuel ih =>
      have hcontexts : 2 ^ (lc + lp) ≤ 2 ^ 4 := Nat.pow_le_pow_right Nat.two_pos hsmall
      refine Coupled.ite (fun hbyte => ?_) fun hend => ?_
      · refine coupled_some (checkedAdd_of_lt (by omega)) ?_
        refine (coupled_coded (literal_inRange hcontext (by omega)) _ _).bind fun bit hbit => ?_
        refine coupled_some (nextSymbol_of_le (by omega) hbit) ?_
        have hless : done < 8 := by
          by_contra hnot
          have hpow : 2 ^ 8 ≤ 2 ^ done := Nat.pow_le_pow_right Nat.two_pos (by omega)
          have hge := hsymbol.1
          omega
        exact ih (by omega) hless (hsymbol.next hbit)
      · refine Coupled.pure ⟨Nat.not_lt.mp hend, Nat.lt_of_lt_of_le hsymbol.2 ?_⟩
        exact Nat.pow_le_pow_right Nat.two_pos (by omega)

theorem coupled_decodeLiteral (h : lc + lp ≤ 4) (state : Nat) (matchByte previousByte : UInt8)
    (position : Nat) :
    Coupled (Coder.Sound lc lp) (Failure maximum)
      (decodeLiteral (guardedSource alarm) lc lp state matchByte previousByte position)
      (decodeLiteral rangeSource lc lp state matchByte previousByte position) fun _ => True := by
  have hcontext := @literalContext_lt lc lp _
    (previousPart_lt (show lc ≤ 8 by omega) previousByte) position
  refine Coupled.lift_bind (result_literalBase h previousByte position) ?_
  generalize literalContext lc lp position (previousByte.toNat >>> (8 - lc)) = context at hcontext ⊢
  have hone : IsSymbol 0 1 := ⟨Nat.le_refl 1, Nat.lt_succ_self 1⟩
  have hmatched : Coupled (Coder.Sound lc lp) (Failure maximum)
      (if state ≥ 7 then decodeMatched (guardedSource alarm) (context * 0x300) 8 matchByte.toNat 1
        else pure 1)
      (if state ≥ 7 then decodeMatched rangeSource (context * 0x300) 8 matchByte.toNat 1
        else pure 1)
      (fun symbol => ∃ done, done ≤ 8 ∧ IsSymbol done symbol) :=
    Coupled.ite (fun _ => coupled_decodeMatched hcontext h rfl (by decide) hone)
      fun _ => Coupled.pure ⟨0, Nat.zero_le 8, hone⟩
  refine hmatched.bind fun symbol hsymbol => ?_
  obtain ⟨done, hdone, hsymbol⟩ := hsymbol
  refine (coupled_decodePlain hcontext h (Nat.le_add_left _ _) hdone hsymbol).bind ?_
  rintro last ⟨hge, hlt⟩
  refine coupled_some (checkedSub_of_le hge) ?_
  exact coupled_some (tryFrom_of_lt (by omega)) (Coupled.pure trivial)

end guards

end Lzma

end Un7z
