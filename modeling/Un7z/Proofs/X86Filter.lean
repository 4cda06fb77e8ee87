/-
Where the x86 filter gives out.

The filter only reads bytes it has not written yet, so where it goes is decided by its
input alone: from a position and the mask of the last three bytes it goes one byte on,
or five where it converts a branch.  That is `Scans`, and the two loops of the source
follow it.  The only conversions that can fail are those of the position to 32 bits: at
a branch that is converted and at the end of the scan.  So the filter delivers exactly
when its scan ends below `2 ^ 32`, which is a condition on the length of the input and
on the last branch it converts.  The other filters deliver on every input.
-/
import Mathlib.Logic.Relation
import Un7z.Proofs.FilterTotality

namespace Un7z

namespace Filters

open Relation (ReflTransGen)

/-! ### The scan of an input -/

/-- The byte at this index passes the test. -/
def byteHas (input : Bytes) (index : Nat) (test : UInt8 → Bool) : Bool := input[index]?.any test

/-- The mask rules out a conversion at this position. -/
def Refused (input : Bytes) (position : Nat) (mask : UInt32) : Bool :=
  mask ≠ 0 && (mask > 4 || mask = 3
    || byteHas input (position + (mask >>> 1).toNat + 1) testX86Msb)

/-- From one place of the scan to the next: a place is a position and a mask. -/
def x86Next (input : Bytes) (position : Nat) (mask : UInt32) : Nat × UInt32 :=
  if byteHas input position isX86Branch then
    if !Refused input position mask && byteHas input (position + 4) testX86Msb then
      (position + 5, 0)
    else
      (position + 1, (mask >>> 1) ||| 4)
  else
    (position + 1, mask >>> 1)

/-- The last four bytes are not looked at as opcodes. -/
def Scans (input : Bytes) (place next : Nat × UInt32) : Prop :=
  place.1 + 4 < input.length ∧ next = x86Next input place.1 place.2

/-- The branch at this position is one the filter converts. -/
def Converts (input : Bytes) (position : Nat) : Prop :=
  ∃ mask, ReflTransGen (Scans input) (0, 0) (position, mask) ∧ position + 4 < input.length ∧
    byteHas input position isX86Branch = true ∧ Refused input position mask = false ∧
    byteHas input (position + 4) testX86Msb = true

variable {input : Bytes}

theorem rightUnique_scans (input : Bytes) : Relator.RightUnique (Scans input) :=
  fun _ _ _ h h' => h.2.trans h'.2.symm

theorem lt_of_scans {place next : Nat × UInt32} (h : Scans input place next) :
    place.1 < next.1 := by
  obtain ⟨-, rfl⟩ := h
  unfold x86Next
  split
  · split <;> simp
  · simp

theorem le_of_reaches {place next : Nat × UInt32} (h : ReflTransGen (Scans input) place next) :
    place.1 ≤ next.1 := by
  induction h with
  | refl => exact Nat.le_refl _
  | tail _ hstep ih => exact Nat.le_trans ih (Nat.le_of_lt (lt_of_scans hstep))

/-- Every scan ends. -/
theorem exists_stop (input : Bytes) (left : Nat) :
    ∀ place : Nat × UInt32, input.length - place.1 ≤ left →
      ∃ stop, ReflTransGen (Scans input) place stop ∧ input.length ≤ stop.1 + 4 := by
  induction left with
  | zero => intro place h; exact ⟨place, .refl, by omega⟩
  | succ left ih =>
      intro place h
      by_cases hlt : place.1 + 4 < input.length
      · have hstep : Scans input place (x86Next input place.1 place.2) := ⟨hlt, rfl⟩
        have hforward := lt_of_scans hstep
        obtain ⟨stop, hreach, hstop⟩ := ih (x86Next input place.1 place.2) (by omega)
        exact ⟨stop, .head hstep hreach, hstop⟩
      · exact ⟨place, .refl, by omega⟩

/-- A place the scan passes is not behind its end. -/
theorem le_stop {start place stop : Nat × UInt32}
    (hplace : ReflTransGen (Scans input) start place)
    (hreach : ReflTransGen (Scans input) start stop) (hstop : input.length ≤ stop.1 + 4) :
    place.1 ≤ stop.1 := by
  rcases ReflTransGen.total_of_right_unique (rightUnique_scans input) hplace hreach with h | h
  · exact le_of_reaches h
  · cases h.cases_head with
    | inl heq => exact Nat.le_of_eq (congrArg Prod.fst heq.symm)
    | inr hnext =>
        obtain ⟨next, hstep, -⟩ := hnext
        have := hstep.1
        omega

/--
The scan ends below a bound exactly when the input is not too long for it and no branch
is converted across it.
-/
theorem stop_lt_iff {bound : Nat} {stop : Nat × UInt32} (hbound : 0 < bound)
    (hreach : ReflTransGen (Scans input) (0, 0) stop) (hstop : input.length ≤ stop.1 + 4) :
    stop.1 < bound ↔
      input.length < bound + 4 ∧ ∀ position, Converts input position → position + 5 < bound := by
  constructor
  · intro hlt
    refine ⟨by omega, ?_⟩
    rintro position ⟨mask, hplace, hinside, hbranch, hrefused, hmsb⟩
    have hstep : Scans input (position, mask) (position + 5, 0) := by
      refine ⟨hinside, ?_⟩
      rw [x86Next, if_pos hbranch, if_pos (by rw [hrefused, hmsb]; rfl)]
    have := le_stop (hplace.tail hstep) hreach hstop
    exact Nat.lt_of_le_of_lt this hlt
  · rintro ⟨hlength, hconverts⟩
    rcases hreach.cases_tail with heq | ⟨place, hplace, hinside, rfl⟩
    · rw [heq]
      exact hbound
    · unfold x86Next
      by_cases hbranch : byteHas input place.1 isX86Branch = true
      · rw [if_pos hbranch]
        by_cases hconvert : (!Refused input place.1 place.2
            && byteHas input (place.1 + 4) testX86Msb) = true
        · rw [if_pos hconvert]
          rw [Bool.and_eq_true, Bool.not_eq_true'] at hconvert
          exact hconverts place.1 ⟨place.2, hplace, hinside, hbranch, hconvert.1, hconvert.2⟩
        · rw [if_neg hconvert]
          show place.1 + 1 < bound
          omega
      · rw [if_neg hbranch]
        show place.1 + 1 < bound
        omega

/-! ### The mask -/

/-- One bit for each of the last three bytes. -/
def MaskOK (mask : UInt32) : Prop := mask.toNat < 8

theorem maskOK_zero : MaskOK 0 := by
  show (0 : UInt32).toNat < 8
  decide

theorem toNat_half (mask : UInt32) : (mask >>> 1).toNat = mask.toNat / 2 := by
  rw [UInt32.toNat_shiftRight, Nat.shiftRight_eq_div_pow]
  rfl

theorem maskOK_half {mask : UInt32} (h : MaskOK mask) : MaskOK (mask >>> 1) := by
  unfold MaskOK at h ⊢
  rw [toNat_half]
  omega

theorem maskOK_push {mask : UInt32} (h : MaskOK mask) : MaskOK ((mask >>> 1) ||| 4) := by
  unfold MaskOK at h ⊢
  rw [UInt32.toNat_or, toNat_half]
  exact Nat.or_lt_two_pow (n := 3) (by omega) (by decide)

/-- Passing bytes one by one is what `shiftMask` does at once. -/
theorem shiftMask_eq {mask passed : UInt32} {distance : Nat} (h : MaskOK mask)
    (hpassed : passed.toNat = mask.toNat / 2 ^ distance) :
    (shiftMask mask distance).result = .ok passed := by
  unfold MaskOK at h
  unfold shiftMask
  by_cases hfar : distance > 2
  · rw [if_pos hfar]
    have hzero : passed.toNat = 0 := by
      have hpow : 2 ^ 3 ≤ 2 ^ distance := Nat.pow_le_pow_right (by decide) hfar
      rw [hpassed]
      exact Nat.div_eq_of_lt (by omega)
    rw [UInt32.toNat_inj.mp (hzero.trans UInt32.toNat_zero.symm)]
    rfl
  · rw [if_neg hfar, tryFrom_of_lt (by omega)]
    have hshift : mask >>> UInt32.ofNat distance = passed := by
      refine UInt32.toNat_inj.mp ?_
      rw [hpassed, UInt32.toNat_shiftRight, Nat.shiftRight_eq_div_pow,
        UInt32.toNat_ofNat_of_lt' (show distance < UInt32.size by simp [UInt32.size]; omega),
        Nat.mod_eq_of_lt (by omega)]
    exact congrArg _ hshift

/-! ### The loops of the source -/

/-- What is still to be scanned is as it was in the input. -/
def Unwritten (input bytes : Bytes) (position : Nat) : Prop :=
  bytes.length = input.length ∧ ∀ index, position ≤ index → bytes[index]? = input[index]?

theorem Unwritten.mono {bytes : Bytes} {p q : Nat} (h : Unwritten input bytes p) (hpq : p ≤ q) :
    Unwritten input bytes q :=
  ⟨h.1, fun index hindex => h.2 index (Nat.le_trans hpq hindex)⟩

variable {bytes : Bytes} {scanEnd : Nat}

theorem delivers_inputByte {position index : Nat} (h : Unwritten input bytes position)
    (hindex : position ≤ index) (hlt : index < input.length) (detail : String) :
    Delivers (byteAt bytes index detail) fun byte => input[index]? = some byte := by
  refine (delivers_byteAt (by rw [h.1]; exact hlt) detail).mono fun byte hbyte => ?_
  rw [← h.2 index hindex]
  exact hbyte

/-- The inner loop passes bytes that are no branches, and stops at a branch or at the end. -/
theorem scanBranch_reaches (hlen : input.length < 2 ^ 64) (hend : scanEnd + 4 = input.length) :
    ∀ (fuel position : Nat) (mask : UInt32), Unwritten input bytes position →
      input.length - position < fuel →
      Delivers (scanBranch scanEnd bytes fuel position) fun reached =>
        position ≤ reached ∧ (reached < scanEnd → byteHas input reached isX86Branch = true) ∧
          ∃ passed : UInt32, passed.toNat = mask.toNat / 2 ^ (reached - position) ∧
            ReflTransGen (Scans input) (position, mask) (reached, passed) := by
  intro fuel
  induction fuel with
  | zero => intro position mask _ hfuel; exact absurd hfuel (by omega)
  | succ fuel ih =>
      intro position mask hunwritten hfuel
      have hstay : ∃ passed : UInt32, passed.toNat = mask.toNat / 2 ^ (position - position) ∧
          ReflTransGen (Scans input) (position, mask) (position, passed) :=
        ⟨mask, by rw [Nat.sub_self, Nat.pow_zero, Nat.div_one], .refl⟩
      refine delivers_ite (fun hlt => ?_) fun hge =>
        delivers_pure ⟨Nat.le_refl _, fun h => absurd h hge, hstay⟩
      refine (delivers_checkpoint 1).bind fun _ _ => ?_
      refine (delivers_inputByte hunwritten (Nat.le_refl _) (by omega) _).bind fun byte hbyte => ?_
      have hhas : byteHas input position isX86Branch = isX86Branch byte := by
        rw [byteHas, hbyte]
        rfl
      refine delivers_ite (fun hbranch => ?_) fun hbranch => ?_
      · exact delivers_pure ⟨Nat.le_refl _, fun _ => hhas.trans hbranch, hstay⟩
      · have hstep : Scans input (position, mask) (position + 1, mask >>> 1) := by
          refine ⟨by show position + 4 < _; omega, ?_⟩
          rw [x86Next, if_neg (by rw [hhas]; exact hbranch)]
        refine (delivers_addOffset (by omega) _).bind ?_
        rintro next rfl
        refine (ih (position + 1) (mask >>> 1) (hunwritten.mono (Nat.le_succ _)) (by omega)).mono ?_
        rintro reached ⟨hle, hbranch', passed, hpassed, hreach⟩
        refine ⟨by omega, hbranch', passed, ?_, .head hstep hreach⟩
        rw [hpassed, toNat_half, Nat.div_div_eq_div_mul, ← Nat.pow_succ']
        congr 2
        omega

/-- The mask is tested against the input. -/
theorem delivers_maskRefuses {position : Nat} {mask : UInt32} (hlen : input.length < 2 ^ 64)
    (hunwritten : Unwritten input bytes position) (hmask : MaskOK mask)
    (hinside : position + 4 < input.length) :
    Delivers (maskRefuses mask position bytes) (· = Refused input position mask) := by
  unfold MaskOK at hmask
  have hhalf : (mask >>> 1).toNat ≤ 3 := by
    rw [toNat_half]
    omega
  refine delivers_ite (fun hne => ?_) fun hzero => ?_
  · refine (delivers_addOffset (by omega) _).bind ?_
    rintro look rfl
    refine (delivers_addOffset (by omega) _).bind ?_
    rintro look rfl
    refine (delivers_inputByte hunwritten (by omega) (by omega) _).bind fun tested htested => ?_
    refine delivers_pure ?_
    have hhas : byteHas input (position + (mask >>> 1).toNat + 1) testX86Msb
        = testX86Msb tested := by
      rw [byteHas, htested]
      rfl
    rw [Refused, hhas, decide_eq_true hne, Bool.true_and, Bool.or_assoc]
  · refine delivers_pure ?_
    rw [Refused, decide_eq_false hzero, Bool.false_and]

/-- A branch below the 32-bit boundary is converted, and nothing behind it is touched. -/
theorem delivers_convertX86 {position : Nat} (instructionPointer mask : UInt32)
    (hlen : input.length < 2 ^ 64) (hunwritten : Unwritten input bytes position)
    (hinside : position + 4 < input.length) (hposition : position < 2 ^ 32) :
    Delivers (convertX86 instructionPointer mask position bytes)
      fun out => Unwritten input out (position + 5) := by
  obtain ⟨hlength, hagree⟩ := hunwritten
  refine (delivers_addOffset (by omega) _).bind ?_
  rintro valueIndex rfl
  refine (delivers_readU32Le hlength (by omega) hlen).bind fun value _ => ?_
  refine (delivers_orFormat (tryFrom_of_lt hposition) trivial :
    Delivers _ fun _ => True).bind fun position32 _ => ?_
  have hvalue : ∀ value current : UInt32, Delivers (
      if mask ≠ 0 then do
        let shift := (mask &&& 6) <<< 2
        let tested ← wordToByte ((value >>> shift) &&& 0xff) "BCJ test byte is not representable"
        if testX86Msb tested then
          pure ((value ^^^ ((0x100 : UInt32) <<< shift - 1)) - current)
        else
          pure value
      else
        pure value : Work UInt32) fun _ => True := by
    intro value current
    refine delivers_ite (fun _ => ?_) fun _ => delivers_pure trivial
    refine (delivers_wordToByte (CompatibilityFilters.and_lt_256 _ (by decide)) _).bind
      fun tested _ => ?_
    exact delivers_ite (fun _ => delivers_pure trivial) fun _ => delivers_pure trivial
  refine (hvalue _ _).bind fun converted _ => ?_
  have hwrite : Delivers (writeWord bytes (position + 1) (u32ToLe converted)) _ :=
    delivers_writeSlice (show position + 1 + 4 ≤ bytes.length by omega) (by omega)
  refine hwrite.bind ?_
  rintro written rfl
  have hwritten : (bytes.take (position + 1) ++ u32ToLe converted
      ++ bytes.drop (position + 1 + 4)).length = input.length :=
    (length_written (show position + 1 + 4 ≤ bytes.length by omega)).trans hlength
  refine (delivers_addOffset (by omega) _).bind ?_
  rintro highIndex rfl
  refine (delivers_byteAt (Nat.lt_of_lt_of_eq hinside hwritten.symm) _).bind fun high _ => ?_
  refine delivers_pure ⟨by rw [List.length_set]; exact hwritten, fun index hindex => ?_⟩
  have hfront : (bytes.take (position + 1) ++ u32ToLe converted).length = position + 5 := by
    rw [List.length_append, List.length_take, show (u32ToLe converted).length = 4 from rfl]
    omega
  rw [List.getElem?_set_ne (by omega), List.getElem?_append_right (by omega), hfront,
    List.getElem?_drop, ← hagree index (by omega)]
  congr 1
  show position + 1 + 4 + (index - (position + 5)) = index
  omega

/-- A branch behind the 32-bit boundary is not converted. -/
theorem lt_of_convertX86 {position : Nat} {instructionPointer mask : UInt32} {out : Bytes}
    (h : (convertX86 instructionPointer mask position bytes).result = .ok out) :
    position < 2 ^ 32 := by
  obtain ⟨valueIndex, -, h⟩ := Metered.bind_eq_ok.mp h
  obtain ⟨value, -, h⟩ := Metered.bind_eq_ok.mp h
  obtain ⟨position32, hposition, -⟩ := Metered.bind_eq_ok.mp h
  exact (tryFrom_eq_some.mp (orFormat_eq_ok.mp hposition)).1

/--
The outer loop follows the scan, and delivers exactly when the scan ends below `2 ^ 32`.

Induction on the fuel.  The next branch is found, or the end; and where the place after
it is known, the rest is the induction hypothesis.
-/
theorem x86From_spec (hlen : input.length < 2 ^ 64) (hend : scanEnd + 4 = input.length)
    (instructionPointer : UInt32) :
    ∀ (fuel position : Nat) (mask : UInt32) (bytes : Bytes), Unwritten input bytes position →
      MaskOK mask → input.length - position < fuel →
      ∃ stop, ReflTransGen (Scans input) (position, mask) stop ∧ input.length ≤ stop.1 + 4 ∧
        (Delivers (x86From instructionPointer scanEnd fuel position mask bytes)
            (KeepsLength input.length) ↔ stop.1 < 2 ^ 32) := by
  intro fuel
  induction fuel with
  | zero => intro position mask bytes _ _ hfuel; exact absurd hfuel (by omega)
  | succ fuel ih =>
      intro position mask bytes hunwritten hmask hfuel
      have hscan := scanBranch_reaches hlen hend (bytes.length + 1) position mask hunwritten
        (by rw [hunwritten.1]; omega)
      obtain ⟨reached, hfound, hle, hbranch, passed, hpassed, hreach⟩ := delivers_iff.mp hscan
      have hdistance : (orFormat (checkedSub reached position)
          "BCJ scan distance underflows").result = .ok (reached - position) :=
        orFormat_eq_ok.mpr (checkedSub_of_le hle)
      have hshift := shiftMask_eq hmask hpassed
      have hpassedOK : MaskOK passed := by
        unfold MaskOK at hmask ⊢
        rw [hpassed]
        exact Nat.lt_of_le_of_lt (Nat.div_le_self _ _) hmask
      have hunwritten' : Unwritten input bytes reached := hunwritten.mono hle
      rw [x86From, delivers_bind_iff hfound, delivers_bind_iff hdistance, delivers_bind_iff hshift]
      by_cases hover : reached ≥ scanEnd
      · refine ⟨(reached, passed), hreach, by show _ ≤ reached + 4; omega, ?_⟩
        rw [if_pos hover]
        constructor
        · intro h
          obtain ⟨out, hout, -⟩ := delivers_iff.mp h
          obtain ⟨position32, hposition, -⟩ := Metered.bind_eq_ok.mp hout
          exact (tryFrom_eq_some.mp (orFormat_eq_ok.mp hposition)).1
        · intro hlt
          refine (delivers_orFormat (tryFrom_of_lt hlt) trivial :
            Delivers _ fun _ => True).bind fun _ _ => delivers_pure hunwritten.1
      · rw [if_neg hover]
        have hinside : reached + 4 < input.length := by omega
        obtain ⟨refused, hrefused, hrefusedEq⟩ :=
          delivers_iff.mp (delivers_maskRefuses hlen hunwritten' hpassedOK hinside)
        rw [delivers_bind_iff hrefused]
        have hbranch := hbranch (by omega)
        -- where the branch is not converted the scan goes on with the next byte
        have hpush (hnext : x86Next input reached passed = (reached + 1, (passed >>> 1) ||| 4)) :
            ∃ stop, ReflTransGen (Scans input) (position, mask) stop ∧ input.length ≤ stop.1 + 4 ∧
              (Delivers (do
                  let position ← addOffset reached 1 "BCJ position overflows"
                  x86From instructionPointer scanEnd fuel position ((passed >>> 1) ||| 4) bytes)
                (KeepsLength input.length) ↔ stop.1 < 2 ^ 32) := by
          obtain ⟨stop, hstop, hlast, hiff⟩ := ih (reached + 1) ((passed >>> 1) ||| 4) bytes
            (hunwritten'.mono (Nat.le_succ _)) (maskOK_push hpassedOK) (by omega)
          obtain ⟨next, hadd, rfl⟩ := delivers_iff.mp
            (delivers_addOffset (show reached + 1 < 2 ^ 64 by omega) "BCJ position overflows")
          refine ⟨stop, hreach.trans (.head ⟨hinside, hnext.symm⟩ hstop), hlast, ?_⟩
          rw [delivers_bind_iff hadd]
          exact hiff
        subst hrefusedEq
        by_cases hskip : Refused input reached passed = true
        · rw [if_pos hskip]
          exact hpush (by rw [x86Next, if_pos hbranch, if_neg (by simp [hskip])])
        · rw [if_neg hskip]
          obtain ⟨highIndex, hadd, rfl⟩ := delivers_iff.mp
            (delivers_addOffset (show reached + 4 < 2 ^ 64 by omega) "BCJ high-byte index overflows")
          obtain ⟨high, hhigh, hinput⟩ := delivers_iff.mp (delivers_inputByte hunwritten'
            (Nat.le_add_right reached 4) hinside "BCJ high-byte index is out of range")
          have hhas : byteHas input (reached + 4) testX86Msb = testX86Msb high := by
            rw [byteHas, hinput]
            rfl
          rw [delivers_bind_iff hadd, delivers_bind_iff hhigh]
          by_cases hmsb : testX86Msb high = true
          · rw [if_pos hmsb]
            have hnext : x86Next input reached passed = (reached + 5, 0) := by
              rw [x86Next, if_pos hbranch, if_pos (by simp [hskip, hhas, hmsb])]
            by_cases hbelow : reached < 2 ^ 32
            · obtain ⟨out, hout, hunwritten''⟩ := delivers_iff.mp
                (delivers_convertX86 instructionPointer passed hlen
                  hunwritten' hinside hbelow)
              obtain ⟨next, hadd', rfl⟩ := delivers_iff.mp
                (delivers_addOffset (show reached + 5 < 2 ^ 64 by omega) "BCJ position overflows")
              obtain ⟨stop, hstop, hlast, hiff⟩ := ih (reached + 5) 0 out hunwritten'' maskOK_zero
                (by omega)
              refine ⟨stop, hreach.trans (.head ⟨hinside, hnext.symm⟩ hstop), hlast, ?_⟩
              rw [delivers_bind_iff hout, delivers_bind_iff hadd']
              exact hiff
            · -- the conversion fails, and the scan ends behind the boundary anyway
              obtain ⟨stop, hstop, hlast⟩ := exists_stop input input.length (reached + 5, 0) (by omega)
              have hafter := le_of_reaches hstop
              refine ⟨stop, hreach.trans (.head ⟨hinside, hnext.symm⟩ hstop), hlast, ?_⟩
              constructor
              · intro h
                obtain ⟨out, hout, -⟩ := delivers_iff.mp h
                obtain ⟨converted, hconverted, -⟩ := Metered.bind_eq_ok.mp hout
                exact absurd (lt_of_convertX86 hconverted) hbelow
              · intro hlt
                have : reached + 5 ≤ stop.1 := hafter
                omega
          · rw [if_neg hmsb]
            exact hpush (by rw [x86Next, if_pos hbranch, if_neg (by simp [hhas, hmsb])])

/-- **The x86 filter delivers exactly when its scan ends below `2 ^ 32`.** -/
theorem delivers_decodeX86Bcj_iff {properties : Bytes}
    (h : properties = [] ∨ properties.length = 4) (hlen : input.length < 2 ^ 64) :
    Delivers (decodeX86Bcj properties input) (KeepsLength input.length) ↔
      input.length < 2 ^ 32 + 4 ∧ ∀ position, Converts input position → position + 5 < 2 ^ 32 := by
  obtain ⟨minimum, hminimum, rfl⟩ := delivers_iff.mp
    (delivers_addOffset (show 4 + 1 < 2 ^ 64 by decide) "BCJ minimum input size overflows")
  rw [decodeX86Bcj, delivers_bind_iff hminimum]
  by_cases hshort : input.length < 4 + 1
  · rw [if_pos hshort]
    refine ⟨fun _ => ⟨by omega, ?_⟩, fun _ => delivers_pure rfl⟩
    rintro position ⟨_, _, hinside, _⟩
    omega
  · rw [if_neg hshort]
    have hscan : (orFormat (checkedSub input.length 4) "BCJ scan bound underflows").result
        = .ok (input.length - 4) := orFormat_eq_ok.mpr (checkedSub_of_le (by omega))
    obtain ⟨instructionPointer, hstart, -⟩ := delivers_iff.mp (delivers_startingPosition h)
    obtain ⟨stop, hreach, hstop, hiff⟩ := x86From_spec hlen
      (show input.length - 4 + 4 = input.length by omega) instructionPointer (input.length + 1) 0 0
      input ⟨rfl, fun _ _ => rfl⟩ maskOK_zero (by omega)
    rw [delivers_bind_iff hscan, delivers_bind_iff hstart, hiff]
    exact stop_lt_iff (by decide) hreach hstop


/-! ### All filters that keep the length -/

/-- What the property parser of the filter takes. -/
def AcceptsProperties (method properties : Bytes) : Prop :=
  if method = methodDelta then
    properties.length = 1
  else if method = methodSwap2 ∨ method = methodSwap4 then
    properties = []
  else
    ∃ start, (startingPosition properties).result = .ok start

theorem startingPosition_accepts {properties : Bytes} {start : UInt32}
    (h : (startingPosition properties).result = .ok start) :
    properties = [] ∨ properties.length = 4 := by
  unfold startingPosition at h
  by_cases hempty : properties.isEmpty = true
  · exact .inl (List.isEmpty_iff.mp hempty)
  · rw [if_neg hempty] at h
    by_cases hfour : properties.length = 4
    · exact .inr hfour
    · rw [if_neg hfour] at h
      cases h

/-- The properties of a branch filter are a start position. -/
theorem acceptsProperties_branch {method properties : Bytes} (hdelta : method ≠ methodDelta)
    (hswap : ¬ (method = methodSwap2 ∨ method = methodSwap4)) :
    AcceptsProperties method properties ↔
      ∃ start, (startingPosition properties).result = .ok start := by
  rw [AcceptsProperties, if_neg hdelta, if_neg hswap]

/-- Of the filters only the x86 filter can fail. -/
theorem delivers_decodeFilter {method properties : Bytes} (hmethod : method ∈ filterMethods)
    (hproperties : AcceptsProperties method properties) (hlen : input.length < 2 ^ 64)
    (hbcj : method = methodBcj →
      Delivers (decodeX86Bcj properties input) (KeepsLength input.length)) :
    Delivers (decodeFilter method properties input) (KeepsLength input.length) := by
  simp only [filterMethods, branchMethods, swapMethods, List.cons_append, List.nil_append,
    List.mem_cons, List.not_mem_nil, or_false] at hmethod
  have hstart {m : Bytes} (hdelta : m ≠ methodDelta)
      (hswap : ¬ (m = methodSwap2 ∨ m = methodSwap4))
      (h : AcceptsProperties m properties) : properties = [] ∨ properties.length = 4 := by
    obtain ⟨start, hstart⟩ := (acceptsProperties_branch hdelta hswap).mp h
    exact startingPosition_accepts hstart
  rcases hmethod with rfl | rfl | rfl | rfl | rfl | rfl | rfl | rfl | rfl | rfl | rfl
  · exact delivers_decodeDelta hproperties input
  · exact hbcj rfl
  · exact delivers_words (hstart (by decide) (by decide) hproperties) rfl fun _ _ _ => delivers_ppcWord hlen
  · exact delivers_words (hstart (by decide) (by decide) hproperties) rfl fun _ _ _ => delivers_armWord hlen
  · exact delivers_words (hstart (by decide) (by decide) hproperties) rfl fun _ _ _ => delivers_arm64Word hlen
  · exact delivers_words (hstart (by decide) (by decide) hproperties) rfl fun _ _ _ => delivers_sparcWord hlen
  · exact CompatibilityFilters.delivers_decodeIa64 (hstart (by decide) (by decide) hproperties) hlen
  · exact CompatibilityFilters.delivers_decodeArmThumb (hstart (by decide) (by decide) hproperties) hlen
  · exact CompatibilityFilters.delivers_decodeRiscv (hstart (by decide) (by decide) hproperties) hlen
  · obtain rfl : properties = [] := hproperties
    exact CompatibilityFilters.delivers_decodeSwap (.inl rfl) input
  · obtain rfl : properties = [] := hproperties
    exact CompatibilityFilters.delivers_decodeSwap (.inr rfl) input

/--
**A filter that keeps the length is total, but for the x86 filter at `2 ^ 32`.**

With properties its parser accepts a filter returns as many bytes as it is given; the x86
filter does so exactly where the end of its scan, and every branch it converts on the
way, is below the 32-bit boundary.
-/
theorem decodeFilter_total_iff {method properties : Bytes} (hmethod : method ∈ filterMethods)
    (hproperties : AcceptsProperties method properties) (hlen : input.length < 2 ^ 64) :
    (∃ out, (decodeFilter method properties input).result = .ok out ∧
        out.length = input.length) ↔
      (method = methodBcj → input.length < 2 ^ 32 + 4 ∧
        ∀ position, Converts input position → position + 5 < 2 ^ 32) := by
  rw [← delivers_iff]
  have hbcj (h : method = methodBcj) :
      Delivers (decodeFilter method properties input) (KeepsLength input.length) ↔
        input.length < 2 ^ 32 + 4 ∧
          ∀ position, Converts input position → position + 5 < 2 ^ 32 := by
    subst h
    obtain ⟨start, hstart⟩ := (acceptsProperties_branch (by decide) (by decide)).mp hproperties
    exact delivers_decodeX86Bcj_iff (startingPosition_accepts hstart) hlen
  constructor
  · intro h hmethod
    subst hmethod
    exact (hbcj rfl).mp h
  · intro h
    refine delivers_decodeFilter hmethod hproperties hlen fun hbcj' => ?_
    subst hbcj'
    exact (hbcj rfl).mpr (h rfl)

/-- A RISC-V stream of eight bytes. -/
theorem decodeFilter_total_riscv :
    ∃ out, (decodeFilter methodRiscv [] [0xef, 0, 0, 0, 0x13, 0, 0, 0]).result = .ok out ∧
      out.length = 8 :=
  (decodeFilter_total_iff (by decide)
    ((acceptsProperties_branch (by decide) (by decide)).mpr ⟨0, rfl⟩) (by decide)).mpr
    fun h => absurd h (by decide)

/-- What reaches the boundary is refused, whatever is in it. -/
theorem refuses_longBcj (hlong : 2 ^ 32 + 4 ≤ input.length) (hlen : input.length < 2 ^ 64) :
    ¬ ∃ out, (decodeFilter methodBcj [] input).result = .ok out ∧ out.length = input.length := by
  rintro ⟨out, hout, hlength⟩
  have h := (delivers_decodeX86Bcj_iff (.inl rfl) hlen).mp (delivers_of_ok hout hlength)
  exact absurd h.1 (Nat.not_lt.mpr hlong)

/-- No branch in it, and still too long: `2 ^ 32 + 4` zeros through the x86 filter. -/
theorem decodeFilter_refuses_zeros :
    methodBcj ∈ filterMethods ∧ AcceptsProperties methodBcj [] ∧
      (List.replicate (2 ^ 32 + 4) (0 : UInt8)).length < 2 ^ 64 ∧
      ¬ ∃ out, (decodeFilter methodBcj [] (List.replicate (2 ^ 32 + 4) 0)).result = .ok out ∧
        out.length = (List.replicate (2 ^ 32 + 4) (0 : UInt8)).length := by
  have hlength : (List.replicate (2 ^ 32 + 4) (0 : UInt8)).length = 2 ^ 32 + 4 :=
    List.length_replicate
  have hlen : (List.replicate (2 ^ 32 + 4) (0 : UInt8)).length < 2 ^ 64 := by
    rw [hlength]
    decide
  have haccepts : AcceptsProperties methodBcj [] :=
    (acceptsProperties_branch (by decide) (by decide)).mpr ⟨0, rfl⟩
  exact ⟨by decide, haccepts, hlen, refuses_longBcj (Nat.le_of_eq hlength.symm) hlen⟩

end Filters

end Un7z
