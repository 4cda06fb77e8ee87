/-
The x86 filter undoes its encoder.

A branch is converted or not by the bytes of its operand, and of the bytes in front of it
by the mask alone.  The mask remembers which of the last three bytes were branches that
were passed, and the one byte that it makes the filter look at is the byte that such a
branch has as its high one.  Of that byte it is only asked whether it is a sign.  What the
filter writes keeps that answer wherever the mask still asks for it: that is `Guards`, the
invariant of the walk.  So the encoder and the decoder take the same strides, and what is
left is the arithmetic of one operand, of which only 25 bits matter.
-/
import Un7z.Proofs.ThumbFilter
import Un7z.Proofs.X86Filter

namespace Un7z

namespace Filters

open CompatibilityFilters (wordToByte_eq)
open Grammar (leBytes)

/-! ### Turning an operand -/

/-- The upper of the low `k` bits are a sign: eight of them, all of them equal. -/
def Signed (k x : Nat) : Prop := x % 2 ^ k < 2 ^ (k - 8) ∨ 2 ^ k - 2 ^ (k - 8) ≤ x % 2 ^ k

instance (k x : Nat) : Decidable (Signed k x) := inferInstanceAs (Decidable (_ ∨ _))

/-- The low `k` bits inverted. -/
def invert (k x : Nat) : Nat := x / 2 ^ k * 2 ^ k + (2 ^ k - 1 - x % 2 ^ k)

/-- An operand moved by a distance; and moved once more, inverted, where it would become a
sign that the mask asks for. -/
def turn (k distance x : Nat) : Nat :=
  if Signed k (x + distance) then invert k (x + distance) + distance else x + distance

theorem xor_ones (x k : Nat) : x ^^^ (2 ^ k - 1) = invert k x := by
  have hdiv : (x ^^^ (2 ^ k - 1)) / 2 ^ k = x / 2 ^ k := by
    rw [Nat.xor_div_two_pow, Nat.div_eq_of_lt (Nat.sub_one_lt (Nat.two_pow_pos k).ne'), Nat.xor_zero]
  have hmod : (x ^^^ (2 ^ k - 1)) % 2 ^ k = 2 ^ k - 1 - x % 2 ^ k := by
    refine Nat.eq_of_testBit_eq fun i => ?_
    have hlt : x % 2 ^ k < 2 ^ k := Nat.mod_lt _ (Nat.two_pow_pos k)
    rw [Nat.sub_sub, Nat.add_comm, Nat.testBit_two_pow_sub_succ hlt, Nat.testBit_mod_two_pow,
      Nat.testBit_mod_two_pow, Nat.testBit_xor, Nat.testBit_two_pow_sub_one]
    by_cases h : i < k <;> simp [h]
  rw [invert, ← hdiv, ← hmod, Nat.mul_comm, Nat.div_add_mod]

section turn

variable {k : Nat} (hk : k = 8 ∨ k = 16 ∨ k = 24) {distance back x y : Nat}

include hk

theorem signed_congr (h : x % 2 ^ 25 = y % 2 ^ 25) : Signed k x ↔ Signed k y := by
  have hmod : x % 2 ^ k = y % 2 ^ k := by
    have hdvd : 2 ^ k ∣ 2 ^ 25 := Nat.pow_dvd_pow 2 (by omega)
    rw [← Nat.mod_mod_of_dvd x hdvd, h, Nat.mod_mod_of_dvd y hdvd]
  rw [Signed, Signed, hmod]

theorem invert_congr (h : x % 2 ^ 25 = y % 2 ^ 25) :
    invert k x % 2 ^ 25 = invert k y % 2 ^ 25 := by
  unfold invert
  rcases hk with rfl | rfl | rfl <;> omega

theorem signed_invert : Signed k (invert k x) ↔ Signed k x := by
  have hlow : invert k x % 2 ^ k = 2 ^ k - 1 - x % 2 ^ k := by
    unfold invert
    rcases hk with rfl | rfl | rfl <;> omega
  rw [Signed, Signed, hlow]
  rcases hk with rfl | rfl | rfl <;> omega

theorem invert_invert : invert k (invert k x) = x := by
  unfold invert
  rcases hk with rfl | rfl | rfl <;> omega

theorem turn_congr (h : x % 2 ^ 25 = y % 2 ^ 25) :
    turn k distance x % 2 ^ 25 = turn k distance y % 2 ^ 25 := by
  have hmoved : (x + distance) % 2 ^ 25 = (y + distance) % 2 ^ 25 := by omega
  have hinverted := invert_congr hk hmoved
  unfold turn
  by_cases hsigned : Signed k (x + distance)
  · rw [if_pos hsigned, if_pos ((signed_congr hk hmoved).mp hsigned)]
    omega
  · rw [if_neg hsigned, if_neg (mt (signed_congr hk hmoved).mpr hsigned)]
    exact hmoved

/-- What was no sign is none after it has been turned. -/
theorem not_signed_turn (h : ¬ Signed k x) : ¬ Signed k (turn k distance x) := by
  unfold turn
  by_cases hsigned : Signed k (x + distance)
  · have hlow : (invert k (x + distance) + distance) % 2 ^ k = 2 ^ k - 1 - x % 2 ^ k := by
      unfold invert
      rcases hk with rfl | rfl | rfl <;> omega
    rw [if_pos hsigned, Signed, hlow]
    rw [Signed] at h
    rcases hk with rfl | rfl | rfl <;> omega
  · rwa [if_neg hsigned]

/-- Turned by the opposite distance, an operand is what it was. -/
theorem turn_turn (h : ¬ Signed k x) (hback : (distance + back) % 2 ^ 25 = 0) :
    turn k back (turn k distance x) % 2 ^ 25 = x % 2 ^ 25 := by
  by_cases hsigned : Signed k (x + distance)
  · have hturn : turn k distance x = invert k (x + distance) + distance := if_pos hsigned
    have hmoved : (turn k distance x + back) % 2 ^ 25 = invert k (x + distance) % 2 ^ 25 := by
      rw [hturn]
      omega
    have hagain : Signed k (turn k distance x + back) :=
      (signed_congr hk hmoved).mpr ((signed_invert hk).mpr hsigned)
    have hinverted := invert_congr hk hmoved
    rw [invert_invert hk] at hinverted
    rw [turn, if_pos hagain]
    omega
  · have hturn : turn k distance x = x + distance := if_neg hsigned
    have hmoved : (turn k distance x + back) % 2 ^ 25 = x % 2 ^ 25 := by
      rw [hturn]
      omega
    rw [turn, if_neg (mt (signed_congr hk hmoved).mp h)]
    exact hmoved

end turn

/-! ### Operands -/

/-- The conversion of an operand; `adjust` is what tells the encoder from the decoder. -/
def x86Convert (adjust : UInt32 → UInt32 → UInt32) (current mask value : UInt32) : UInt32 :=
  let value := adjust value current
  if mask ≠ 0 then
    let shift := (mask &&& 6) <<< 2
    if testX86Msb ((value >>> shift) &&& 0xff).toUInt8 then
      adjust (value ^^^ ((0x100 : UInt32) <<< shift - 1)) current
    else
      value
  else
    value

/-- The high byte is the sign. -/
def extendSign : Bytes → Bytes
  | [b₁, b₂, b₃, b₄] => [b₁, b₂, b₃, 0 - (b₄ &&& 1)]
  | operand => operand

/-- The 25 bits of an operand, with their sign. -/
def signedWord (x : Nat) : Nat := x % 2 ^ 24 + if x / 2 ^ 24 % 2 = 1 then 255 * 2 ^ 24 else 0

/-- The bits of an operand that a mask asks for. -/
def MaskBits (mask : UInt32) (k : Nat) : Prop :=
  (mask = 1 ∧ k = 8) ∨ (mask = 2 ∧ k = 16) ∨ (mask = 4 ∧ k = 24)

theorem MaskBits.width {mask : UInt32} {k : Nat} (h : MaskBits mask k) : k = 8 ∨ k = 16 ∨ k = 24 := by
  rcases h with ⟨-, rfl⟩ | ⟨-, rfl⟩ | ⟨-, rfl⟩
  · exact .inl rfl
  · exact .inr (.inl rfl)
  · exact .inr (.inr rfl)

theorem testX86Msb_iff (byte : UInt8) : testX86Msb byte = true ↔ byte.toNat = 0 ∨ byte.toNat = 255 := by
  have hlt := byte.toNat_lt
  have hand : (byte + 1 &&& 0xfe).toNat = (byte.toNat + 1) % 256 / 2 * 2 := by
    rw [UInt8.toNat_and, UInt8.toNat_add]
    show (byte.toNat + 1) % 256 &&& (2 ^ 7 - 1) * 2 ^ 1 = _
    rw [and_ones]
    omega
  rw [testX86Msb, decide_eq_true_iff, ← UInt8.toNat_inj, hand]
  show _ = 0 ↔ _
  omega

/-- The byte of a moved operand that is tested. -/
theorem tested_iff {mask value : UInt32} {k : Nat} (h : MaskBits mask k) :
    testX86Msb ((value >>> ((mask &&& 6) <<< 2)) &&& 0xff).toUInt8 = true ↔
      Signed k value.toNat := by
  have hbyte (shift : UInt32) (hshift : shift.toNat < 32) :
      ((value >>> shift) &&& 0xff).toUInt8.toNat = value.toNat / 2 ^ shift.toNat % 256 := by
    rw [UInt32.toNat_toUInt8, UInt32.toNat_and, UInt32.toNat_shiftRight, Nat.shiftRight_eq_div_pow,
      Nat.mod_eq_of_lt hshift]
    show (value.toNat / 2 ^ shift.toNat &&& (2 ^ 8 - 1)) % 2 ^ 8 = _
    rw [Nat.and_two_pow_sub_one_eq_mod, Nat.mod_mod]
  rw [testX86Msb_iff]
  rcases h with ⟨rfl, rfl⟩ | ⟨rfl, rfl⟩ | ⟨rfl, rfl⟩
  · rw [hbyte _ (by decide), Signed]
    show value.toNat / 2 ^ 0 % 256 = 0 ∨ value.toNat / 2 ^ 0 % 256 = 255 ↔ _
    omega
  · rw [hbyte _ (by decide), Signed]
    show value.toNat / 2 ^ 8 % 256 = 0 ∨ value.toNat / 2 ^ 8 % 256 = 255 ↔ _
    omega
  · rw [hbyte _ (by decide), Signed]
    show value.toNat / 2 ^ 16 % 256 = 0 ∨ value.toNat / 2 ^ 16 % 256 = 255 ↔ _
    omega

theorem toNat_inverted {mask value : UInt32} {k : Nat} (h : MaskBits mask k) :
    (value ^^^ ((0x100 : UInt32) <<< ((mask &&& 6) <<< 2) - 1)).toNat = invert k value.toNat := by
  rw [UInt32.toNat_xor, ← xor_ones]
  rcases h with ⟨rfl, rfl⟩ | ⟨rfl, rfl⟩ | ⟨rfl, rfl⟩ <;> rfl

/-- An adjustment moves by a distance. -/
def MovesBy (adjust : UInt32 → UInt32 → UInt32) (current : UInt32) (distance : Nat) : Prop :=
  ∀ value, (adjust value current).toNat = (value.toNat + distance) % 2 ^ 32

theorem movesBy_add (current : UInt32) : MovesBy (· + ·) current current.toNat :=
  fun value => UInt32.toNat_add value current

theorem movesBy_sub (current : UInt32) : MovesBy (· - ·) current (2 ^ 32 - current.toNat) := by
  intro value
  show (value - current).toNat = _
  rw [UInt32.toNat_sub, Nat.add_comm]

section convert

variable {adjust : UInt32 → UInt32 → UInt32} {current mask : UInt32} {distance : Nat}
  (hadjust : MovesBy adjust current distance)

include hadjust

theorem toNat_x86Convert_zero (value : UInt32) :
    (x86Convert adjust current 0 value).toNat % 2 ^ 25 = (value.toNat + distance) % 2 ^ 25 := by
  have hconvert : x86Convert adjust current 0 value = adjust value current := rfl
  rw [hconvert, hadjust]
  omega

theorem toNat_x86Convert {k : Nat} (h : MaskBits mask k) (value : UInt32) :
    (x86Convert adjust current mask value).toNat % 2 ^ 25 = turn k distance value.toNat % 2 ^ 25 := by
  have hmask : mask ≠ 0 := by
    rcases h with ⟨rfl, -⟩ | ⟨rfl, -⟩ | ⟨rfl, -⟩ <;> decide
  have hmoved : (adjust value current).toNat % 2 ^ 25 = (value.toNat + distance) % 2 ^ 25 := by
    rw [hadjust]
    omega
  simp only [x86Convert]
  rw [if_pos hmask]
  by_cases hsigned : Signed k (value.toNat + distance)
  · have htested := (tested_iff h).mpr ((signed_congr h.width hmoved).mpr hsigned)
    have hinverted := invert_congr h.width hmoved
    rw [if_pos htested, turn, if_pos hsigned, hadjust, toNat_inverted h]
    omega
  · have htested := mt (tested_iff h).mp (mt (signed_congr h.width hmoved).mp hsigned)
    rw [if_neg htested, turn, if_neg hsigned, hmoved]

end convert

theorem signedWord_mod (x : Nat) : signedWord x % 2 ^ 25 = x % 2 ^ 25 := by
  unfold signedWord
  split <;> omega

theorem signedWord_congr {x y : Nat} (h : x % 2 ^ 25 = y % 2 ^ 25) : signedWord x = signedWord y := by
  have hlow : x % 2 ^ 24 = y % 2 ^ 24 := by omega
  have hsign : x / 2 ^ 24 % 2 = y / 2 ^ 24 % 2 := by omega
  rw [signedWord, signedWord, hlow, hsign]

theorem signedWord_top (x : Nat) : signedWord x / 2 ^ 24 = 0 ∨ signedWord x / 2 ^ 24 = 255 := by
  unfold signedWord
  split <;> omega

theorem signedWord_lt (x : Nat) : signedWord x < 2 ^ 32 := by
  have := signedWord_top x
  omega

theorem signedWord_self {x : Nat} (h : x / 2 ^ 24 = 0 ∨ x / 2 ^ 24 = 255) : signedWord x = x := by
  unfold signedWord
  split <;> omega

theorem extendSign_word (word : UInt32) : extendSign (u32ToLe word) = leBytes 4 (signedWord word.toNat) := by
  have hsign (byte : UInt8) : (0 - (byte &&& 1)).toNat = byte.toNat % 2 * 255 := by
    have hone : (byte &&& 1).toNat = byte.toNat % 2 := by
      rw [UInt8.toNat_and]
      exact Nat.and_two_pow_sub_one_eq_mod _ 1
    rw [UInt8.toNat_sub, hone]
    show (2 ^ 8 - byte.toNat % 2 + 0) % 2 ^ 8 = _
    omega
  have hword := congrArg leValue (u32ToLe_eq word)
  rw [leValue_leBytes, Nat.mod_eq_of_lt (by exact word.toNat_lt)] at hword
  have hlength : (extendSign (u32ToLe word)).length = 4 := rfl
  have hvalue : leValue (extendSign (u32ToLe word)) = signedWord word.toNat := by
    rw [← hword]
    unfold u32ToLe
    generalize word.toUInt8 = b₁, (word >>> 8).toUInt8 = b₂, (word >>> 16).toUInt8 = b₃,
      (word >>> 24).toUInt8 = b₄
    have h₁ := b₁.toNat_lt
    have h₂ := b₂.toNat_lt
    have h₃ := b₃.toNat_lt
    show leValue [b₁, b₂, b₃, 0 - (b₄ &&& 1)] = _
    rw [signedWord]
    by_cases hone : leValue [b₁, b₂, b₃, b₄] / 2 ^ 24 % 2 = 1
    · rw [if_pos hone]
      simp only [leValue, hsign] at hone ⊢
      omega
    · rw [if_neg hone]
      simp only [leValue, hsign] at hone ⊢
      omega
  rw [← hvalue, ← hlength, leBytes_leValue]

/-- What becomes of an operand. -/
def x86Operand (adjust : UInt32 → UInt32 → UInt32) (current mask : UInt32) (operand : Bytes) : Bytes :=
  extendSign (u32ToLe (x86Convert adjust current mask (u32FromLe operand)))

/-- An operand that is converted: it has a sign, and the mask asks for none. -/
def Convertible (mask : UInt32) (operand : Nat) : Prop :=
  (operand / 2 ^ 24 = 0 ∨ operand / 2 ^ 24 = 255) ∧
    (mask = 0 ∨ ∃ k, MaskBits mask k ∧ ¬ Signed k operand)

section operand

variable {adjust back : UInt32 → UInt32 → UInt32} {current mask : UInt32} {distance opposite : Nat}
  (hadjust : MovesBy adjust current distance) {operand : Bytes} (hoperand : operand.length = 4)

theorem x86Operand_eq : x86Operand adjust current mask operand
    = leBytes 4 (signedWord (x86Convert adjust current mask (u32FromLe operand)).toNat) :=
  extendSign_word _

theorem leValue_x86Operand : leValue (x86Operand adjust current mask operand)
    = signedWord (x86Convert adjust current mask (u32FromLe operand)).toNat := by
  rw [x86Operand_eq, leValue_leBytes]
  exact Nat.mod_eq_of_lt (signedWord_lt _)

include hadjust hoperand

/-- What is converted can be converted again. -/
theorem convertible_x86Operand (h : Convertible mask (leValue operand)) :
    Convertible mask (leValue (x86Operand adjust current mask operand)) := by
  rw [leValue_x86Operand]
  refine ⟨signedWord_top _, h.2.imp id ?_⟩
  rintro ⟨k, hk, hsigned⟩
  refine ⟨k, hk, ?_⟩
  have hturned := (signedWord_mod _).trans (toNat_x86Convert hadjust hk (u32FromLe operand))
  rw [signed_congr hk.width hturned, toNat_fromLe hoperand]
  exact not_signed_turn hk.width hsigned

/-- And the opposite conversion undoes it. -/
theorem x86Operand_back (hback : MovesBy back current opposite)
    (hopposite : (distance + opposite) % 2 ^ 25 = 0) (h : Convertible mask (leValue operand)) :
    x86Operand back current mask (x86Operand adjust current mask operand) = operand := by
  have hlength : (x86Operand adjust current mask operand).length = 4 := by
    rw [x86Operand_eq, length_leBytes]
  have hmod : (x86Convert back current mask (u32FromLe (x86Operand adjust current mask operand))).toNat
      % 2 ^ 25 = leValue operand % 2 ^ 25 := by
    have hword : (u32FromLe (x86Operand adjust current mask operand)).toNat % 2 ^ 25
        = (x86Convert adjust current mask (u32FromLe operand)).toNat % 2 ^ 25 := by
      rw [toNat_fromLe hlength, leValue_x86Operand, signedWord_mod]
    rcases h.2 with rfl | ⟨k, hk, hsigned⟩
    · have hfirst := toNat_x86Convert_zero hadjust (u32FromLe operand)
      rw [toNat_fromLe hoperand] at hfirst
      rw [toNat_x86Convert_zero hback]
      omega
    · rw [toNat_x86Convert hback hk, turn_congr hk.width (hword.trans (toNat_x86Convert hadjust hk _)),
        toNat_fromLe hoperand]
      exact turn_turn hk.width hsigned hopposite
  rw [x86Operand_eq, signedWord_congr hmod, signedWord_self h.1, ← hoperand, leBytes_leValue]

end operand

/-! ### The walk -/

/-- The filter converts what is in front under this mask. -/
def x86Converts (mask : UInt32) (rest : Bytes) : Bool :=
  byteHas rest 0 isX86Branch && !Refused rest 0 mask && byteHas rest 4 testX86Msb

/-- A branch is taken whole where it is converted, and all else byte by byte.  The last four
bytes are not taken. -/
def x86Cut (mask : UInt32) (rest : Bytes) : Nat :=
  if rest.length < 5 then 0 else if x86Converts mask rest then 5 else 1

/-- The place behind a stride. -/
def x86After (place : Nat × UInt32) (front : Bytes) : Nat × UInt32 :=
  if front.length = 5 then
    (place.1 + 5, 0)
  else if byteHas front 0 isX86Branch then
    (place.1 + 1, (place.2 >>> 1) ||| 4)
  else
    (place.1 + 1, place.2 >>> 1)

def x86Act (adjust : UInt32 → UInt32 → UInt32) (start : UInt32) (place : Nat × UInt32) : Bytes → Bytes
  | [opcode, b₁, b₂, b₃, b₄] =>
      opcode :: x86Operand adjust (start + 5 + UInt32.ofNat place.1) place.2 [b₁, b₂, b₃, b₄]
  | front => front

/-- The walk of the filter, whose state is a place: a position and a mask. -/
def x86Gait (adjust : UInt32 → UInt32 → UInt32) (start : UInt32) : Gait (Nat × UInt32) UInt8 where
  cut place rest := x86Cut place.2 rest
  act := x86Act adjust start
  next := x86After

theorem five_cases (rest : Bytes) :
    rest.length < 5 ∨ ∃ a b c d e tail, rest = a :: b :: c :: d :: e :: tail := by
  rcases rest with _ | ⟨a, _ | ⟨b, _ | ⟨c, _ | ⟨d, _ | ⟨e, tail⟩⟩⟩⟩⟩
  case cons.cons.cons.cons.cons => exact .inr ⟨a, b, c, d, e, tail, rfl⟩
  all_goals exact .inl (by simp only [List.length_cons, List.length_nil]; omega)

section front

variable {opcode b₁ b₂ b₃ b₄ : UInt8} {tail : Bytes} {mask : UInt32}

/-- A mask asks for no byte, for one, or refuses whatever there is. -/
theorem mask_cases (mask : UInt32) : mask = 0 ∨ mask = 1 ∨ mask = 2 ∨ mask = 4 ∨
    (mask ≠ 0 ∧ (∀ k, ¬ MaskBits mask k) ∧ ∀ rest, Refused rest 0 mask = true) := by
  by_cases hzero : mask = 0
  · exact .inl hzero
  · by_cases hfew : mask > 4 ∨ mask = 3
    · refine .inr (.inr (.inr (.inr ⟨hzero, ?_, ?_⟩)))
      · rintro k (⟨rfl, -⟩ | ⟨rfl, -⟩ | ⟨rfl, -⟩) <;> exact absurd hfew (by decide)
      · intro rest
        rw [Refused, decide_eq_true hzero, Bool.true_and, Bool.or_eq_true, Bool.or_eq_true,
          decide_eq_true_iff, decide_eq_true_iff]
        exact .inl hfew
    · simp only [gt_iff_lt, UInt32.lt_iff_toNat_lt, ← UInt32.toNat_inj] at hzero hfew ⊢
      have hone : mask.toNat = 1 ∨ mask.toNat = 2 ∨ mask.toNat = 4 := by
        have h₀ : ¬ mask.toNat = 0 := hzero
        have h₄ : ¬ (4 < mask.toNat ∨ mask.toNat = 3) := hfew
        omega
      exact .inr (hone.imp id (Or.imp id .inl))

/-- The mask refuses a branch by a byte of its operand. -/
theorem refused_eq_false_iff : Refused (opcode :: b₁ :: b₂ :: b₃ :: b₄ :: tail) 0 mask = false ↔
    mask = 0 ∨ ∃ k, MaskBits mask k ∧ ¬ Signed k (leValue [b₁, b₂, b₃, b₄]) := by
  have h₁ := b₁.toNat_lt
  have h₂ := b₂.toNat_lt
  have h₃ := b₃.toNat_lt
  have hfirst : testX86Msb b₁ = true ↔ Signed 8 (leValue [b₁, b₂, b₃, b₄]) := by
    rw [testX86Msb_iff, Signed]
    simp only [leValue]
    omega
  have hsecond : testX86Msb b₂ = true ↔ Signed 16 (leValue [b₁, b₂, b₃, b₄]) := by
    rw [testX86Msb_iff, Signed]
    simp only [leValue]
    omega
  have hthird : testX86Msb b₃ = true ↔ Signed 24 (leValue [b₁, b₂, b₃, b₄]) := by
    rw [testX86Msb_iff, Signed]
    simp only [leValue]
    omega
  rcases mask_cases mask with rfl | rfl | rfl | rfl | ⟨hzero, hbits, hrefused⟩
  · exact iff_of_true rfl (.inl rfl)
  · have hrefused : Refused (opcode :: b₁ :: b₂ :: b₃ :: b₄ :: tail) 0 1 = testX86Msb b₁ := rfl
    rw [hrefused, ← Bool.not_eq_true, hfirst]
    constructor
    · intro h
      exact .inr ⟨8, .inl ⟨rfl, rfl⟩, h⟩
    · rintro (h | ⟨k, ⟨-, rfl⟩ | ⟨h, -⟩ | ⟨h, -⟩, hsigned⟩)
      · exact absurd h (by decide)
      · exact hsigned
      · exact absurd h (by decide)
      · exact absurd h (by decide)
  · have hrefused : Refused (opcode :: b₁ :: b₂ :: b₃ :: b₄ :: tail) 0 2 = testX86Msb b₂ := rfl
    rw [hrefused, ← Bool.not_eq_true, hsecond]
    constructor
    · intro h
      exact .inr ⟨16, .inr (.inl ⟨rfl, rfl⟩), h⟩
    · rintro (h | ⟨k, ⟨h, -⟩ | ⟨-, rfl⟩ | ⟨h, -⟩, hsigned⟩)
      · exact absurd h (by decide)
      · exact absurd h (by decide)
      · exact hsigned
      · exact absurd h (by decide)
  · have hrefused : Refused (opcode :: b₁ :: b₂ :: b₃ :: b₄ :: tail) 0 4 = testX86Msb b₃ := rfl
    rw [hrefused, ← Bool.not_eq_true, hthird]
    constructor
    · intro h
      exact .inr ⟨24, .inr (.inr ⟨rfl, rfl⟩), h⟩
    · rintro (h | ⟨k, ⟨h, -⟩ | ⟨h, -⟩ | ⟨-, rfl⟩, hsigned⟩)
      · exact absurd h (by decide)
      · exact absurd h (by decide)
      · exact absurd h (by decide)
      · exact hsigned
  · rw [hrefused]
    refine iff_of_false (by decide) ?_
    rintro (h | ⟨k, hk, -⟩)
    · exact hzero h
    · exact hbits k hk

theorem x86Converts_iff : x86Converts mask (opcode :: b₁ :: b₂ :: b₃ :: b₄ :: tail) = true ↔
    isX86Branch opcode = true ∧ Convertible mask (leValue [b₁, b₂, b₃, b₄]) := by
  have h₁ := b₁.toNat_lt
  have h₂ := b₂.toNat_lt
  have h₃ := b₃.toNat_lt
  have hopcode : byteHas (opcode :: b₁ :: b₂ :: b₃ :: b₄ :: tail) 0 isX86Branch = isX86Branch opcode :=
    rfl
  have hhigh : byteHas (opcode :: b₁ :: b₂ :: b₃ :: b₄ :: tail) 4 testX86Msb = testX86Msb b₄ := rfl
  have htop : leValue [b₁, b₂, b₃, b₄] / 2 ^ 24 = b₄.toNat := by
    simp only [leValue]
    omega
  rw [x86Converts, hopcode, hhigh, Bool.and_eq_true, Bool.and_eq_true, Bool.not_eq_true',
    refused_eq_false_iff, testX86Msb_iff, Convertible, htop, and_assoc,
    and_comm (a := mask = 0 ∨ _)]

end front

section walk

variable {adjust : UInt32 → UInt32 → UInt32} {start : UInt32} {place : Nat × UInt32}
  {opcode b₁ b₂ b₃ b₄ : UInt8} {rest tail : Bytes}

theorem x86Cut_of_short {mask : UInt32} (h : rest.length < 5) : x86Cut mask rest = 0 := if_pos h

theorem walk_x86Short (h : rest.length < 5) : (x86Gait adjust start).walk place rest = rest := by
  refine Gait.walk_of_not fun hstrides => ?_
  have hcut : (x86Gait adjust start).cut place rest = 0 := x86Cut_of_short h
  exact absurd hstrides.1 (by rw [hcut]; decide)

/-- A byte that is passed. -/
theorem walk_pass (htail : 4 ≤ tail.length) (h : x86Converts place.2 (opcode :: tail) = false) :
    (x86Gait adjust start).walk place (opcode :: tail)
      = opcode :: (x86Gait adjust start).walk (x86After place [opcode]) tail := by
  have hcut : (x86Gait adjust start).cut place ([opcode] ++ tail) = [opcode].length := by
    show x86Cut place.2 (opcode :: tail) = 1
    rw [x86Cut, if_neg (by rw [List.length_cons]; omega), if_neg (by rw [h]; decide)]
  have hpos : 0 < [opcode].length := Nat.succ_pos 0
  exact Gait.walk_append hpos hcut

/-- A branch that is converted. -/
theorem walk_convert
    (h : x86Converts place.2 (opcode :: b₁ :: b₂ :: b₃ :: b₄ :: tail) = true) :
    (x86Gait adjust start).walk place (opcode :: b₁ :: b₂ :: b₃ :: b₄ :: tail)
      = opcode :: x86Operand adjust (start + 5 + UInt32.ofNat place.1) place.2 [b₁, b₂, b₃, b₄]
        ++ (x86Gait adjust start).walk (place.1 + 5, 0) tail := by
  have hcut : (x86Gait adjust start).cut place ([opcode, b₁, b₂, b₃, b₄] ++ tail)
      = [opcode, b₁, b₂, b₃, b₄].length := by
    show x86Cut place.2 (opcode :: b₁ :: b₂ :: b₃ :: b₄ :: tail) = 5
    rw [x86Cut, if_neg (by simp only [List.length_cons]; omega), if_pos h]
  have hpos : 0 < [opcode, b₁, b₂, b₃, b₄].length := Nat.succ_pos 4
  exact Gait.walk_append hpos hcut

/-- The bytes of a converted operand. -/
theorem exists_operand (adjust : UInt32 → UInt32 → UInt32) (current mask : UInt32) (operand : Bytes) :
    ∃ o₁ o₂ o₃ o₄, x86Operand adjust current mask operand = [o₁, o₂, o₃, o₄] :=
  ⟨_, _, _, _, rfl⟩

end walk

/-- What is left behind of what lies ahead, as far as the mask is concerned: the first byte
is the same, and what the mask asks for has the same answer. -/
def Guards (mask : UInt32) (rest rest' : Bytes) : Prop :=
  rest'.length = rest.length ∧ rest'[0]? = rest[0]? ∧
    ∀ i < 3, mask.toNat.testBit i = true →
      byteHas rest' (i + 1) testX86Msb = byteHas rest (i + 1) testX86Msb

theorem Guards.refl (mask : UInt32) (rest : Bytes) : Guards mask rest rest :=
  ⟨rfl, rfl, fun _ _ _ => rfl⟩

/-- What the mask asks for behind a byte that is passed. -/
theorem testBit_after {place : Nat × UInt32} {opcode : UInt8} {i : Nat}
    (h : place.2.toNat.testBit (i + 1) = true) :
    (x86After place [opcode]).2.toNat.testBit i = true := by
  have hhalf : (place.2 >>> 1).toNat.testBit i = true := by
    rw [toNat_half, ← Nat.testBit_succ]
    exact h
  have hlength : ¬ [opcode].length = 5 := by
    rw [List.length_singleton]
    decide
  rw [x86After, if_neg hlength]
  by_cases hbranch : byteHas [opcode] 0 isX86Branch = true
  · rw [if_pos hbranch]
    show ((place.2 >>> 1) ||| 4).toNat.testBit i = true
    rw [UInt32.toNat_or, Nat.testBit_or, hhalf, Bool.true_or]
  · rw [if_neg hbranch]
    exact hhalf

/-- Behind a branch that is passed the mask asks for its high byte. -/
theorem testBit_branch {place : Nat × UInt32} {opcode : UInt8} (h : isX86Branch opcode = true) :
    (x86After place [opcode]).2.toNat.testBit 2 = true := by
  have hlength : ¬ [opcode].length = 5 := by
    rw [List.length_singleton]
    decide
  have hbranch : byteHas [opcode] 0 isX86Branch = true := h
  rw [x86After, if_neg hlength, if_pos hbranch]
  show ((place.2 >>> 1) ||| 4).toNat.testBit 2 = true
  rw [UInt32.toNat_or, Nat.testBit_or, Bool.or_eq_true]
  exact .inr (by decide)

/-- Behind a byte that is passed. -/
theorem Guards.pass {place : Nat × UInt32} {opcode : UInt8} {tail tail' : Bytes}
    (h : Guards (x86After place [opcode]).2 tail tail') :
    Guards place.2 (opcode :: tail) (opcode :: tail') := by
  obtain ⟨hlength, hfirst, hasked⟩ := h
  refine ⟨by rw [List.length_cons, List.length_cons, hlength], rfl, fun i hi hbit => ?_⟩
  cases i with
  | zero =>
      show tail'[0]?.any testX86Msb = tail[0]?.any testX86Msb
      rw [hfirst]
  | succ i => exact hasked i (by omega) (testBit_after hbit)

/-- The mask asks for the one byte it refuses by. -/
theorem Guards.refused {mask : UInt32} {rest rest' : Bytes} (h : Guards mask rest rest') :
    Refused rest' 0 mask = Refused rest 0 mask := by
  have hasked := h.2.2
  rcases mask_cases mask with rfl | rfl | rfl | rfl | ⟨-, -, hrefused⟩
  · rfl
  · exact hasked 0 (by decide) (by decide)
  · exact hasked 1 (by decide) (by decide)
  · exact hasked 2 (by decide) (by decide)
  · rw [hrefused, hrefused]

/-- What the mask asks for where it does not refuse is no sign. -/
theorem byteHas_of_not_refused {mask : UInt32} {rest : Bytes} {i : Nat}
    (h : Refused rest 0 mask = false) (hi : i < 3) (hbit : mask.toNat.testBit i = true) :
    byteHas rest (i + 1) testX86Msb = false := by
  have hi : i = 0 ∨ i = 1 ∨ i = 2 := by omega
  rcases mask_cases mask with rfl | rfl | rfl | rfl | ⟨-, -, hrefused⟩
  · rw [UInt32.toNat_zero, Nat.zero_testBit] at hbit
    exact absurd hbit (by decide)
  · rcases hi with rfl | rfl | rfl
    · exact h
    · exact absurd hbit (by decide)
    · exact absurd hbit (by decide)
  · rcases hi with rfl | rfl | rfl
    · exact absurd hbit (by decide)
    · exact h
    · exact absurd hbit (by decide)
  · rcases hi with rfl | rfl | rfl
    · exact absurd hbit (by decide)
    · exact absurd hbit (by decide)
    · exact h
  · rw [hrefused] at h
    exact absurd h (by decide)

/-- What is converted is not refused. -/
theorem not_refused_of_converts {mask : UInt32} {rest : Bytes} (h : x86Converts mask rest = true) :
    Refused rest 0 mask = false := by
  rw [x86Converts, Bool.and_eq_true, Bool.and_eq_true, Bool.not_eq_true'] at h
  exact h.1.2

section strides

variable {adjust : UInt32 → UInt32 → UInt32} {start : UInt32}

/-- What a stride of the walk takes. -/
theorem x86_strides {place : Nat × UInt32} {rest : Bytes}
    (h : (x86Gait adjust start).Strides place rest) :
    ((x86Gait adjust start).cut place rest = 1 ∧
        ∃ opcode, (x86Gait adjust start).front place rest = [opcode]) ∨
      ((x86Gait adjust start).cut place rest = 5 ∧ ∃ opcode b₁ b₂ b₃ b₄,
        (x86Gait adjust start).front place rest = [opcode, b₁, b₂, b₃, b₄] ∧
          Convertible place.2 (leValue [b₁, b₂, b₃, b₄])) := by
  rcases five_cases rest with hshort | ⟨opcode, b₁, b₂, b₃, b₄, tail, rfl⟩
  · have hcut : (x86Gait adjust start).cut place rest = 0 := x86Cut_of_short hshort
    exact absurd h.1 (by rw [hcut]; decide)
  · have hlong : ¬ (opcode :: b₁ :: b₂ :: b₃ :: b₄ :: tail).length < 5 := by
      simp only [List.length_cons]
      omega
    by_cases hconverts : x86Converts place.2 (opcode :: b₁ :: b₂ :: b₃ :: b₄ :: tail) = true
    · have hcut : (x86Gait adjust start).cut place (opcode :: b₁ :: b₂ :: b₃ :: b₄ :: tail) = 5 := by
        show x86Cut place.2 (opcode :: b₁ :: b₂ :: b₃ :: b₄ :: tail) = 5
        rw [x86Cut, if_neg hlong, if_pos hconverts]
      refine .inr ⟨hcut, opcode, b₁, b₂, b₃, b₄, ?_, (x86Converts_iff.mp hconverts).2⟩
      rw [Gait.front, hcut]
      rfl
    · have hcut : (x86Gait adjust start).cut place (opcode :: b₁ :: b₂ :: b₃ :: b₄ :: tail) = 1 := by
        show x86Cut place.2 (opcode :: b₁ :: b₂ :: b₃ :: b₄ :: tail) = 1
        rw [x86Cut, if_neg hlong, if_neg hconverts]
      refine .inl ⟨hcut, opcode, ?_⟩
      rw [Gait.front, hcut]
      rfl

end strides

/-- Two adjustments that undo each other. -/
def Opposite (adjust back : UInt32 → UInt32 → UInt32) : Prop :=
  ∀ current, ∃ distance opposite, MovesBy adjust current distance ∧
    MovesBy back current opposite ∧ (distance + opposite) % 2 ^ 25 = 0

theorem opposite_add_sub : Opposite (· + ·) (· - ·) := by
  intro current
  have hlt := current.toNat_lt
  exact ⟨_, _, movesBy_add current, movesBy_sub current, by omega⟩

section steady

variable {adjust back : UInt32 → UInt32 → UInt32} (hopposite : Opposite adjust back)
  {start : UInt32}

include hopposite

/-- What is converted is still what the filter converts. -/
theorem x86Converts_operand (current : UInt32) {mask : UInt32} {opcode b₁ b₂ b₃ b₄ : UInt8}
    {tail : Bytes} (tail' : Bytes) (h : x86Converts mask (opcode :: b₁ :: b₂ :: b₃ :: b₄ :: tail) = true) :
    x86Converts mask (opcode :: x86Operand adjust current mask [b₁, b₂, b₃, b₄] ++ tail') = true := by
  obtain ⟨hbranch, hconvertible⟩ := x86Converts_iff.mp h
  obtain ⟨distance, opposite, hadjust, -, -⟩ := hopposite current
  have hfour : [b₁, b₂, b₃, b₄].length = 4 := rfl
  have hagain := convertible_x86Operand hadjust hfour hconvertible
  obtain ⟨o₁, o₂, o₃, o₄, ho⟩ := exists_operand adjust current mask [b₁, b₂, b₃, b₄]
  rw [ho] at hagain ⊢
  exact x86Converts_iff.mpr ⟨hbranch, hagain⟩

/-- The mask asks for nothing that is answered otherwise behind a walk. -/
theorem guards_walk (start : UInt32) (rest : Bytes) :
    ∀ place : Nat × UInt32, Guards place.2 rest ((x86Gait adjust start).walk place rest) := by
  induction hn : rest.length using Nat.strong_induction_on generalizing rest with
  | _ n ih =>
      intro place
      rcases five_cases rest with hshort | ⟨opcode, b₁, b₂, b₃, b₄, tail, rfl⟩
      · rw [walk_x86Short hshort]
        exact Guards.refl _ _
      · simp only [List.length_cons] at hn
        by_cases hconverts : x86Converts place.2 (opcode :: b₁ :: b₂ :: b₃ :: b₄ :: tail) = true
        · have hstill := x86Converts_operand hopposite (start + 5 + UInt32.ofNat place.1)
            ((x86Gait adjust start).walk (place.1 + 5, 0) tail) hconverts
          have htail := (ih tail.length (by omega) tail rfl (place.1 + 5, 0)).1
          rw [walk_convert hconverts]
          obtain ⟨o₁, o₂, o₃, o₄, ho⟩ := exists_operand adjust
            (start + 5 + UInt32.ofNat place.1) place.2 [b₁, b₂, b₃, b₄]
          rw [ho] at hstill ⊢
          refine ⟨by simp only [List.length_append, List.length_cons, List.length_nil, htail]; omega,
            rfl, fun i hi hbit => ?_⟩
          -- both times the mask asks for no sign and finds none
          exact (byteHas_of_not_refused (not_refused_of_converts hstill) hi hbit).trans
            (byteHas_of_not_refused (not_refused_of_converts hconverts) hi hbit).symm
        · have hpass := ih (b₁ :: b₂ :: b₃ :: b₄ :: tail).length
            (by simp only [List.length_cons]; omega) _ rfl (x86After place [opcode])
          rw [walk_pass (by simp only [List.length_cons]; omega) (Bool.not_eq_true _ ▸ hconverts)]
          exact hpass.pass

/-- The next stride is decided by what the walk keeps. -/
theorem x86Cut_walk (place : Nat × UInt32) (rest : Bytes) :
    x86Cut place.2 ((x86Gait adjust start).walk place rest) = x86Cut place.2 rest := by
  have hguards := guards_walk hopposite start rest place
  rcases five_cases rest with hshort | ⟨opcode, b₁, b₂, b₃, b₄, tail, rfl⟩
  · rw [walk_x86Short hshort]
  · have hconverts : x86Converts place.2 ((x86Gait adjust start).walk place
        (opcode :: b₁ :: b₂ :: b₃ :: b₄ :: tail))
          = x86Converts place.2 (opcode :: b₁ :: b₂ :: b₃ :: b₄ :: tail) := by
      by_cases hbefore : x86Converts place.2 (opcode :: b₁ :: b₂ :: b₃ :: b₄ :: tail) = true
      · rw [walk_convert hbefore, hbefore]
        exact x86Converts_operand hopposite _ _ hbefore
      · have hpassed : x86Converts place.2 (opcode :: b₁ :: b₂ :: b₃ :: b₄ :: tail) = false :=
          Bool.eq_false_iff.mpr hbefore
        have hfour : 4 ≤ (b₁ :: b₂ :: b₃ :: b₄ :: tail).length := by
          simp only [List.length_cons]
          omega
        have hhigh : isX86Branch opcode = true → byteHas ((x86Gait adjust start).walk place
            (opcode :: b₁ :: b₂ :: b₃ :: b₄ :: tail)) 4 testX86Msb
              = byteHas (opcode :: b₁ :: b₂ :: b₃ :: b₄ :: tail) 4 testX86Msb := by
          intro hbranch
          have hbehind := guards_walk hopposite start (b₁ :: b₂ :: b₃ :: b₄ :: tail)
            (x86After place [opcode])
          rw [walk_pass hfour hpassed]
          exact hbehind.2.2 2 (by decide) (testBit_branch hbranch)
        have hfirst : byteHas ((x86Gait adjust start).walk place
            (opcode :: b₁ :: b₂ :: b₃ :: b₄ :: tail)) 0 isX86Branch = isX86Branch opcode := by
          rw [byteHas, hguards.2.1]
          rfl
        have hopcode : byteHas (opcode :: b₁ :: b₂ :: b₃ :: b₄ :: tail) 0 isX86Branch
            = isX86Branch opcode := rfl
        rw [x86Converts, x86Converts, hfirst, hopcode, hguards.refused]
        by_cases hbranch : isX86Branch opcode = true
        · rw [hhigh hbranch]
        · rw [Bool.eq_false_iff.mpr hbranch, Bool.false_and, Bool.false_and, Bool.false_and]
    rw [x86Cut, x86Cut, hguards.1, hconverts]

theorem steady_x86Gait : (x86Gait adjust start).Steady where
  length_act {place rest} h := by
    rcases x86_strides h with ⟨hcut, opcode, hfront⟩ | ⟨hcut, _, _, _, _, _, hfront, -⟩
    · rw [hfront, hcut]
      rfl
    · rw [hfront, hcut]
      rfl
  cut_walk place rest := x86Cut_walk hopposite place rest
  next_act {place rest} h := by
    rcases x86_strides h with ⟨-, opcode, hfront⟩ | ⟨-, _, _, _, _, _, hfront, -⟩
    · rw [Gait.after, hfront]
      rfl
    · rw [Gait.after, hfront]
      rfl

/-- The opposite walk undoes the walk. -/
theorem x86Gait_back (place : Nat × UInt32) (rest : Bytes) :
    (x86Gait back start).walk place ((x86Gait adjust start).walk place rest) = rest := by
  have hcut : (x86Gait back start).cut = (x86Gait adjust start).cut := rfl
  have hnext : (x86Gait back start).next = (x86Gait adjust start).next := rfl
  refine (steady_x86Gait hopposite).walk_walk hcut hnext (fun {place rest} h => ?_) place rest
  obtain ⟨distance, opposite, hadjust, hback, hsum⟩ :=
    hopposite (start + 5 + UInt32.ofNat place.1)
  rcases x86_strides h with ⟨-, opcode, hfront⟩ |
    ⟨-, opcode, b₁, b₂, b₃, b₄, hfront, hconvertible⟩
  · rw [hfront]
    rfl
  · have hfour : [b₁, b₂, b₃, b₄].length = 4 := rfl
    have hundone := x86Operand_back hadjust hfour hback hsum hconvertible
    obtain ⟨o₁, o₂, o₃, o₄, ho⟩ := exists_operand adjust (start + 5 + UInt32.ofNat place.1) place.2
      [b₁, b₂, b₃, b₄]
    rw [hfront]
    show x86Act back start place (opcode :: x86Operand adjust (start + 5 + UInt32.ofNat place.1)
      place.2 [b₁, b₂, b₃, b₄]) = _
    rw [ho] at hundone ⊢
    show opcode :: x86Operand back (start + 5 + UInt32.ofNat place.1) place.2 [o₁, o₂, o₃, o₄] = _
    rw [hundone]

/-- And takes its strides at the same places. -/
theorem x86Gait_places (place : Nat × UInt32) (rest : Bytes) :
    ((x86Gait back start).fronts place ((x86Gait adjust start).walk place rest)).map Prod.fst
      = ((x86Gait adjust start).fronts place rest).map Prod.fst := by
  have hcut : (x86Gait back start).cut = (x86Gait adjust start).cut := rfl
  have hnext : (x86Gait back start).next = (x86Gait adjust start).next := rfl
  rw [Gait.fronts_congr hcut hnext, (steady_x86Gait hopposite).fronts_walk, List.map_map]
  rfl

end steady

/-! ### The loops of the source -/

section loops

variable {start mask : UInt32} {done tail : Bytes} {opcode b₁ b₂ b₃ b₄ : UInt8}

/-- The operand in front is rewritten. -/
theorem convertX86_done (hlen : done.length + 5 < 2 ^ 32) :
    (convertX86 start mask done.length (done ++ (opcode :: b₁ :: b₂ :: b₃ :: b₄ :: tail))).result
      = .ok (done ++ (opcode :: x86Operand (· - ·) (start + 5 + UInt32.ofNat done.length) mask
          [b₁, b₂, b₃, b₄] ++ tail)) := by
  generalize hcurrent : start + 5 + UInt32.ofNat done.length = current
  have hfour : [b₁, b₂, b₃, b₄].length = 4 := rfl
  have hdone : (done ++ [opcode]).length = done.length + 1 := by
    rw [List.length_append, List.length_singleton]
  have hbytes : done ++ (opcode :: b₁ :: b₂ :: b₃ :: b₄ :: tail)
      = (done ++ [opcode]) ++ ([b₁, b₂, b₃, b₄] ++ tail) := by
    rw [List.append_assoc]
    rfl
  have hread : (readU32Le (done ++ (opcode :: b₁ :: b₂ :: b₃ :: b₄ :: tail)) (done.length + 1)).result
      = .ok (u32FromLe [b₁, b₂, b₃, b₄]) := by
    rw [hbytes, ← hdone]
    exact readU32Le_done hfour (by omega)
  have hconvert : (
      if mask ≠ 0 then do
        let shift := (mask &&& 6) <<< 2
        let tested ← wordToByte (((u32FromLe [b₁, b₂, b₃, b₄] - current) >>> shift) &&& 0xff)
          "BCJ test byte is not representable"
        if testX86Msb tested then
          pure (((u32FromLe [b₁, b₂, b₃, b₄] - current) ^^^ ((0x100 : UInt32) <<< shift - 1))
            - current)
        else
          pure (u32FromLe [b₁, b₂, b₃, b₄] - current)
      else
        pure (u32FromLe [b₁, b₂, b₃, b₄] - current) : Work UInt32).result
      = .ok (x86Convert (· - ·) current mask (u32FromLe [b₁, b₂, b₃, b₄])) := by
    simp only [x86Convert]
    by_cases hmask : mask ≠ 0
    · rw [if_pos hmask, if_pos hmask]
      have hbyte : (((u32FromLe [b₁, b₂, b₃, b₄] - current) >>> ((mask &&& 6) <<< 2)) &&& 0xff).toNat
          < 256 := by
        rw [UInt32.toNat_and]
        exact Nat.lt_of_le_of_lt Nat.and_le_right (by decide)
      refine Metered.bind_eq_ok.mpr ⟨_, wordToByte_eq hbyte _, ?_⟩
      split <;> rfl
    · rw [if_neg hmask, if_neg hmask]
      rfl
  generalize hword : x86Convert (· - ·) current mask (u32FromLe [b₁, b₂, b₃, b₄]) = word at hconvert
  have hwrite : (writeWord (done ++ (opcode :: b₁ :: b₂ :: b₃ :: b₄ :: tail)) (done.length + 1)
      (u32ToLe word)).result = .ok ((done ++ [opcode]) ++ (u32ToLe word ++ tail)) := by
    rw [hbytes, ← hdone]
    exact writeWord_done hfour rfl (by omega)
  have hhigh : (byteAt ((done ++ [opcode]) ++ (u32ToLe word ++ tail)) (done.length + 4)
      "BCJ high-byte index is out of range").result = .ok (word >>> 24).toUInt8 := by
    rw [show done.length + 4 = (done ++ [opcode]).length + 3 by rw [hdone]]
    exact byteAt_front rfl _
  have hset : ((done ++ [opcode]) ++ (u32ToLe word ++ tail)).set (done.length + 4)
      ((0 : UInt8) - ((word >>> 24).toUInt8 &&& 1)) = done ++ (opcode :: extendSign (u32ToLe word) ++ tail) := by
    rw [List.append_assoc, List.set_append_right _ _ (Nat.le_add_right _ _), Nat.add_sub_cancel_left]
    rfl
  refine Metered.bind_eq_ok.mpr ⟨_, addOffset_ok (show done.length + 1 < 2 ^ 64 by omega) _,
    Metered.bind_eq_ok.mpr ⟨_, hread, Metered.bind_eq_ok.mpr
      ⟨_, orFormat_eq_ok.mpr (tryFrom_of_lt (show done.length < 2 ^ 32 by omega)), ?_⟩⟩⟩
  simp only [hcurrent]
  refine Metered.bind_eq_ok.mpr ⟨_, hconvert, Metered.bind_eq_ok.mpr ⟨_, hwrite,
    Metered.bind_eq_ok.mpr ⟨_, addOffset_ok (show done.length + 4 < 2 ^ 64 by omega) _,
      Metered.bind_eq_ok.mpr ⟨_, hhigh, ?_⟩⟩⟩⟩
  rw [x86Operand, hword, ← hset]
  rfl

/-- Where a scan for a branch ends: too close to the end of the input, or at a branch. -/
def ScanEnds (rest : Bytes) : Prop :=
  rest.length < 5 ∨ 5 ≤ rest.length ∧ byteHas rest 0 isX86Branch = true

/-- The inner loop passes what the walk passes. -/
theorem scanBranch_done (start : UInt32) {n scanEnd : Nat} (hn : n < 2 ^ 32) (hend : scanEnd + 4 = n) (fuel : Nat) :
    ∀ (done rest : Bytes) (mask : UInt32), done.length + rest.length = n →
      rest.length < fuel → ∃ (passed rest' : Bytes) (mask' : UInt32), rest = passed ++ rest' ∧
        (scanBranch scanEnd (done ++ rest) fuel done.length).result
          = .ok (done.length + passed.length) ∧
        mask'.toNat = mask.toNat / 2 ^ passed.length ∧ ScanEnds rest' ∧
        (x86Gait (· - ·) start).walk (done.length, mask) rest
          = passed ++ (x86Gait (· - ·) start).walk (done.length + passed.length, mask') rest' := by
  induction fuel with
  | zero => intro done rest mask _ hfuel; exact absurd hfuel (Nat.not_lt_zero _)
  | succ fuel ih =>
      intro done rest mask hlength hfuel
      have hhere (hresult : (scanBranch scanEnd (done ++ rest) (fuel + 1) done.length).result
          = .ok done.length) (hstop : ScanEnds rest) :
          ∃ (passed rest' : Bytes) (mask' : UInt32), rest = passed ++ rest' ∧
            (scanBranch scanEnd (done ++ rest) (fuel + 1) done.length).result
              = .ok (done.length + passed.length) ∧
            mask'.toNat = mask.toNat / 2 ^ passed.length ∧ ScanEnds rest' ∧
            (x86Gait (· - ·) start).walk (done.length, mask) rest
              = passed ++ (x86Gait (· - ·) start).walk (done.length + passed.length, mask') rest' :=
        ⟨[], rest, mask, rfl, hresult, (Nat.div_one _).symm, hstop, rfl⟩
      by_cases hlt : done.length < scanEnd
      · obtain ⟨byte, tail, rfl⟩ : ∃ byte tail, rest = byte :: tail := by
          cases rest with
          | nil =>
              rw [List.length_nil] at hlength
              omega
          | cons byte tail => exact ⟨byte, tail, rfl⟩
        rw [List.length_cons] at hlength hfuel
        have hbyte : (byteAt (done ++ byte :: tail) done.length
            "BCJ opcode index is out of range").result = .ok byte := 
          byteAt_done (show (byte :: tail)[0]? = some byte from rfl) _
        have hround {out : Nat} (h : (if isX86Branch byte then pure done.length else do
            let position ← addOffset done.length 1 "BCJ position overflows"
            scanBranch scanEnd (done ++ byte :: tail) fuel position : Work Nat).result = .ok out) :
            (scanBranch scanEnd (done ++ byte :: tail) (fuel + 1) done.length).result = .ok out := by
          rw [scanBranch, if_pos hlt]
          exact Metered.bind_eq_ok.mpr ⟨(), rfl, Metered.bind_eq_ok.mpr ⟨byte, hbyte, h⟩⟩
        by_cases hbranch : isX86Branch byte = true
        · refine hhere (hround ?_) (.inr ⟨by rw [List.length_cons]; omega, hbranch⟩)
          rw [if_pos hbranch]
          rfl
        · have hdone : (done ++ [byte]).length = done.length + 1 := by
            rw [List.length_append, List.length_singleton]
          have hpass : x86Converts mask (byte :: tail) = false := by
            have hopcode : byteHas (byte :: tail) 0 isX86Branch = isX86Branch byte := rfl
            rw [x86Converts, hopcode, Bool.eq_false_iff.mpr hbranch, Bool.false_and, Bool.false_and]
          have hafter : x86After (done.length, mask) [byte] = (done.length + 1, mask >>> 1) := by
            have hone : ¬ [byte].length = 5 := by
              rw [List.length_singleton]
              decide
            have hopcode : ¬ byteHas [byte] 0 isX86Branch = true := hbranch
            rw [x86After, if_neg hone, if_neg hopcode]
          obtain ⟨passed, rest', mask', rfl, hresult, hmask', hstop, hwalk⟩ :=
            ih (done ++ [byte]) tail (mask >>> 1) (by rw [hdone]; omega) (by omega)
          rw [hdone, List.append_assoc] at hresult
          rw [hdone] at hwalk
          refine ⟨byte :: passed, rest', mask', rfl, hround ?_, ?_, hstop, ?_⟩
          · rw [if_neg hbranch]
            refine Metered.bind_eq_ok.mpr ⟨_, addOffset_ok (show done.length + 1 < 2 ^ 64 by omega) _, ?_⟩
            rw [List.length_cons, Nat.add_comm passed.length, ← Nat.add_assoc]
            exact hresult
          · rw [hmask', toNat_half, List.length_cons, Nat.pow_succ', Nat.div_div_eq_div_mul]
          · rw [walk_pass (by omega) hpass, hafter, hwalk, List.length_cons,
              Nat.add_comm passed.length, ← Nat.add_assoc]
            rfl
      · refine hhere ?_ (.inl (by omega))
        rw [scanBranch, if_neg hlt]
        rfl

/-- The mask is tested against what is in front. -/
theorem maskRefuses_done {rest : Bytes} (hmask : MaskOK mask) (hlen : done.length + 5 < 2 ^ 64)
    (hrest : 5 ≤ rest.length) :
    (maskRefuses mask done.length (done ++ rest)).result = .ok (Refused rest 0 mask) := by
  unfold maskRefuses
  by_cases hne : mask ≠ 0
  · have hhalf : (mask >>> 1).toNat ≤ 3 := by
      unfold MaskOK at hmask
      rw [toNat_half]
      omega
    have hlt : (mask >>> 1).toNat + 1 < rest.length := by omega
    have htested := List.getElem?_eq_getElem hlt
    have hhas : byteHas rest (0 + (mask >>> 1).toNat + 1) testX86Msb
        = testX86Msb rest[(mask >>> 1).toNat + 1] := by
      rw [byteHas, Nat.zero_add, htested]
      rfl
    rw [if_pos hne, Refused, decide_eq_true hne, Bool.true_and, hhas]
    refine Metered.bind_eq_ok.mpr ⟨_, addOffset_ok (by omega) _, Metered.bind_eq_ok.mpr
      ⟨_, addOffset_ok (by omega) _, Metered.bind_eq_ok.mpr
        ⟨_, ?_, rfl⟩⟩⟩
    exact byteAt_done htested _
  · rw [if_neg hne, Refused, decide_eq_false hne, Bool.false_and]
    rfl

/-- The outer loop is the walk. -/
theorem x86From_done {n scanEnd : Nat} (hn : n < 2 ^ 32) (hend : scanEnd + 4 = n) (fuel : Nat) :
    ∀ (done rest : Bytes) (mask : UInt32), MaskOK mask → done.length + rest.length = n →
      rest.length < fuel → (x86From start scanEnd fuel done.length mask (done ++ rest)).result
        = .ok (done ++ (x86Gait (· - ·) start).walk (done.length, mask) rest) := by
  induction fuel with
  | zero => intro done rest mask _ _ hfuel; exact absurd hfuel (Nat.not_lt_zero _)
  | succ fuel ih =>
      intro done rest mask hmask hlength hfuel
      obtain ⟨passed, rest', mask', rfl, hfound, hmask', hstop, hwalk⟩ :=
        scanBranch_done start hn hend ((done ++ rest).length + 1) done rest mask hlength
          (by rw [List.length_append]; omega)
      rw [List.length_append] at hlength hfuel
      have hOK : MaskOK mask' := by
        unfold MaskOK at hmask ⊢
        rw [hmask']
        exact Nat.lt_of_le_of_lt (Nat.div_le_self _ _) hmask
      have hdistance : (orFormat (checkedSub (done.length + passed.length) done.length)
          "BCJ scan distance underflows").result = .ok passed.length := by
        refine orFormat_eq_ok.mpr ?_
        rw [checkedSub_of_le (Nat.le_add_right _ _), Nat.add_sub_cancel_left]
      have hdone : (done ++ passed).length = done.length + passed.length := List.length_append
      rw [x86From, hwalk]
      refine Metered.bind_eq_ok.mpr ⟨_, hfound, Metered.bind_eq_ok.mpr ⟨_, hdistance,
        Metered.bind_eq_ok.mpr ⟨_, shiftMask_eq hmask hmask', ?_⟩⟩⟩
      rw [← List.append_assoc, ← List.append_assoc, ← hdone]
      rcases hstop with hshort | ⟨hlong, hbranch⟩
      · rw [if_pos (by omega), walk_x86Short hshort]
        exact Metered.bind_eq_ok.mpr ⟨_, orFormat_eq_ok.mpr (tryFrom_of_lt (by omega)), rfl⟩
      · rw [if_neg (by omega)]
        generalize done ++ passed = before at hdone ⊢
        rcases five_cases rest' with hshort | ⟨opcode, b₁, b₂, b₃, b₄, tail, rfl⟩
        · omega
        · simp only [List.length_cons] at hlength hfuel hlong
          have hbranch : isX86Branch opcode = true := hbranch
          have hfour : 4 ≤ (b₁ :: b₂ :: b₃ :: b₄ :: tail).length := by
            simp only [List.length_cons]
            omega
          have hone : (before ++ [opcode]).length = before.length + 1 := by
            rw [List.length_append, List.length_singleton]
          -- where the branch is not converted the scan goes on with the next byte
          have hpass (hpassed : x86Converts mask' (opcode :: b₁ :: b₂ :: b₃ :: b₄ :: tail) = false) :
              (do
                let position ← addOffset before.length 1 "BCJ position overflows"
                x86From start scanEnd fuel position ((mask' >>> 1) ||| 4)
                  (before ++ opcode :: b₁ :: b₂ :: b₃ :: b₄ :: tail)).result
                = .ok (before ++ (x86Gait (· - ·) start).walk (before.length, mask')
                    (opcode :: b₁ :: b₂ :: b₃ :: b₄ :: tail)) := by
            have hrest := ih (before ++ [opcode]) (b₁ :: b₂ :: b₃ :: b₄ :: tail) ((mask' >>> 1) ||| 4)
              (maskOK_push hOK) (by simp only [List.length_cons, hone]; omega)
              (by simp only [List.length_cons]; omega)
            have hafter : x86After (before.length, mask') [opcode]
                = (before.length + 1, (mask' >>> 1) ||| 4) := by
              have hnot : ¬ [opcode].length = 5 := by
                rw [List.length_singleton]
                decide
              have hopcode : byteHas [opcode] 0 isX86Branch = true := hbranch
              rw [x86After, if_neg hnot, if_pos hopcode]
            rw [hone, List.append_assoc, List.append_assoc] at hrest
            rw [walk_pass hfour hpassed, hafter]
            exact Metered.bind_eq_ok.mpr ⟨_, addOffset_ok (by omega) _, hrest⟩
          have hfive : 5 ≤ (opcode :: b₁ :: b₂ :: b₃ :: b₄ :: tail).length := by
            simp only [List.length_cons]
            omega
          have hopcode : byteHas (opcode :: b₁ :: b₂ :: b₃ :: b₄ :: tail) 0 isX86Branch = true := hbranch
          have hhigh : byteHas (opcode :: b₁ :: b₂ :: b₃ :: b₄ :: tail) 4 testX86Msb = testX86Msb b₄ :=
            rfl
          refine Metered.bind_eq_ok.mpr ⟨_, maskRefuses_done hOK (by omega) hfive, ?_⟩
          by_cases hrefused : Refused (opcode :: b₁ :: b₂ :: b₃ :: b₄ :: tail) 0 mask' = true
          · rw [if_pos hrefused]
            refine hpass ?_
            rw [x86Converts, hrefused, Bool.not_true, Bool.and_false, Bool.false_and]
          · have hbyte : (byteAt (before ++ opcode :: b₁ :: b₂ :: b₃ :: b₄ :: tail) (before.length + 4)
                "BCJ high-byte index is out of range").result = .ok b₄ :=
              byteAt_done (show (opcode :: b₁ :: b₂ :: b₃ :: b₄ :: tail)[4]? = some b₄ from rfl) _
            rw [if_neg hrefused]
            refine Metered.bind_eq_ok.mpr ⟨_, addOffset_ok (by omega) _, Metered.bind_eq_ok.mpr
              ⟨b₄, hbyte, ?_⟩⟩
            by_cases hmsb : testX86Msb b₄ = true
            · have hconverts : x86Converts mask' (opcode :: b₁ :: b₂ :: b₃ :: b₄ :: tail) = true := by
                rw [x86Converts, hopcode, Bool.eq_false_iff.mpr hrefused, hhigh, hmsb]
                rfl
              obtain ⟨o₁, o₂, o₃, o₄, ho⟩ := exists_operand (· - ·)
                (start + 5 + UInt32.ofNat before.length) mask' [b₁, b₂, b₃, b₄]
              have hstep : (before ++ [opcode, o₁, o₂, o₃, o₄]).length = before.length + 5 :=
                List.length_append
              have hrest := ih (before ++ [opcode, o₁, o₂, o₃, o₄]) tail 0 maskOK_zero
                (by rw [hstep]; omega) (by omega)
              have hwritten : (convertX86 start mask' before.length
                  (before ++ opcode :: b₁ :: b₂ :: b₃ :: b₄ :: tail)).result = .ok (before ++
                    (opcode :: x86Operand (· - ·) (start + 5 + UInt32.ofNat before.length) mask'
                      [b₁, b₂, b₃, b₄] ++ tail)) := convertX86_done (by omega)
              rw [hstep, List.append_assoc, List.append_assoc] at hrest
              rw [ho] at hwritten
              rw [if_pos hmsb, walk_convert hconverts, ho]
              exact Metered.bind_eq_ok.mpr ⟨_, hwritten, Metered.bind_eq_ok.mpr
                ⟨_, addOffset_ok (by omega) _, hrest⟩⟩
            · rw [if_neg hmsb]
              refine hpass ?_
              rw [x86Converts, hhigh, Bool.eq_false_iff.mpr hmsb, Bool.and_false]

end loops

/-- The filter is the walk that subtracts. -/
theorem decodeX86Bcj_walk {properties : Bytes} {start : UInt32}
    (hstart : (startingPosition properties).result = .ok start) {bytes : Bytes}
    (hlen : bytes.length < 2 ^ 32) :
    (decodeX86Bcj properties bytes).result
      = .ok ((x86Gait (· - ·) start).walk (0, 0) bytes) := by
  refine Metered.bind_eq_ok.mpr ⟨_, addOffset_ok (show 4 + 1 < 2 ^ 64 by decide) _, ?_⟩
  by_cases hshort : bytes.length < 4 + 1
  · rw [if_pos hshort, walk_x86Short hshort]
    rfl
  · have hend : checkedSub bytes.length 4 = some (bytes.length - 4) := checkedSub_of_le (by omega)
    rw [if_neg hshort]
    refine Metered.bind_eq_ok.mpr ⟨_, orFormat_eq_ok.mpr hend, Metered.bind_eq_ok.mpr
      ⟨start, hstart, ?_⟩⟩
    exact x86From_done hlen (by omega) (bytes.length + 1) [] bytes 0 maskOK_zero (Nat.zero_add _)
      (Nat.lt_succ_self _)

/-- The x86 encoder: the walk of the filter, which adds where the filter subtracts. -/
def encodeX86Bcj (start : UInt32) (bytes : Bytes) : Bytes :=
  (x86Gait (· + ·) start).walk (0, 0) bytes

theorem length_encodeX86Bcj (start : UInt32) (bytes : Bytes) :
    (encodeX86Bcj start bytes).length = bytes.length :=
  Gait.length_walk (steady_x86Gait opposite_add_sub).length_act _ _

/--
**Decoding undoes encoding.**

From every start position, what is encoded is decoded to what it was; and the decoder goes
through the same places as the encoder, a place being a position and the mask there.
-/
theorem decodeX86Bcj_encode {properties : Bytes} {start : UInt32}
    (hstart : (startingPosition properties).result = .ok start) {bytes : Bytes}
    (hlen : bytes.length < 2 ^ 32) :
    (decodeX86Bcj properties (encodeX86Bcj start bytes)).result = .ok bytes ∧
      ((x86Gait (· - ·) start).fronts (0, 0) (encodeX86Bcj start bytes)).map Prod.fst
        = ((x86Gait (· + ·) start).fronts (0, 0) bytes).map Prod.fst := by
  refine ⟨?_, x86Gait_places opposite_add_sub (0, 0) bytes⟩
  have hencoded : (encodeX86Bcj start bytes).length < 2 ^ 32 := by rwa [length_encodeX86Bcj]
  rw [decodeX86Bcj_walk hstart hencoded, encodeX86Bcj, x86Gait_back opposite_add_sub]

/-- Two calls, one in the operand of the other. -/
theorem decodeX86Bcj_encode_calls :
    (decodeX86Bcj [1, 0, 0, 0] (encodeX86Bcj 1 [0xe8, 0xe8, 0, 0, 0, 0, 0xff])).result
        = .ok [0xe8, 0xe8, 0, 0, 0, 0, 0xff] ∧
      ((x86Gait (· - ·) 1).fronts (0, 0) (encodeX86Bcj 1 [0xe8, 0xe8, 0, 0, 0, 0, 0xff])).map Prod.fst
        = ((x86Gait (· + ·) 1).fronts (0, 0) [0xe8, 0xe8, 0, 0, 0, 0, 0xff]).map Prod.fst :=
  have hstart : (startingPosition [1, 0, 0, 0]).result = .ok 1 := rfl
  decodeX86Bcj_encode hstart (by decide)

end Filters

end Un7z
