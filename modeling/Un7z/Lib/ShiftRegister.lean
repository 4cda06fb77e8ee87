/-
Remainders by a polynomial, in a shift register.

A register of `w` bits takes the bits of a message one at a time.  It goes one place down,
and the polynomial is added when the bit that falls out and the bit that comes in differ.
This divides the message by a polynomial over two elements whose highest coefficient is
left out, both written with the highest power lowest, and what is in the register at the
end is the remainder.

Such a register is linear (`shift_xor`), so the low bits of it can be taken through several
places by themselves, which is what a table holds, while the bits above them only come down
(`shifts_split`).  A word that comes in bit by bit might as well be added to the register
at once (`remainder_lsb`).
-/
import Un7z.Lib.BitString

namespace ShiftRegister

open BitString (lsb)

variable {w : Nat}

/-- One place down, with nothing coming in. -/
def shift (poly r : BitVec w) : BitVec w := if r.getLsbD 0 then (r >>> 1) ^^^ poly else r >>> 1

def shifts (poly : BitVec w) : Nat → BitVec w → BitVec w
  | 0, r => r
  | count + 1, r => shifts poly count (shift poly r)

/-- One place down, with a bit coming in. -/
def feed (poly r : BitVec w) (bit : Bool) : BitVec w :=
  if r.getLsbD 0 != bit then (r >>> 1) ^^^ poly else r >>> 1

/-- The register once the bits of a message have come in. -/
def remainder (poly : BitVec w) (bits : List Bool) (r : BitVec w) : BitVec w :=
  bits.foldl (feed poly) r

variable {poly r a b : BitVec w} {count number : Nat}

theorem remainder_append (left right : List Bool) :
    remainder poly (left ++ right) r = remainder poly right (remainder poly left r) :=
  List.foldl_append

/-! ### Linearity -/

theorem xor_xor_cancel (a b c : BitVec w) : (a ^^^ c) ^^^ (b ^^^ c) = a ^^^ b := by
  rw [BitVec.xor_comm b c, BitVec.xor_assoc, ← BitVec.xor_assoc c c b, BitVec.xor_self,
    BitVec.zero_xor]

theorem shift_xor : shift poly (a ^^^ b) = shift poly a ^^^ shift poly b := by
  unfold shift
  rw [BitVec.getLsbD_xor, BitVec.ushiftRight_xor_distrib]
  cases a.getLsbD 0 with
  | false =>
      cases b.getLsbD 0 with
      | false => rfl
      | true => exact BitVec.xor_assoc _ _ _
  | true =>
      cases b.getLsbD 0 with
      | false =>
          show ((a >>> 1) ^^^ (b >>> 1)) ^^^ poly = ((a >>> 1) ^^^ poly) ^^^ (b >>> 1)
          rw [BitVec.xor_assoc, BitVec.xor_comm (b >>> 1), ← BitVec.xor_assoc]
      | true => exact (xor_xor_cancel _ _ _).symm

theorem shifts_xor (count : Nat) : ∀ a b : BitVec w,
    shifts poly count (a ^^^ b) = shifts poly count a ^^^ shifts poly count b := by
  induction count with
  | zero => intro a b; rfl
  | succ count ih =>
      intro a b
      rw [shifts, shifts, shifts, shift_xor, ih]

/-- While only zeros fall out the register just comes down. -/
theorem shifts_of_zeros (count : Nat) : ∀ r : BitVec w, (∀ i < count, r.getLsbD i = false) →
    shifts poly count r = r >>> count := by
  induction count with
  | zero => intro r _; exact (BitVec.ushiftRight_zero r).symm
  | succ count ih =>
      intro r h
      have hshift : shift poly r = r >>> 1 := by
        rw [shift, if_neg (by rw [h 0 (Nat.succ_pos _)]; decide)]
      rw [shifts, hshift, ih _ fun i hi => ?_, ← BitVec.shiftRight_add, Nat.add_comm]
      rw [BitVec.getLsbD_ushiftRight, Nat.add_comm]
      exact h (i + 1) (by omega)

/-- The low bits of a register, and nothing above them. -/
def low (count : Nat) (r : BitVec w) : BitVec w := (r.setWidth count).setWidth w

theorem getLsbD_low (i : Nat) : (low count r).getLsbD i = (decide (i < count) && r.getLsbD i) := by
  rw [low, BitVec.getLsbD_setWidth, BitVec.getLsbD_setWidth]
  by_cases hi : i < w
  · rw [decide_eq_true hi, Bool.true_and]
  · rw [decide_eq_false hi, Bool.false_and, BitVec.getLsbD_of_ge r i (Nat.not_lt.mp hi), Bool.and_false]

/-- The low bits go through the places, and the others come down to them. -/
theorem shifts_split (count : Nat) (r : BitVec w) :
    shifts poly count r = shifts poly count (low count r) ^^^ (r >>> count) := by
  have hsplit : r = low count r ^^^ (r ^^^ low count r) := by
    rw [BitVec.xor_comm r, ← BitVec.xor_assoc, BitVec.xor_self, BitVec.zero_xor]
  have hzeros : ∀ i < count, (r ^^^ low count r).getLsbD i = false := by
    intro i hi
    rw [BitVec.getLsbD_xor, getLsbD_low, decide_eq_true hi, Bool.true_and, Bool.xor_self]
  have hhigh : (r ^^^ low count r) >>> count = r >>> count := by
    apply BitVec.eq_of_getLsbD_eq
    intro i _
    rw [BitVec.getLsbD_ushiftRight, BitVec.getLsbD_ushiftRight, BitVec.getLsbD_xor, getLsbD_low,
      decide_eq_false (by omega), Bool.false_and, Bool.xor_false]
  conv =>
    lhs
    rw [hsplit]
  rw [shifts_xor, shifts_of_zeros count _ hzeros, hhigh]

/-! ### Words -/

theorem ushiftRight_ofNat (h : number < 2 ^ w) :
    (BitVec.ofNat w number) >>> 1 = BitVec.ofNat w (number / 2) := by
  apply BitVec.eq_of_toNat_eq
  rw [BitVec.toNat_ushiftRight, BitVec.toNat_ofNat, BitVec.toNat_ofNat, Nat.mod_eq_of_lt h,
    Nat.mod_eq_of_lt (by omega), Nat.shiftRight_eq_div_pow, Nat.pow_one]

/-- The lowest bit of a word comes in, and the rest of it is added. -/
theorem feed_xor (hw : 0 < w) (h : number < 2 ^ w) :
    feed poly r (decide (number % 2 = 1)) ^^^ BitVec.ofNat w (number / 2)
      = shift poly (r ^^^ BitVec.ofNat w number) := by
  have hbit : (r ^^^ BitVec.ofNat w number).getLsbD 0
      = (r.getLsbD 0 != decide (number % 2 = 1)) := by
    rw [BitVec.getLsbD_xor, BitVec.getLsbD_ofNat, decide_eq_true hw, Bool.true_and, Nat.testBit_zero]
  rw [shift, feed, hbit, BitVec.ushiftRight_xor_distrib, ushiftRight_ofNat h]
  by_cases hone : (r.getLsbD 0 != decide (number % 2 = 1)) = true
  · rw [if_pos hone, if_pos hone, BitVec.xor_assoc, BitVec.xor_comm poly, BitVec.xor_assoc]
  · rw [if_neg hone, if_neg hone]

/-- A word that comes in, the low bit first, is as if it were added to the register. -/
theorem remainder_lsb (count : Nat) (hcount : count ≤ w) : ∀ (r : BitVec w) (number : Nat),
    number < 2 ^ count →
      remainder poly (lsb count number) r = shifts poly count (r ^^^ BitVec.ofNat w number) := by
  induction count with
  | zero =>
      intro r number hnumber
      rw [Nat.pow_zero] at hnumber
      rw [Nat.lt_one_iff.mp hnumber, BitVec.xor_zero]
      rfl
  | succ count ih =>
      intro r number hnumber
      have hword : number < 2 ^ w :=
        Nat.lt_of_lt_of_le hnumber (Nat.pow_le_pow_right (by decide) hcount)
      have hhalf : number / 2 < 2 ^ count := by
        rw [Nat.pow_succ] at hnumber
        omega
      rw [lsb, shifts, ← feed_xor (by omega) hword]
      exact ih (by omega) _ _ hhalf

end ShiftRegister
