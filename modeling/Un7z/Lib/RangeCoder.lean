/-
Binary range coding.

A range coder narrows an interval of numbers, one decision at a time, and the number it
writes is one that all these intervals hold.  To go on with words of a fixed width it
scales the interval by 256 where it has become narrow; the digit above the word is then
settled, but for a carry.  The `Encoder` keeps back the digits a carry may still run
through, which are one digit and a number of 255s behind it.

Two things are shown here, and they are independent of what is encoded.  What an encoder
writes are the digits of the lower end of its interval (`Encoder.flush_eq`).  And a decoder
that `Follows` an interval, which is to say that it knows the written number up to the
digits it has not read, can tell which part of the interval holds that number, and follows
that part (`Follows.narrow`, `Follows.shift`).
-/
import Mathlib.Algebra.Group.Nat.Defs
import Mathlib.Logic.Function.Basic

namespace RangeCoder

/-! ### Digits -/

/-- So many digits of a number to the base 256, the high one first. -/
def digits : Nat → Nat → List UInt8
  | 0, _ => []
  | count + 1, number => UInt8.ofNat (number / 256 ^ count) :: digits count number

/-- The number that digits stand for. -/
def value : List UInt8 → Nat
  | [] => 0
  | digit :: rest => digit.toNat * 256 ^ rest.length + value rest

@[simp] theorem length_digits (count : Nat) : ∀ number, (digits count number).length = count := by
  induction count with
  | zero => intro number; rfl
  | succ count ih => intro number; rw [digits, List.length_cons, ih]

theorem value_lt (bytes : List UInt8) : value bytes < 256 ^ bytes.length := by
  induction bytes with
  | nil => exact Nat.one_pos
  | cons digit rest ih =>
      have hdigit : (digit.toNat + 1) * 256 ^ rest.length ≤ 256 * 256 ^ rest.length :=
        Nat.mul_le_mul_right _ digit.toNat_lt
      rw [Nat.add_mul, Nat.one_mul] at hdigit
      rw [value, List.length_cons, Nat.pow_succ']
      omega

theorem value_append (a b : List UInt8) : value (a ++ b) = value a * 256 ^ b.length + value b := by
  induction a with
  | nil => rw [List.nil_append, value, Nat.zero_mul, Nat.zero_add]
  | cons digit rest ih =>
      rw [List.cons_append, value, value, ih, List.length_append, Nat.pow_add, Nat.add_mul,
        Nat.mul_assoc, Nat.add_assoc]

/-- Digits above those that are asked for do not matter. -/
theorem digits_add_mul (count : Nat) :
    ∀ high number, digits count (high * 256 ^ count + number) = digits count number := by
  induction count with
  | zero => intro high number; rfl
  | succ count ih =>
      intro high number
      have hpos : 0 < 256 ^ count := Nat.pow_pos (by decide)
      have hsplit : high * 256 ^ (count + 1) + number = high * 256 * 256 ^ count + number := by
        rw [Nat.pow_succ', Nat.mul_assoc]
      have hdigit : UInt8.ofNat ((high * 256 * 256 ^ count + number) / 256 ^ count)
          = UInt8.ofNat (number / 256 ^ count) := by
        refine UInt8.toNat_inj.mp ?_
        rw [Nat.mul_comm _ (256 ^ count), Nat.mul_add_div hpos, UInt8.toNat_ofNat', UInt8.toNat_ofNat']
        omega
      rw [hsplit, digits, digits, hdigit, ih]

theorem digits_value (bytes : List UInt8) : digits bytes.length (value bytes) = bytes := by
  induction bytes with
  | nil => rfl
  | cons digit rest ih =>
      have hpos : 0 < 256 ^ rest.length := Nat.pow_pos (by decide)
      rw [List.length_cons, digits, value, digits_add_mul, ih, Nat.mul_comm,
        Nat.mul_add_div hpos, Nat.div_eq_of_lt (value_lt rest), Nat.add_zero, UInt8.ofNat_toNat]

theorem value_digits (count number : Nat) : value (digits count number) = number % 256 ^ count := by
  induction count with
  | zero => rw [digits, value, Nat.pow_zero, Nat.mod_one]
  | succ count ih =>
      have hsplit : number % 256 ^ (count + 1)
          = number % 256 ^ count + 256 ^ count * (number / 256 ^ count % 256) := Nat.mod_pow_succ
      rw [hsplit, digits, value, ih, length_digits, UInt8.toNat_ofNat', Nat.add_comm, Nat.mul_comm]

theorem digits_append (a b number : Nat) :
    digits (a + b) number = digits a (number / 256 ^ b) ++ digits b number := by
  induction a with
  | zero => rw [Nat.zero_add, digits, List.nil_append]
  | succ a ih =>
      rw [Nat.succ_add, digits, digits, ih, Nat.div_div_eq_div_mul, ← Nat.pow_add, Nat.add_comm b a,
        List.cons_append]

/-! ### Intervals -/

/-- The numbers from `low` on, as many as `range`, scaled by so many digits. -/
structure Interval where
  low : Nat
  range : Nat
  shifts : Nat

namespace Interval

/-- Before anything has been encoded. -/
def start : Interval := ⟨0, 2 ^ 32 - 1, 0⟩

/-- A part of it. -/
def narrow (s : Interval) (offset width : Nat) : Interval := ⟨s.low + offset, width, s.shifts⟩

/-- The same numbers with one more digit. -/
def shift (s : Interval) : Interval := ⟨s.low * 256, s.range * 256, s.shifts + 1⟩

/-- Scaled where it has become narrow. -/
def normalize (s : Interval) : Interval := if s.range < 2 ^ 24 then s.shift else s

/-- It holds a number that is given with `n` more digits than a start. -/
def Holds (s : Interval) (n number : Nat) : Prop :=
  s.shifts ≤ n ∧ s.low * 256 ^ (n - s.shifts) ≤ number ∧
    number < (s.low + s.range) * 256 ^ (n - s.shifts)

variable {s : Interval} {n number : Nat}

theorem holds_low (h : 0 < s.range) : s.Holds s.shifts s.low := by
  refine ⟨Nat.le_refl _, Nat.le_of_eq ?_, ?_⟩
  · rw [Nat.sub_self, Nat.pow_zero, Nat.mul_one]
  · rw [Nat.sub_self, Nat.pow_zero, Nat.mul_one]
    omega

theorem holds_of_narrow {offset width : Nat} (hpart : offset + width ≤ s.range)
    (h : (s.narrow offset width).Holds n number) : s.Holds n number := by
  obtain ⟨hshifts, hlow, hhigh⟩ := h
  refine ⟨hshifts, Nat.le_trans (Nat.mul_le_mul_right _ (Nat.le_add_right _ _)) hlow,
    Nat.lt_of_lt_of_le hhigh (Nat.mul_le_mul_right _ ?_)⟩
  show s.low + offset + width ≤ s.low + s.range
  omega

theorem holds_of_shift (h : s.shift.Holds n number) : s.Holds n number := by
  obtain ⟨hshifts, hlow, hhigh⟩ := h
  have hshifts : s.shifts + 1 ≤ n := hshifts
  have hpow : 256 ^ (n - s.shifts) = 256 * 256 ^ (n - (s.shifts + 1)) := by
    rw [← Nat.pow_succ']
    congr 1
    omega
  refine ⟨by omega, ?_, ?_⟩
  · rw [hpow, ← Nat.mul_assoc]
    exact hlow
  · rw [hpow, ← Nat.mul_assoc, Nat.add_mul]
    exact hhigh

theorem holds_of_normalize (h : s.normalize.Holds n number) : s.Holds n number := by
  unfold normalize at h
  by_cases hnarrow : s.range < 2 ^ 24
  · rw [if_pos hnarrow] at h
    exact holds_of_shift h
  · rwa [if_neg hnarrow] at h

end Interval

/-! ### Decoders -/

/-- A decoder knows how far the number is above the interval, as far as it has read it. -/
def Follows (s : Interval) (n number code : Nat) (rest : List UInt8) : Prop :=
  s.Holds n number ∧ code + s.low = number / 256 ^ (n - s.shifts) ∧
    rest = digits (n - s.shifts) number

namespace Follows

variable {s : Interval} {n number code : Nat} {rest : List UInt8} (h : Follows s n number code rest)

include h

theorem code_lt : code < s.range := by
  obtain ⟨⟨-, -, hhigh⟩, hcode, -⟩ := h
  have hlt : number / 256 ^ (n - s.shifts) < s.low + s.range :=
    Nat.div_lt_of_lt_mul (by rwa [Nat.mul_comm] at hhigh)
  omega

/-- The code tells which part holds the number. -/
theorem narrow {offset width : Nat} (hpart : (s.narrow offset width).Holds n number) :
    offset ≤ code ∧ code < offset + width ∧
      Follows (s.narrow offset width) n number (code - offset) rest := by
  obtain ⟨-, hcode, hrest⟩ := h
  have hpos : 0 < 256 ^ (n - s.shifts) := Nat.pow_pos (by decide)
  have hlow : s.low + offset ≤ number / 256 ^ (n - s.shifts) :=
    (Nat.le_div_iff_mul_le hpos).mpr hpart.2.1
  have hhigh : number / 256 ^ (n - s.shifts) < s.low + offset + width :=
    Nat.div_lt_of_lt_mul (by
      have hlt := hpart.2.2
      rwa [Nat.mul_comm] at hlt)
  refine ⟨by omega, by omega, hpart, ?_, hrest⟩
  show code - offset + (s.low + offset) = number / 256 ^ (n - s.shifts)
  omega

/-- And reading one more digit is all that scaling takes. -/
theorem shift (hshift : s.shift.Holds n number) : ∃ digit tail, rest = digit :: tail ∧
    Follows s.shift n number (code * 256 + digit.toNat) tail := by
  obtain ⟨-, hcode, hrest⟩ := h
  have hshifts : s.shifts + 1 ≤ n := hshift.1
  have hcount : n - s.shifts = n - (s.shifts + 1) + 1 := by omega
  have hpow : 256 ^ (n - s.shifts) = 256 ^ (n - (s.shifts + 1)) * 256 := by
    rw [hcount, Nat.pow_succ]
  refine ⟨UInt8.ofNat (number / 256 ^ (n - (s.shifts + 1))), digits (n - (s.shifts + 1)) number, ?_,
    hshift, ?_, rfl⟩
  · rw [hrest, hcount, digits]
  · have hdiv : number / 256 ^ (n - s.shifts) = number / 256 ^ (n - (s.shifts + 1)) / 256 := by
      rw [hpow, Nat.div_div_eq_div_mul]
    rw [hdiv] at hcode
    show code * 256 + (UInt8.ofNat (number / 256 ^ (n - (s.shifts + 1)))).toNat + s.low * 256
      = number / 256 ^ (n - (s.shifts + 1))
    rw [UInt8.toNat_ofNat']
    omega

end Follows

/-- A decoder starts by reading five digits, of which the first is zero. -/
theorem follows_start {n number : Nat} (h : Interval.start.Holds n number) :
    digits (n + 5) number = 0 :: (digits 4 (number / 256 ^ n) ++ digits n number) ∧
      number / 256 ^ n < 2 ^ 32 ∧
      Follows Interval.start n number (number / 256 ^ n) (digits n number) := by
  have hlt : number / 256 ^ n < 2 ^ 32 - 1 := by
    have hhigh : number < (0 + (2 ^ 32 - 1)) * 256 ^ n := h.2.2
    rw [Nat.zero_add, Nat.mul_comm] at hhigh
    exact Nat.div_lt_of_lt_mul hhigh
  have hzero : number / 256 ^ n / 256 ^ 4 = 0 := Nat.div_eq_of_lt (by omega)
  refine ⟨?_, by omega, h, rfl, rfl⟩
  rw [Nat.add_comm, digits_append, show (5 : Nat) = 4 + 1 from rfl, digits, hzero]
  rfl

/-! ### Encoders -/

/-- An encoder with words: what is above 32 bits in `low` is a carry. -/
structure Encoder where
  low : Nat
  range : Nat
  /-- The digit that is kept back. -/
  cache : UInt8
  /-- How many digits are kept back; all but the first are 255. -/
  pending : Nat
  out : List UInt8

namespace Encoder

def start : Encoder := ⟨0, 2 ^ 32 - 1, 0, 1, []⟩

/-- Shift the high digit of the word out, or keep it back. -/
def shiftLow (e : Encoder) : Encoder :=
  if e.low < 0xff000000 ∨ 2 ^ 32 ≤ e.low then
    let carry := UInt8.ofNat (e.low / 2 ^ 32)
    { e with
      low := e.low % 2 ^ 24 * 256
      cache := UInt8.ofNat (e.low / 2 ^ 24)
      pending := 1
      out := e.out ++ (e.cache + carry) :: List.replicate (e.pending - 1) (0xff + carry) }
  else
    { e with low := e.low % 2 ^ 24 * 256, pending := e.pending + 1 }

def narrow (e : Encoder) (offset width : Nat) : Encoder :=
  { e with low := e.low + offset, range := width }

def normalize (e : Encoder) : Encoder :=
  if e.range < 2 ^ 24 then { e.shiftLow with range := e.range * 256 } else e

/-- Shift out all of the word. -/
def flush (e : Encoder) : List UInt8 := e.shiftLow.shiftLow.shiftLow.shiftLow.shiftLow.out

/-- The number that the digits kept back stand for. -/
def held (e : Encoder) : Nat := e.cache.toNat * 256 ^ (e.pending - 1) + (256 ^ (e.pending - 1) - 1)

/-- The encoder stands at the lower end `low` of an interval of this range, and no carry from
within the interval runs over the digits it has kept back. -/
structure At (e : Encoder) (low range shifts : Nat) : Prop where
  pending_pos : 0 < e.pending
  length : e.out.length + e.pending = shifts + 1
  low_eq : low = (value e.out * 256 ^ e.pending + e.held) * 2 ^ 32 + e.low
  room : e.held * 2 ^ 32 + e.low + range ≤ 256 ^ e.pending * 2 ^ 32
  word : e.low + range ≤ 2 ^ 33

theorem at_start : At start 0 (2 ^ 32 - 1) 0 := by
  refine ⟨Nat.one_pos, rfl, rfl, ?_, ?_⟩
  · show 0 * 2 ^ 32 + 0 + (2 ^ 32 - 1) ≤ 256 * 2 ^ 32
    omega
  · show 0 + (2 ^ 32 - 1) ≤ 2 ^ 33
    omega

variable {e : Encoder} {low range shifts : Nat}

theorem At.mono (h : e.At low range shifts) {less : Nat} (hle : less ≤ range) :
    e.At low less shifts := by
  obtain ⟨hpending, hlength, hlow, hroom, hword⟩ := h
  exact ⟨hpending, hlength, hlow, by omega, by omega⟩

theorem At.narrow (h : e.At low range shifts) {offset width : Nat} (hpart : offset + width ≤ range) :
    (e.narrow offset width).At (low + offset) width shifts := by
  obtain ⟨hpending, hlength, hlow, hroom, hword⟩ := h
  have hheld : (e.narrow offset width).held = e.held := rfl
  refine ⟨hpending, hlength, ?_, ?_, ?_⟩
  · show low + offset = (value e.out * 256 ^ e.pending + e.held) * 2 ^ 32 + (e.low + offset)
    omega
  · show e.held * 2 ^ 32 + (e.low + offset) + width ≤ 256 ^ e.pending * 2 ^ 32
    omega
  · show e.low + offset + width ≤ 2 ^ 33
    omega

theorem value_replicate (count : Nat) (digit : UInt8) :
    value (List.replicate count digit) * 255 = digit.toNat * (256 ^ count - 1) := by
  have hsum (power : Nat) (hpos : 0 < power) : power * 255 + (power - 1) = power * 256 - 1 := by
    omega
  induction count with
  | zero =>
      show 0 * 255 = digit.toNat * 0
      rw [Nat.zero_mul, Nat.mul_zero]
  | succ count ih =>
      have hpos : 0 < 256 ^ count := Nat.pow_pos (by decide)
      rw [List.replicate_succ, value, List.length_replicate, Nat.add_mul, ih, Nat.mul_assoc,
        ← Nat.mul_add, Nat.pow_succ]
      rw [hsum (256 ^ count) hpos]

/-- The digits that are written when it is known whether a carry runs through them. -/
theorem value_written (hpending : 0 < e.pending) {carry : Nat}
    (hcarry : carry = 0 ∨ carry = 1 ∧ e.held + 1 < 256 ^ e.pending) :
    value ((e.cache + UInt8.ofNat carry) :: List.replicate (e.pending - 1) (0xff + UInt8.ofNat carry))
      = e.held + carry := by
  have hpos : 0 < 256 ^ (e.pending - 1) := Nat.pow_pos (by decide)
  rw [value, List.length_replicate, held]
  rcases hcarry with rfl | ⟨rfl, hroom⟩
  · have hdigits := value_replicate (e.pending - 1) 0xff
    have hsame : ((0xff : UInt8) + UInt8.ofNat 0) = 0xff := rfl
    have hcache : e.cache + UInt8.ofNat 0 = e.cache := UInt8.add_zero _
    rw [show (0xff : UInt8).toNat = 255 from rfl, Nat.mul_comm 255] at hdigits
    rw [hsame, hcache, Nat.eq_of_mul_eq_mul_right (by decide) hdigits, Nat.add_zero]
  · have hdigits := value_replicate (e.pending - 1) 0
    have hzero : ((0xff : UInt8) + UInt8.ofNat 1) = 0 := rfl
    have hpow : 256 ^ e.pending = 256 * 256 ^ (e.pending - 1) := by
      rw [← Nat.pow_succ']
      congr 1
      omega
    have hlt : e.cache.toNat + 1 < 256 := by
      rw [held, hpow] at hroom
      refine Nat.lt_of_mul_lt_mul_right (a := 256 ^ (e.pending - 1)) ?_
      rw [Nat.add_mul, Nat.one_mul]
      omega
    have hcache : (e.cache + UInt8.ofNat 1).toNat = e.cache.toNat + 1 := by
      rw [UInt8.toNat_add]
      exact Nat.mod_eq_of_lt hlt
    rw [show (0 : UInt8).toNat = 0 from rfl, Nat.zero_mul] at hdigits
    rw [hzero, hcache, (Nat.mul_eq_zero.mp hdigits).resolve_right (by decide), Nat.add_mul]
    omega

section words

variable {low range : Nat}

theorem room_settled (hsettled : low < 0xff000000 ∨ 2 ^ 32 ≤ low) (hrange : range < 2 ^ 24)
    (hword : low + range ≤ 2 ^ 33) :
    low / 2 ^ 24 % 256 * 2 ^ 32 + low % 2 ^ 24 * 256 + range * 256 ≤ 256 * 2 ^ 32 := by
  omega

theorem word_next (low : Nat) (hrange : range < 2 ^ 24) :
    low % 2 ^ 24 * 256 + range * 256 ≤ 2 ^ 33 := by
  omega

/-- A word whose high digit is settled, and its carry. -/
theorem split_settled (low high : Nat) :
    (high * 2 ^ 32 + low) * 256
      = ((high + low / 2 ^ 32) * 256 + low / 2 ^ 24 % 256) * 2 ^ 32 + low % 2 ^ 24 * 256 := by
  omega

/-- A word with a carry to come. -/
theorem split_pending (hlow : 0xff000000 ≤ low) (hword : low < 2 ^ 32) (high : Nat) :
    (high * 2 ^ 32 + low) * 256 = (high * 256 + 255) * 2 ^ 32 + low % 2 ^ 24 * 256 := by
  omega

end words

/-- What is kept back when one more digit is. -/
theorem held_pending (hpending : 0 < e.pending) (low : Nat) :
    held { e with low := low, pending := e.pending + 1 } = e.held * 256 + 255 := by
  have hpow : 256 ^ e.pending = 256 ^ (e.pending - 1) * 256 := by
    rw [← Nat.pow_succ]
    congr 1
    omega
  have hhead : 0 < 256 ^ (e.pending - 1) := Nat.pow_pos (by decide)
  have hsum (power : Nat) (hpos : 0 < power) : power * 256 - 1 = (power - 1) * 256 + 255 := by omega
  show e.cache.toNat * 256 ^ e.pending + (256 ^ e.pending - 1) = _
  rw [held, hpow, ← Nat.mul_assoc, hsum _ hhead, ← Nat.add_assoc, ← Nat.add_mul]

/-- A shift scales the interval by one digit. -/
theorem At.shiftLow (h : e.At low range shifts) (hrange : range < 2 ^ 24) (hpos : 0 < range) :
    e.shiftLow.At (low * 256) (range * 256) (shifts + 1) := by
  obtain ⟨hpending, hlength, hlow, hroom, hword⟩ := h
  unfold Encoder.shiftLow
  by_cases hsettled : e.low < 0xff000000 ∨ 2 ^ 32 ≤ e.low
  · have hcarry : e.low / 2 ^ 32 = 0 ∨ e.low / 2 ^ 32 = 1 ∧ e.held + 1 < 256 ^ e.pending := by
      by_cases hlt : e.low < 2 ^ 32
      · exact .inl (Nat.div_eq_of_lt hlt)
      · refine .inr ⟨by omega, ?_⟩
        have hheld : (e.held + 1) * 2 ^ 32 < 256 ^ e.pending * 2 ^ 32 := by omega
        exact Nat.lt_of_mul_lt_mul_right hheld
    have hwritten := value_written hpending hcarry
    have hone : e.pending - 1 + 1 = e.pending := by omega
    have hcache : (UInt8.ofNat (e.low / 2 ^ 24)).toNat = e.low / 2 ^ 24 % 256 := UInt8.toNat_ofNat'
    have hheld : (UInt8.ofNat (e.low / 2 ^ 24)).toNat * 256 ^ (1 - 1) + (256 ^ (1 - 1) - 1)
        = e.low / 2 ^ 24 % 256 := by
      rw [hcache, Nat.sub_self, Nat.pow_zero, Nat.mul_one, Nat.sub_self, Nat.add_zero]
    rw [if_pos hsettled]
    refine ⟨Nat.one_pos, ?_, ?_, ?_, word_next e.low hrange⟩
    · show (e.out ++ _ :: List.replicate _ _).length + 1 = shifts + 1 + 1
      rw [List.length_append, List.length_cons, List.length_replicate, hone]
      omega
    · show low * 256 = (value (e.out ++ _ :: List.replicate _ _) * 256 ^ 1
        + ((UInt8.ofNat (e.low / 2 ^ 24)).toNat * 256 ^ (1 - 1) + (256 ^ (1 - 1) - 1))) * 2 ^ 32
          + e.low % 2 ^ 24 * 256
      rw [value_append, hwritten, List.length_cons, List.length_replicate, hone, hheld, hlow,
        split_settled, Nat.pow_one, Nat.add_assoc (value e.out * _)]
    · show ((UInt8.ofNat (e.low / 2 ^ 24)).toNat * 256 ^ (1 - 1) + (256 ^ (1 - 1) - 1)) * 2 ^ 32
        + e.low % 2 ^ 24 * 256 + range * 256 ≤ 256 * 2 ^ 32
      rw [hheld]
      exact room_settled hsettled hrange hword
  · have hheld := held_pending hpending (e.low % 2 ^ 24 * 256)
    have hsplit := split_pending (show 0xff000000 ≤ e.low by omega) (show e.low < 2 ^ 32 by omega)
    have hpow : 256 ^ (e.pending + 1) = 256 ^ e.pending * 256 := Nat.pow_succ _ _
    rw [if_neg hsettled]
    refine ⟨Nat.succ_pos _, ?_, ?_, ?_, word_next e.low hrange⟩
    · show e.out.length + (e.pending + 1) = shifts + 1 + 1
      omega
    · show low * 256 = (value e.out * 256 ^ (e.pending + 1) + _) * 2 ^ 32 + e.low % 2 ^ 24 * 256
      rw [hheld, hlow, hsplit, hpow, ← Nat.mul_assoc, Nat.add_mul _ _ 256, Nat.add_assoc _ _ 255]
    · show _ * 2 ^ 32 + e.low % 2 ^ 24 * 256 + range * 256 ≤ 256 ^ (e.pending + 1) * 2 ^ 32
      rw [hheld, ← hsplit, ← Nat.add_mul, hpow, Nat.mul_right_comm]
      exact Nat.mul_le_mul_right 256 hroom

theorem low_shiftLow (e : Encoder) : e.shiftLow.low = e.low % 2 ^ 24 * 256 := by
  unfold Encoder.shiftLow
  split <;> rfl

/-- With nothing left in the word, a shift writes all but a zero. -/
theorem shiftLow_of_low_zero (hzero : e.low = 0) :
    e.shiftLow.pending = 1 ∧ e.shiftLow.cache = 0 ∧ e.shiftLow.low = 0 := by
  unfold Encoder.shiftLow
  rw [if_pos (.inl (by omega)), hzero]
  exact ⟨rfl, rfl, rfl⟩

/-- Four shifts leave nothing in the word. -/
theorem low_shiftLow_four (e : Encoder) : e.shiftLow.shiftLow.shiftLow.shiftLow.low = 0 := by
  rw [low_shiftLow, low_shiftLow, low_shiftLow, low_shiftLow]
  omega

/-- What is written is the lower end of the interval. -/
theorem flush_eq (h : e.At low range shifts) (hpos : 0 < range) :
    e.flush = digits (shifts + 5) low := by
  have hshift {e : Encoder} {low shifts : Nat} (h : e.At low 1 shifts) :
      e.shiftLow.At (low * 256) 1 (shifts + 1) :=
    (h.shiftLow (by decide) Nat.one_pos).mono (by decide)
  have hlast := hshift (hshift (hshift (hshift (hshift (h.mono hpos)))))
  obtain ⟨hpending, hcache, hzero⟩ := shiftLow_of_low_zero (low_shiftLow_four e)
  obtain ⟨-, hlength, hlow, -, -⟩ := hlast
  have hnone : e.shiftLow.shiftLow.shiftLow.shiftLow.shiftLow.held = 0 := by
    rw [held, hpending, hcache]
    rfl
  rw [hpending] at hlength
  rw [hpending, hnone, hzero] at hlow
  have hwritten : value e.flush = low := by
    show value e.shiftLow.shiftLow.shiftLow.shiftLow.shiftLow.out = low
    omega
  have hcount : e.flush.length = shifts + 5 := by
    show e.shiftLow.shiftLow.shiftLow.shiftLow.shiftLow.out.length = shifts + 5
    omega
  rw [← hwritten, ← hcount, digits_value]

/-- The encoder stands at an interval, and has its range. -/
structure Stands (e : Encoder) (s : Interval) : Prop where
  position : e.At s.low s.range s.shifts
  range_eq : e.range = s.range

variable {s : Interval}

theorem stands_start : start.Stands Interval.start := ⟨at_start, rfl⟩

theorem Stands.narrow (h : e.Stands s) {offset width : Nat} (hpart : offset + width ≤ s.range) :
    (e.narrow offset width).Stands (s.narrow offset width) :=
  ⟨h.position.narrow hpart, rfl⟩

theorem Stands.normalize (h : e.Stands s) (hpos : 0 < s.range) : e.normalize.Stands s.normalize := by
  unfold Encoder.normalize Interval.normalize
  rw [h.range_eq]
  by_cases hnarrow : s.range < 2 ^ 24
  · rw [if_pos hnarrow, if_pos hnarrow]
    have hshift := h.position.shiftLow hnarrow hpos
    exact ⟨⟨hshift.pending_pos, hshift.length, hshift.low_eq, hshift.room, hshift.word⟩, rfl⟩
  · rwa [if_neg hnarrow, if_neg hnarrow]

/-- The digits of a number that the interval holds. -/
theorem Stands.flush_eq (h : e.Stands s) (hpos : 0 < s.range) :
    e.flush = digits (s.shifts + 5) s.low :=
  Encoder.flush_eq h.position hpos

end Encoder

/-! ### Decisions -/

/-- How a bit is coded: under the probability of a context, which adapts, or directly. -/
inductive Tag (ι : Type) where
  | coded (context : ι)
  | direct

/-- For each context the probability of a zero, in 2048ths. -/
abbrev Model (ι : Type) := ι → Nat

namespace Model

variable {ι : Type}

def start : Model ι := fun _ => 1024

/-- No bit is ever so likely that the other one would be left without room. -/
def Moderate (m : Model ι) : Prop := ∀ context, 31 ≤ m context ∧ m context ≤ 2017

theorem moderate_start : (start : Model ι).Moderate := fun _ =>
  ⟨show 31 ≤ 1024 by decide, show 1024 ≤ 2017 by decide⟩

def adapt [DecidableEq ι] (m : Model ι) : Tag ι → Bool → Model ι
  | .coded context, false => Function.update m context (m context + (2048 - m context) / 32)
  | .coded context, true => Function.update m context (m context - m context / 32)
  | .direct, _ => m

/-- How much of a range stands for a zero. -/
def lower (m : Model ι) (range : Nat) : Tag ι → Nat
  | .coded context => range / 2048 * m context
  | .direct => range / 2

/-- And how much for a one. -/
def upper (m : Model ι) (range : Nat) : Tag ι → Nat
  | .coded context => range - range / 2048 * m context
  | .direct => range / 2

def offset (m : Model ι) (range : Nat) (tag : Tag ι) (bit : Bool) : Nat :=
  if bit then m.lower range tag else 0

def width (m : Model ι) (range : Nat) (tag : Tag ι) (bit : Bool) : Nat :=
  if bit then m.upper range tag else m.lower range tag

variable {m : Model ι} {range : Nat}

theorem Moderate.adapt [DecidableEq ι] (h : m.Moderate) (tag : Tag ι) (bit : Bool) :
    (m.adapt tag bit).Moderate := by
  intro other
  cases tag with
  | direct => exact h other
  | coded context =>
      have hcontext := h context
      by_cases hother : other = context
      · subst hother
        cases bit <;> simp only [Model.adapt, Function.update_self] <;> omega
      · cases bit <;> simp only [Model.adapt, Function.update_of_ne hother] <;> exact h other

/-- Either value has room in a range that is wide. -/
theorem room_lower (hwide : 2 ^ 24 ≤ range) (h : m.Moderate) (tag : Tag ι) :
    2 ^ 16 ≤ m.lower range tag ∧ 2 ^ 16 ≤ m.upper range tag ∧
      m.lower range tag + m.upper range tag ≤ range := by
  cases tag with
  | direct =>
      simp only [lower, upper]
      omega
  | coded context =>
      obtain ⟨hlow, hhigh⟩ := h context
      have hunit : 2 ^ 13 ≤ range / 2048 := by omega
      have hmin : range / 2048 * 31 ≤ range / 2048 * m context := Nat.mul_le_mul_left _ hlow
      have hmax : range / 2048 * m context ≤ range / 2048 * 2017 := Nat.mul_le_mul_left _ hhigh
      simp only [lower, upper]
      omega

theorem width_ge (hwide : 2 ^ 24 ≤ range) (h : m.Moderate) (tag : Tag ι) (bit : Bool) :
    2 ^ 16 ≤ m.width range tag bit := by
  obtain ⟨hlower, hupper, -⟩ := room_lower hwide h tag
  cases bit
  · exact hlower
  · exact hupper

theorem offset_add_width_le (hwide : 2 ^ 24 ≤ range) (h : m.Moderate) (tag : Tag ι) (bit : Bool) :
    m.offset range tag bit + m.width range tag bit ≤ range := by
  obtain ⟨-, -, hsum⟩ := room_lower hwide h tag
  cases bit
  · show 0 + m.lower range tag ≤ range
    omega
  · exact hsum

end Model

variable {ι : Type}

namespace Interval

/-- What a bit leaves of an interval. -/
def part (s : Interval) (m : Model ι) (tag : Tag ι) (bit : Bool) : Interval :=
  s.narrow (m.offset s.range tag bit) (m.width s.range tag bit)

def code (s : Interval) (m : Model ι) (tag : Tag ι) (bit : Bool) : Interval :=
  (s.part m tag bit).normalize

theorem range_code (s : Interval) (m : Model ι) (tag : Tag ι) (bit : Bool) :
    (s.code m tag bit).range = if m.width s.range tag bit < 2 ^ 24
      then m.width s.range tag bit * 256 else m.width s.range tag bit := by
  unfold Interval.code normalize
  split
  · rename_i hnarrow
    exact (if_pos hnarrow).symm
  · rename_i hnarrow
    exact (if_neg hnarrow).symm

/-- The bits of a list, the probabilities adapting to each. -/
def codeAll [DecidableEq ι] : Interval → Model ι → List (Tag ι × Bool) → Interval
  | s, _, [] => s
  | s, m, (tag, bit) :: rest => (s.code m tag bit).codeAll (m.adapt tag bit) rest

/-- Wide enough for one more bit, and within a word. -/
def Wide (s : Interval) : Prop := 2 ^ 24 ≤ s.range ∧ s.range < 2 ^ 32

theorem wide_start : start.Wide := ⟨by decide, by decide⟩

variable {s : Interval} {m : Model ι} {n number : Nat}

/-- One shift makes up for one bit. -/
theorem Wide.code (h : s.Wide) (hm : m.Moderate) (tag : Tag ι) (bit : Bool) :
    (s.code m tag bit).Wide := by
  have hwidth := Model.width_ge h.1 hm tag bit
  have hfit := Model.offset_add_width_le h.1 hm tag bit
  have hword : s.range < 2 ^ 32 := h.2
  unfold Interval.code normalize
  by_cases hnarrow : (s.part m tag bit).range < 2 ^ 24
  · rw [if_pos hnarrow]
    have hnarrow : m.width s.range tag bit < 2 ^ 24 := hnarrow
    exact ⟨show 2 ^ 24 ≤ m.width s.range tag bit * 256 by omega,
      show m.width s.range tag bit * 256 < 2 ^ 32 by omega⟩
  · rw [if_neg hnarrow]
    exact ⟨Nat.not_lt.mp hnarrow, show m.width s.range tag bit < 2 ^ 32 by omega⟩

theorem holds_of_code (h : s.Wide) (hm : m.Moderate) {tag : Tag ι} {bit : Bool}
    (hcode : (s.code m tag bit).Holds n number) : (s.part m tag bit).Holds n number ∧
      s.Holds n number := by
  have hpart := holds_of_normalize hcode
  exact ⟨hpart, holds_of_narrow (Model.offset_add_width_le h.1 hm tag bit) hpart⟩

variable [DecidableEq ι]

theorem Wide.codeAll (h : s.Wide) (hm : m.Moderate) (bits : List (Tag ι × Bool)) :
    (s.codeAll m bits).Wide := by
  induction bits generalizing s m with
  | nil => exact h
  | cons head rest ih => exact ih (h.code hm head.1 head.2) (hm.adapt head.1 head.2)

/-- All intervals of a run hold what the last one holds. -/
theorem holds_of_codeAll (h : s.Wide) (hm : m.Moderate) {bits : List (Tag ι × Bool)}
    (hlast : (s.codeAll m bits).Holds n number) : s.Holds n number := by
  induction bits generalizing s m with
  | nil => exact hlast
  | cons head rest ih =>
      exact (holds_of_code h hm (ih (h.code hm head.1 head.2) (hm.adapt head.1 head.2) hlast)).2

theorem codeAll_append (s : Interval) (m : Model ι) (a b : List (Tag ι × Bool)) :
    ∃ later, (s.codeAll m (a ++ b)) = (s.codeAll m a).codeAll later b ∧
      (m.Moderate → later.Moderate) := by
  induction a generalizing s m with
  | nil => exact ⟨m, rfl, id⟩
  | cons head rest ih =>
      obtain ⟨later, heq, hlater⟩ := ih (s.code m head.1 head.2) (m.adapt head.1 head.2)
      exact ⟨later, heq, fun hm => hlater (hm.adapt head.1 head.2)⟩

/-- The interval in the middle of a run holds what the last one holds. -/
theorem holds_of_codeAll_append (h : s.Wide) (hm : m.Moderate) {a b : List (Tag ι × Bool)}
    (hlast : (s.codeAll m (a ++ b)).Holds n number) : (s.codeAll m a).Holds n number := by
  obtain ⟨later, heq, hlater⟩ := codeAll_append s m a b
  rw [heq] at hlast
  exact holds_of_codeAll (h.codeAll hm a) (hlater hm) hlast

theorem shifts_codeAll (s : Interval) (m : Model ι) (bits : List (Tag ι × Bool)) :
    (s.codeAll m bits).shifts ≤ s.shifts + bits.length := by
  induction bits generalizing s m with
  | nil => exact Nat.le_refl _
  | cons head rest ih =>
      have hhead : (s.code m head.1 head.2).shifts ≤ s.shifts + 1 := by
        unfold Interval.code normalize
        split
        · exact Nat.le_refl _
        · exact Nat.le_succ _
      have hrest := ih (s.code m head.1 head.2) (m.adapt head.1 head.2)
      rw [List.length_cons]
      show ((s.code m head.1 head.2).codeAll _ rest).shifts ≤ _
      omega

end Interval

namespace Encoder

def code (e : Encoder) (m : Model ι) (tag : Tag ι) (bit : Bool) : Encoder :=
  (e.narrow (m.offset e.range tag bit) (m.width e.range tag bit)).normalize

def codeAll [DecidableEq ι] : Encoder → Model ι → List (Tag ι × Bool) → Encoder
  | e, _, [] => e
  | e, m, (tag, bit) :: rest => (e.code m tag bit).codeAll (m.adapt tag bit) rest

variable {e : Encoder} {s : Interval} {m : Model ι}

theorem Stands.code (h : e.Stands s) (hwide : s.Wide) (hm : m.Moderate) (tag : Tag ι) (bit : Bool) :
    (e.code m tag bit).Stands (s.code m tag bit) := by
  have hwidth := Model.width_ge hwide.1 hm tag bit
  unfold Encoder.code
  rw [h.range_eq]
  refine (h.narrow (Model.offset_add_width_le hwide.1 hm tag bit)).normalize ?_
  show 0 < m.width s.range tag bit
  omega

theorem Stands.codeAll [DecidableEq ι] (h : e.Stands s) (hwide : s.Wide) (hm : m.Moderate)
    (bits : List (Tag ι × Bool)) : (e.codeAll m bits).Stands (s.codeAll m bits) := by
  induction bits generalizing e s m with
  | nil => exact h
  | cons head rest ih =>
      exact ih (h.code hwide hm head.1 head.2) (hwide.code hm head.1 head.2)
        (hm.adapt head.1 head.2)

end Encoder

/-- What the encoder writes for bits, from a start to the flush. -/
def encode [DecidableEq ι] (bits : List (Tag ι × Bool)) : List UInt8 :=
  (Encoder.start.codeAll Model.start bits).flush

/-- It is the digits of a number which all the intervals hold. -/
theorem encode_eq [DecidableEq ι] (bits : List (Tag ι × Bool)) : ∃ n number,
    encode bits = digits (n + 5) number ∧ n ≤ bits.length ∧
      (Interval.start.codeAll Model.start bits).Holds n number := by
  have hwide := Interval.wide_start.codeAll Model.moderate_start bits
  have hpos : 0 < (Interval.start.codeAll Model.start bits).range := by
    have hrange := hwide.1
    omega
  have hstands := Encoder.stands_start.codeAll Interval.wide_start Model.moderate_start bits
  have hshifts := Interval.shifts_codeAll Interval.start Model.start bits
  exact ⟨_, _, hstands.flush_eq hpos, by rwa [Interval.start, Nat.zero_add] at hshifts,
    Interval.holds_low hpos⟩

/-- A decoder that follows finds the bit, and follows on. -/
theorem Follows.code {s : Interval} {m : Model ι} {n number code : Nat} {rest : List UInt8}
    {tag : Tag ι} {bit : Bool} (h : Follows s n number code rest) (hwide : s.Wide)
    (hm : m.Moderate) (hcode : (s.code m tag bit).Holds n number) :
    m.offset s.range tag bit ≤ code ∧
      code < m.offset s.range tag bit + m.width s.range tag bit ∧
      if m.width s.range tag bit < 2 ^ 24 then
        ∃ digit tail, rest = digit :: tail ∧
          Follows (s.code m tag bit) n number
            ((code - m.offset s.range tag bit) * 256 + digit.toNat) tail
      else Follows (s.code m tag bit) n number (code - m.offset s.range tag bit) rest := by
  obtain ⟨hlow, hhigh, hpart⟩ := h.narrow (Interval.holds_of_code hwide hm hcode).1
  refine ⟨hlow, hhigh, ?_⟩
  unfold Interval.code Interval.normalize at hcode ⊢
  by_cases hnarrow : m.width s.range tag bit < 2 ^ 24
  · have hrange : (s.part m tag bit).range < 2 ^ 24 := hnarrow
    rw [if_pos hrange] at hcode ⊢
    rw [if_pos hnarrow]
    exact hpart.shift hcode
  · have hrange : ¬ (s.part m tag bit).range < 2 ^ 24 := hnarrow
    rw [if_neg hrange, if_neg hnarrow]
    exact hpart

end RangeCoder
