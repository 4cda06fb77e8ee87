/-
Numbers as strings of bits.

A number is written with its low bit first (`lsb`) or its high bit first (`msb`), in so
many bits.  Bytes are strings of eight bits, the low one first, and a string of any length
is packed into bytes by filling the last one up with zeros (`pack`).
-/
import Mathlib.Algebra.Group.Nat.Defs

namespace BitString

/-- So many bits of a number, the low one first. -/
def lsb : Nat → Nat → List Bool
  | 0, _ => []
  | count + 1, number => decide (number % 2 = 1) :: lsb count (number / 2)

/-- So many bits of a number, the high one first. -/
def msb : Nat → Nat → List Bool
  | 0, _ => []
  | count + 1, number => decide (number / 2 ^ count % 2 = 1) :: msb count number

/-- The number that a bit stands for. -/
def digit : Bool → Nat
  | false => 0
  | true => 1

/-- The number that bits stand for, the low one first. -/
def ofLsb : List Bool → Nat
  | [] => 0
  | bit :: rest => digit bit + 2 * ofLsb rest

@[simp] theorem length_lsb (count : Nat) : ∀ number, (lsb count number).length = count := by
  induction count with
  | zero => intro number; rfl
  | succ count ih => intro number; rw [lsb, List.length_cons, ih]

@[simp] theorem length_msb (count number : Nat) : (msb count number).length = count := by
  induction count with
  | zero => rfl
  | succ count ih => rw [msb, List.length_cons, ih]

theorem digit_mod_two (number : Nat) : digit (decide (number % 2 = 1)) = number % 2 := by
  by_cases h : number % 2 = 1
  · rw [decide_eq_true h, h]
    rfl
  · rw [decide_eq_false h]
    show 0 = number % 2
    omega

theorem digit_lt (bit : Bool) : digit bit < 2 := by
  cases bit <;> decide

theorem decide_digit (bit : Bool) (number : Nat) :
    decide ((digit bit + 2 * number) % 2 = 1) = bit ∧ (digit bit + 2 * number) / 2 = number := by
  cases bit with
  | false =>
      have hzero : digit false = 0 := rfl
      exact ⟨decide_eq_false (by omega), by omega⟩
  | true =>
      have hone : digit true = 1 := rfl
      exact ⟨decide_eq_true (by omega), by omega⟩

theorem ofLsb_lt (bits : List Bool) : ofLsb bits < 2 ^ bits.length := by
  induction bits with
  | nil => exact Nat.one_pos
  | cons bit rest ih =>
      have hbit := digit_lt bit
      rw [ofLsb, List.length_cons, Nat.pow_succ]
      omega

theorem ofLsb_lsb (count : Nat) : ∀ number, ofLsb (lsb count number) = number % 2 ^ count := by
  induction count with
  | zero => intro number; rw [Nat.pow_zero, Nat.mod_one]; rfl
  | succ count ih =>
      intro number
      rw [lsb, ofLsb, ih, digit_mod_two, Nat.pow_succ', Nat.mod_mul]

theorem lsb_ofLsb (bits : List Bool) : lsb bits.length (ofLsb bits) = bits := by
  induction bits with
  | nil => rfl
  | cons bit rest ih =>
      obtain ⟨hbit, hrest⟩ := decide_digit bit (ofLsb rest)
      rw [List.length_cons, ofLsb, lsb, hbit, hrest, ih]

/-- Bits above those that are asked for do not matter. -/
theorem lsb_mod (count : Nat) (number : Nat) : lsb count (number % 2 ^ count) = lsb count number := by
  have h := lsb_ofLsb (lsb count number)
  rwa [length_lsb, ofLsb_lsb] at h

theorem lsb_zero (count : Nat) : lsb count 0 = List.replicate count false := by
  induction count with
  | zero => rfl
  | succ count ih => rw [lsb, List.replicate_succ, Nat.zero_div, ih]; rfl

/-- The low bits, and then those above them. -/
theorem lsb_append (a b number : Nat) :
    lsb (a + b) number = lsb a number ++ lsb b (number / 2 ^ a) := by
  induction a generalizing number with
  | zero => rw [Nat.zero_add, lsb, Nat.pow_zero, Nat.div_one, List.nil_append]
  | succ a ih =>
      rw [Nat.succ_add, lsb, lsb, ih, List.cons_append, Nat.pow_succ', Nat.div_div_eq_div_mul]

/-- Two numbers one above the other. -/
theorem lsb_add_mul (a b low high : Nat) (hlow : low < 2 ^ a) :
    lsb (a + b) (low + high * 2 ^ a) = lsb a low ++ lsb b high := by
  have hpos := Nat.two_pow_pos a
  rw [lsb_append, ← lsb_mod a (low + _), Nat.add_mul_mod_self_right, lsb_mod,
    Nat.add_mul_div_right _ _ hpos, Nat.div_eq_of_lt hlow, Nat.zero_add]

theorem lsb_injective {count a b : Nat} (ha : a < 2 ^ count) (hb : b < 2 ^ count)
    (h : lsb count a = lsb count b) : a = b := by
  have hvalue := congrArg ofLsb h
  rwa [ofLsb_lsb, ofLsb_lsb, Nat.mod_eq_of_lt ha, Nat.mod_eq_of_lt hb] at hvalue

/-- The high bits, and then those below them. -/
theorem msb_add (a b number : Nat) :
    msb (a + b) number = msb a (number / 2 ^ b) ++ msb b number := by
  induction a with
  | zero => rw [Nat.zero_add, msb, List.nil_append]
  | succ a ih =>
      rw [Nat.succ_add, msb, msb, ih, List.cons_append, Nat.div_div_eq_div_mul, ← Nat.pow_add,
        Nat.add_comm b a]

theorem mod_eq_of_msb {count a b : Nat} (h : msb count a = msb count b) :
    a % 2 ^ count = b % 2 ^ count := by
  induction count with
  | zero => rw [Nat.pow_zero, Nat.mod_one, Nat.mod_one]
  | succ count ih =>
      obtain ⟨hbit, hrest⟩ := List.cons.inj h
      have hdigit := congrArg digit hbit
      rw [digit_mod_two, digit_mod_two] at hdigit
      rw [Nat.mod_pow_succ, Nat.mod_pow_succ, ih hrest, hdigit]

theorem msb_injective {count a b : Nat} (ha : a < 2 ^ count) (hb : b < 2 ^ count)
    (h : msb count a = msb count b) : a = b := by
  have hmod := mod_eq_of_msb h
  rwa [Nat.mod_eq_of_lt ha, Nat.mod_eq_of_lt hb] at hmod

/-! ### Bytes -/

/-- The bits of bytes. -/
def ofBytes (bytes : List UInt8) : List Bool := bytes.flatMap fun byte => lsb 8 byte.toNat

theorem ofBytes_cons (byte : UInt8) (bytes : List UInt8) :
    ofBytes (byte :: bytes) = lsb 8 byte.toNat ++ ofBytes bytes := List.flatMap_cons

theorem length_ofBytes (bytes : List UInt8) : (ofBytes bytes).length = 8 * bytes.length := by
  induction bytes with
  | nil => rfl
  | cons byte bytes ih =>
      rw [ofBytes_cons, List.length_append, length_lsb, ih, List.length_cons]
      omega

theorem ofBytes_append (front back : List UInt8) : ofBytes (front ++ back) = ofBytes front ++ ofBytes back :=
  List.flatMap_append

theorem drop_ofBytes (bytes : List UInt8) : ∀ count, (ofBytes bytes).drop (8 * count) = ofBytes (bytes.drop count) := by
  induction bytes with
  | nil => intro count; rw [List.drop_nil]; exact List.drop_nil
  | cons byte bytes ih =>
      intro count
      cases count with
      | zero => rfl
      | succ count =>
          rw [ofBytes_cons, List.drop_append, length_lsb, List.drop_succ_cons, ← ih]
          rw [List.drop_of_length_le (by rw [length_lsb]; omega), List.nil_append]
          congr 1

theorem getElem?_lsb (count : Nat) : ∀ {number place : Nat}, place < count →
    (lsb count number)[place]? = some (decide (number / 2 ^ place % 2 = 1)) := by
  induction count with
  | zero => intro number place h; omega
  | succ count ih =>
      intro number place h
      cases place with
      | zero => rw [lsb, List.getElem?_cons_zero, Nat.pow_zero, Nat.div_one]
      | succ place =>
          rw [lsb, List.getElem?_cons_succ, ih (by omega), Nat.div_div_eq_div_mul, Nat.pow_succ']

/-- The bit at a place is one of the byte there. -/
theorem getElem?_ofBytes (bytes : List UInt8) : ∀ place, (ofBytes bytes)[place]?
    = bytes[place / 8]?.map fun byte => decide (byte.toNat / 2 ^ (place % 8) % 2 = 1) := by
  induction bytes with
  | nil => exact fun place => rfl
  | cons byte bytes ih =>
      intro place
      rw [ofBytes_cons]
      by_cases h : place < 8
      · rw [List.getElem?_append_left (by rw [length_lsb]; exact h), getElem?_lsb 8 h,
          Nat.div_eq_of_lt h, Nat.mod_eq_of_lt h]
        rfl
      · obtain ⟨rest, rfl⟩ := Nat.exists_eq_add_of_le (Nat.le_of_not_lt h)
        rw [List.getElem?_append_right (by rw [length_lsb]; omega), length_lsb,
          Nat.add_sub_cancel_left, ih, Nat.add_div_left _ (by decide), Nat.add_mod_left]
        rfl

/-- So many bytes from the front of a string. -/
def packInto : Nat → List Bool → List UInt8
  | 0, _ => []
  | count + 1, bits => UInt8.ofNat (ofLsb (bits.take 8)) :: packInto count (bits.drop 8)

/-- All of a string, the last byte filled up with zeros. -/
def pack (bits : List Bool) : List UInt8 := packInto ((bits.length + 7) / 8) bits

@[simp] theorem length_packInto (count : Nat) : ∀ bits, (packInto count bits).length = count := by
  induction count with
  | zero => intro bits; rfl
  | succ count ih => intro bits; rw [packInto, List.length_cons, ih]

/-- A byte of up to eight bits. -/
theorem lsb_packed {bits : List Bool} (h : bits.length ≤ 8) :
    lsb 8 (UInt8.ofNat (ofLsb bits)).toNat
      = bits ++ List.replicate (8 - bits.length) false := by
  have hlt := ofLsb_lt bits
  have hbyte : (UInt8.ofNat (ofLsb bits)).toNat = ofLsb bits := by
    rw [UInt8.toNat_ofNat']
    exact Nat.mod_eq_of_lt (Nat.lt_of_lt_of_le hlt (Nat.pow_le_pow_right (by decide) h))
  have hsplit : lsb (bits.length + (8 - bits.length)) (ofLsb bits)
      = bits ++ List.replicate (8 - bits.length) false := by
    rw [lsb_append, lsb_ofLsb, Nat.div_eq_of_lt hlt, lsb_zero]
  rwa [Nat.add_sub_cancel' h, ← hbyte] at hsplit

theorem ofBytes_packInto (count : Nat) : ∀ bits : List Bool, bits.length ≤ 8 * count →
    ofBytes (packInto count bits) = bits ++ List.replicate (8 * count - bits.length) false := by
  induction count with
  | zero =>
      intro bits h
      rw [List.eq_nil_of_length_eq_zero (Nat.le_zero.mp h)]
      rfl
  | succ count ih =>
      intro bits h
      have htake : (bits.take 8).length ≤ 8 := List.length_take_le _ _
      rw [packInto, ofBytes_cons, lsb_packed htake, ih _ (by rw [List.length_drop]; omega)]
      by_cases hlong : 8 ≤ bits.length
      · have hfull : (bits.take 8).length = 8 := List.length_take_of_le hlong
        rw [hfull, Nat.sub_self, List.replicate_zero, List.append_nil, ← List.append_assoc,
          List.take_append_drop, List.length_drop]
        congr 2
        omega
      · rw [List.take_of_length_le (by omega), List.drop_of_length_le (by omega), List.nil_append,
          List.append_assoc, List.replicate_append_replicate]
        congr 2
        rw [List.length_nil]
        omega

/-- What is packed can be read back, with fewer than eight zeros behind it. -/
theorem ofBytes_pack (bits : List Bool) : ∃ count < 8, (bits.length + count) % 8 = 0 ∧
    ofBytes (pack bits) = bits ++ List.replicate count false := by
  refine ⟨8 * ((bits.length + 7) / 8) - bits.length, by omega, by omega, ?_⟩
  exact ofBytes_packInto _ bits (by omega)

end BitString
