/-
The RISC-V filter loses nothing.

The filter goes forward half a word at a time.  Of a `JAL` it rewrites the target, in other
bits than it reads it from.  An `AUIPC` and the instruction that depends on it are a pair;
encoded, a pair is an `AUIPC` of register 2 with a mark, followed by the address.  What
looks like an encoded pair without being one has been escaped: it is encoded as a pair that
is none.  So the filter maps pairs to marked words and marked words to pairs, and these are
apart by the register alone.  What it skips after an `AUIPC` that begins no pair may still
be rewritten later, but of these bytes it has looked at the low half of one only, and that
is kept.
-/
import Un7z.Proofs.BranchFilters

namespace Un7z

namespace CompatibilityFilters

open Filters
open Grammar (leBytes)

/-! ### Instructions -/

/-- The destination register. -/
def rd (instruction : Nat) : Nat := instruction / 2 ^ 7 % 32

/-- Neither `x0` nor `x2`, of which the encoder takes no address. -/
def Linked (register : Nat) : Prop := register ≠ 0 ∧ register ≠ 2

/-- An instruction that depends on the register of an `AUIPC`. -/
def Depends (auipc second : Nat) : Prop := second % 4 = 3 ∧ second / 2 ^ 15 % 32 = rd auipc

/-- The mark of an encoded pair, and the register of the pair. -/
def Marked (instruction : Nat) : Prop :=
  instruction % 2 ^ 14 = 0x3117 ∧ Linked (instruction / 2 ^ 27)

instance (register : Nat) : Decidable (Linked register) := inferInstanceAs (Decidable (_ ∧ _))

instance (auipc second : Nat) : Decidable (Depends auipc second) :=
  inferInstanceAs (Decidable (_ ∧ _))

instance (instruction : Nat) : Decidable (Marked instruction) :=
  inferInstanceAs (Decidable (_ ∧ _))

theorem and_0x1d_eq_zero {register : Nat} (h : register < 32) :
    register &&& 0x1d = 0 ↔ ¬ Linked register := by
  have hall : ∀ register < 32, register &&& 0x1d = 0 ↔ ¬ Linked register := by decide
  exact hall register h

/-- The test for the register of an `AUIPC`. -/
theorem linked_iff (instruction : UInt32) :
    instruction &&& 0x0e80 ≠ 0 ↔ Linked (rd instruction.toNat) := by
  have hlow : instruction.toNat / 2 ^ 7 &&& 0x1d = rd instruction.toNat &&& 0x1d := by
    have h : (instruction.toNat / 2 ^ 7 &&& 0x1d) % 2 ^ 5 = instruction.toNat / 2 ^ 7 % 2 ^ 5 &&& 0x1d :=
      Nat.and_mod_two_pow
    have hlt : instruction.toNat / 2 ^ 7 &&& 0x1d < 2 ^ 5 :=
      Nat.lt_of_le_of_lt Nat.and_le_right (by decide)
    rwa [Nat.mod_eq_of_lt hlt] at h
  rw [Ne, eq_zero_iff_toNat, UInt32.toNat_and]
  show ¬ instruction.toNat &&& 0x1d * 2 ^ 7 = 0 ↔ _
  rw [and_mul_two_pow, Nat.mul_eq_zero, or_iff_left (by decide), hlow,
    and_0x1d_eq_zero (show rd instruction.toNat < 32 from Nat.mod_lt _ (by decide)), not_not]

theorem isNotAuipcPair_iff (auipc second : UInt32) :
    isNotAuipcPair auipc second = true ↔ ¬ Depends auipc.toNat second.toNat := by
  have hmask (x : Nat) : x &&& 0x000f8003 = x / 2 ^ 15 % 32 * 2 ^ 15 + x % 4 := by
    show x &&& ((2 ^ 5 - 1) * 2 ^ 15 ||| (2 ^ 2 - 1)) = _
    rw [Nat.and_or_distrib_left, and_ones, Nat.and_two_pow_sub_one_eq_mod, or_eq_add (by omega)]
    rfl
  have hauipc := auipc.toNat_lt
  have hsecond := second.toNat_lt
  rw [isNotAuipcPair, decide_eq_true_iff, Ne, eq_zero_iff_toNat, UInt32.toNat_and,
    UInt32.toNat_xor, Nat.and_xor_distrib_right, Nat.xor_eq_zero_iff, UInt32.toNat_shiftLeft,
    UInt32.toNat_sub, Nat.shiftLeft_eq]
  show ¬ auipc.toNat * 2 ^ 8 % 2 ^ 32 &&& 0x000f8003 =
    (2 ^ 32 - 3 + second.toNat) % 2 ^ 32 &&& 0x000f8003 ↔ _
  rw [hmask, hmask, Depends, rd]
  omega

theorem isNotSpecialAuipc_iff (auipc : UInt32) :
    isNotSpecialAuipc auipc (auipc >>> 27) = true ↔ ¬ Marked auipc.toNat := by
  have hauipc := auipc.toNat_lt
  have hregister : (auipc >>> 27).toNat = auipc.toNat / 2 ^ 27 := by
    rw [UInt32.toNat_shiftRight, Nat.shiftRight_eq_div_pow]
    rfl
  have hlinked := and_0x1d_eq_zero (show auipc.toNat / 2 ^ 27 < 32 by omega)
  have hsmall : auipc.toNat / 2 ^ 27 &&& 0x1d ≤ 0x1d := Nat.and_le_right
  rw [isNotSpecialAuipc, decide_eq_true_iff, ge_iff_le, UInt32.le_iff_toNat_le, UInt32.toNat_and,
    hregister, UInt32.toNat_shiftLeft, UInt32.toNat_sub, Nat.shiftLeft_eq, Marked]
  show auipc.toNat / 2 ^ 27 &&& 0x1d ≤ (2 ^ 32 - 0x3117 + auipc.toNat) % 2 ^ 32 * 2 ^ 18 % 2 ^ 32 ↔ _
  by_cases hmark : auipc.toNat % 2 ^ 14 = 0x3117
  · have hzero : (2 ^ 32 - 0x3117 + auipc.toNat) % 2 ^ 32 * 2 ^ 18 % 2 ^ 32 = 0 := by omega
    rw [hzero, Nat.le_zero, hlinked]
    exact ⟨fun h hmarked => h hmarked.2, fun h hl => h ⟨hmark, hl⟩⟩
  · have hlarge : 2 ^ 18 ≤ (2 ^ 32 - 0x3117 + auipc.toNat) % 2 ^ 32 * 2 ^ 18 % 2 ^ 32 := by omega
    exact iff_of_true (by omega) fun h => hmark h.1

/-! ### What becomes of them -/

/-- A target is read from the bits the encoder puts it in, and written to those of a `JAL`. -/
def jalBytes (ip : UInt32) (first second third fourth : UInt8) : Bytes :=
  let address : UInt32 := (second &&& (0xf0 : UInt8)).toUInt32 <<< 13 ||| third.toUInt32 <<< 9
    ||| fourth.toUInt32 <<< 1
  let address := address - ip
  let bits₀ : UInt32 := (address >>> 8) &&& 0xf0
  let bits₁₁ : UInt32 := (address >>> 16) &&& 0x0f
  let bits₁₂ : UInt32 := (address >>> 7) &&& 0x10
  let bits₁₃ : UInt32 := (address <<< 4) &&& 0xe0
  let bits₂₁ : UInt32 := (address >>> 4) &&& 0x7f
  let bits₂₂ : UInt32 := (address >>> 13) &&& 0x80
  [first, (second &&& (0x0f : UInt8)) ||| bits₀.toUInt8,
    (bits₁₁ ||| bits₁₂ ||| bits₁₃).toUInt8, (bits₂₁ ||| bits₂₂).toUInt8]

/-- A pair becomes a marked word and an address. -/
def markedBytes (instruction second : UInt32) : Bytes :=
  let upper : UInt32 := instruction &&& 0xfffff000
  u32ToLe ((0x17 : UInt32) ||| (2 : UInt32) <<< (7 : UInt32) ||| second <<< (12 : UInt32))
    ++ u32ToLe (upper + second >>> (20 : UInt32))

/-- A marked word and an address become a pair. -/
def pairBytes (ip instruction word : UInt32) : Bytes :=
  let address := word - ip
  let upper : UInt32 := (address + 0x800) &&& 0xfffff000
  u32ToLe ((0x17 : UInt32) ||| (instruction >>> 27) <<< (7 : UInt32) ||| upper)
    ++ u32ToLe (instruction >>> (12 : UInt32) ||| address <<< (20 : UInt32))

theorem toNat_marked (second : UInt32) :
    ((0x17 : UInt32) ||| (2 : UInt32) <<< (7 : UInt32) ||| second <<< (12 : UInt32)).toNat
      = second.toNat % 2 ^ 20 * 2 ^ 12 + 0x117 := by
  rw [UInt32.toNat_or, UInt32.toNat_shiftLeft, Nat.shiftLeft_eq, Nat.or_comm]
  show second.toNat * 2 ^ 12 % 2 ^ 32 ||| 0x117 = _
  rw [show second.toNat * 2 ^ 12 % 2 ^ 32 = second.toNat % 2 ^ 20 * 2 ^ 12 by omega,
    or_eq_add (by decide)]

theorem toNat_markedAddress (instruction second : UInt32) :
    ((instruction &&& 0xfffff000) + second >>> (20 : UInt32)).toNat
      = instruction.toNat / 2 ^ 12 * 2 ^ 12 + second.toNat / 2 ^ 20 := by
  have hinstruction := instruction.toNat_lt
  have hsecond := second.toNat_lt
  rw [UInt32.toNat_add, UInt32.toNat_and, UInt32.toNat_shiftRight, Nat.shiftRight_eq_div_pow]
  show ((instruction.toNat &&& (2 ^ 20 - 1) * 2 ^ 12) + second.toNat / 2 ^ 20) % 2 ^ 32 = _
  rw [and_ones]
  omega

theorem toNat_pair (instruction address : UInt32) :
    ((0x17 : UInt32) ||| (instruction >>> 27) <<< (7 : UInt32)
        ||| ((address + 0x800) &&& 0xfffff000)).toNat
      = (address.toNat + 0x800) / 2 ^ 12 % 2 ^ 20 * 2 ^ 12
        + (instruction.toNat / 2 ^ 27 * 2 ^ 7 + 0x17) := by
  have hinstruction := instruction.toNat_lt
  have haddress := address.toNat_lt
  have hregister : ((instruction >>> 27) <<< (7 : UInt32)).toNat
      = instruction.toNat / 2 ^ 27 * 2 ^ 7 := by
    rw [UInt32.toNat_shiftLeft, UInt32.toNat_shiftRight, Nat.shiftLeft_eq, Nat.shiftRight_eq_div_pow]
    show instruction.toNat / 2 ^ 27 * 2 ^ 7 % 2 ^ 32 = _
    omega
  have hupper : ((address + 0x800) &&& 0xfffff000).toNat
      = (address.toNat + 0x800) / 2 ^ 12 % 2 ^ 20 * 2 ^ 12 := by
    rw [UInt32.toNat_and, UInt32.toNat_add]
    show (address.toNat + 0x800) % 2 ^ 32 &&& (2 ^ 20 - 1) * 2 ^ 12 = _
    rw [and_ones]
    omega
  rw [UInt32.toNat_or, UInt32.toNat_or, hregister, hupper, Nat.or_comm, Nat.or_comm (0x17 : UInt32).toNat]
  show _ ||| (_ ||| 0x17) = _
  rw [or_eq_add (show 0x17 < 2 ^ 7 by decide), or_eq_add (by omega)]

theorem toNat_pairSecond (instruction address : UInt32) :
    (instruction >>> (12 : UInt32) ||| address <<< (20 : UInt32)).toNat
      = address.toNat % 2 ^ 12 * 2 ^ 20 + instruction.toNat / 2 ^ 12 := by
  have hinstruction := instruction.toNat_lt
  rw [UInt32.toNat_or, UInt32.toNat_shiftLeft, UInt32.toNat_shiftRight, Nat.shiftLeft_eq,
    Nat.shiftRight_eq_div_pow, Nat.or_comm]
  show address.toNat * 2 ^ 20 % 2 ^ 32 ||| instruction.toNat / 2 ^ 12 = _
  rw [show address.toNat * 2 ^ 20 % 2 ^ 32 = address.toNat % 2 ^ 12 * 2 ^ 20 by omega,
    or_eq_add (by omega)]

/-! ### How it is undone -/

/-- Bits cut out of a word and left where they are. -/
theorem toNat_field {word shift mask : UInt32} (a k : Nat) (hshift : shift.toNat < 32)
    (hmask : mask.toNat = (2 ^ a - 1) * 2 ^ k) :
    ((word >>> shift) &&& mask).toNat = word.toNat / 2 ^ (shift.toNat + k) % 2 ^ a * 2 ^ k := by
  rw [UInt32.toNat_and, hmask, and_ones, UInt32.toNat_shiftRight, Nat.shiftRight_eq_div_pow,
    Nat.mod_eq_of_lt hshift, Nat.div_div_eq_div_mul, ← Nat.pow_add]

/-- The target of a `JAL`, from the bits its bytes have of it. -/
def jalTarget (second third fourth : Nat) : Nat :=
  ((((fourth / 128 * 16 + third % 16) * 16 + second / 16) * 2 + third / 16 % 2) * 128
    + fourth % 128) * 8 + third / 32

theorem jalTarget_bits {low top page sign half middle few : Nat} (hlow : low < 16) (hpage : page < 16)
    (hhalf : half < 2) (hmiddle : middle < 128) :
    jalTarget (top * 16 + low) (few * 32 + (half * 16 + page)) (sign * 128 + middle)
      = ((((sign * 16 + page) * 16 + top) * 2 + half) * 128 + middle) * 8 + few := by
  have hthird : (few * 32 + (half * 16 + page)) / 16 = few * 2 + half := by omega
  rw [jalTarget, hthird]
  omega

theorem jalTarget_written {low : Nat} (y : Nat) (hlow : low < 16) :
    jalTarget (y / 2 ^ 11 % 16 * 16 + low) (y % 8 * 32 + (y / 2 ^ 10 % 2 * 16 + y / 2 ^ 15 % 16))
      (y / 2 ^ 19 % 2 * 128 + y / 2 ^ 3 % 128) = y % 2 ^ 20 := by
  have h₁ : y % 2 ^ 20 = y / 2 ^ 3 % 2 ^ 17 * 8 + y % 8 := by omega
  have h₂ : y / 2 ^ 3 % 2 ^ 17 = y / 2 ^ 10 % 2 ^ 10 * 128 + y / 2 ^ 3 % 128 := by omega
  have h₃ : y / 2 ^ 10 % 2 ^ 10 = y / 2 ^ 11 % 2 ^ 9 * 2 + y / 2 ^ 10 % 2 := by omega
  have h₄ : y / 2 ^ 11 % 2 ^ 9 = y / 2 ^ 15 % 2 ^ 5 * 16 + y / 2 ^ 11 % 16 := by omega
  have h₅ : y / 2 ^ 15 % 2 ^ 5 = y / 2 ^ 19 % 2 * 16 + y / 2 ^ 15 % 16 := by omega
  rw [jalTarget_bits hlow (by omega) (by omega) (by omega), h₁, h₂, h₃, h₄, h₅]

/-- The bytes of a `JAL`, `y` being the distance in half words. -/
theorem jalBytes_eq (ip : UInt32) (first second third fourth : UInt8) :
    ∃ y, y = (2 ^ 32 - ip.toNat
        + 2 * (second.toNat / 16 * 2 ^ 16 + third.toNat * 2 ^ 8 + fourth.toNat)) % 2 ^ 32 / 2 ∧
      jalBytes ip first second third fourth
        = [first, UInt8.ofNat (y / 2 ^ 11 % 16 * 16 + second.toNat % 16),
          UInt8.ofNat (y % 8 * 32 + (y / 2 ^ 10 % 2 * 16 + y / 2 ^ 15 % 16)),
          UInt8.ofNat (y / 2 ^ 19 % 2 * 128 + y / 2 ^ 3 % 128)] := by
  have hsecond := second.toNat_lt
  have hthird := third.toNat_lt
  have hfourth := fourth.toNat_lt
  have hhigh : (second &&& (0xf0 : UInt8)).toNat = second.toNat / 16 * 16 := by
    rw [UInt8.toNat_and]
    show second.toNat &&& (2 ^ 4 - 1) * 2 ^ 4 = _
    rw [and_ones]
    omega
  have hlow : (second &&& (0x0f : UInt8)).toNat = second.toNat % 16 := by
    rw [UInt8.toNat_and]
    exact Nat.and_two_pow_sub_one_eq_mod _ 4
  have haddress : ((second &&& (0xf0 : UInt8)).toUInt32 <<< 13 ||| third.toUInt32 <<< 9
      ||| fourth.toUInt32 <<< 1).toNat
        = 2 * (second.toNat / 16 * 2 ^ 16 + third.toNat * 2 ^ 8 + fourth.toNat) := by
    rw [UInt32.toNat_or, UInt32.toNat_or, UInt32.toNat_shiftLeft, UInt32.toNat_shiftLeft,
      UInt32.toNat_shiftLeft, UInt8.toNat_toUInt32, UInt8.toNat_toUInt32, UInt8.toNat_toUInt32,
      hhigh, Nat.shiftLeft_eq, Nat.shiftLeft_eq, Nat.shiftLeft_eq]
    show second.toNat / 16 * 16 * 2 ^ 13 % 2 ^ 32 ||| third.toNat * 2 ^ 9 % 2 ^ 32
      ||| fourth.toNat * 2 ^ 1 % 2 ^ 32 = _
    rw [show second.toNat / 16 * 16 * 2 ^ 13 % 2 ^ 32 = second.toNat / 16 * 2 ^ 17 by omega,
      show third.toNat * 2 ^ 9 % 2 ^ 32 = third.toNat * 2 ^ 9 by omega,
      show fourth.toNat * 2 ^ 1 % 2 ^ 32 = fourth.toNat * 2 by omega, or_eq_add (by omega),
      show second.toNat / 16 * 2 ^ 17 + third.toNat * 2 ^ 9
        = (second.toNat / 16 * 2 ^ 8 + third.toNat) * 2 ^ 9 by omega, or_eq_add (by omega)]
    omega
  refine ⟨_, rfl, ?_⟩
  simp only [jalBytes]
  generalize hword : ((second &&& (0xf0 : UInt8)).toUInt32 <<< 13 ||| third.toUInt32 <<< 9
    ||| fourth.toUInt32 <<< 1) - ip = address
  have hdistance : address.toNat = (2 ^ 32 - ip.toNat
      + 2 * (second.toNat / 16 * 2 ^ 16 + third.toNat * 2 ^ 8 + fourth.toNat)) % 2 ^ 32 := by
    rw [← hword, UInt32.toNat_sub, haddress]
  rw [← hdistance]
  have h₀ : ((address >>> 8) &&& 0xf0 : UInt32).toNat = _ := toNat_field 4 4 (by decide) rfl
  have h₁₁ : ((address >>> 16) &&& 0x0f : UInt32).toNat = address.toNat / 2 ^ 16 % 2 ^ 4 :=
    (toNat_field 4 0 (by decide) rfl).trans (Nat.mul_one _)
  have h₁₂ : ((address >>> 7) &&& 0x10 : UInt32).toNat = _ := toNat_field 1 4 (by decide) rfl
  have h₁₃ : ((address <<< 4) &&& 0xe0 : UInt32).toNat = address.toNat / 2 % 8 * 2 ^ 5 := by
    rw [UInt32.toNat_and, UInt32.toNat_shiftLeft, Nat.shiftLeft_eq]
    show address.toNat * 2 ^ 4 % 2 ^ 32 &&& (2 ^ 3 - 1) * 2 ^ 5 = _
    rw [and_ones]
    omega
  have h₂₁ : ((address >>> 4) &&& 0x7f : UInt32).toNat = address.toNat / 2 ^ 4 % 2 ^ 7 :=
    (toNat_field 7 0 (by decide) rfl).trans (Nat.mul_one _)
  have h₂₂ : ((address >>> 13) &&& 0x80 : UInt32).toNat = _ := toNat_field 1 7 (by decide) rfl
  have hbyte (word : UInt32) : word.toUInt8 = UInt8.ofNat word.toNat := rfl
  have hdiv (k : Nat) : address.toNat / 2 / 2 ^ k = address.toNat / 2 ^ (k + 1) := by
    rw [Nat.div_div_eq_div_mul, Nat.pow_succ']
  have hsecondByte : (second &&& (0x0f : UInt8)) ||| ((address >>> 8) &&& 0xf0 : UInt32).toUInt8
      = UInt8.ofNat (address.toNat / 2 / 2 ^ 11 % 16 * 16 + second.toNat % 16) := by
    refine UInt8.toNat_inj.mp ?_
    rw [UInt8.toNat_or, UInt32.toNat_toUInt8, hlow, h₀, hdiv, Nat.or_comm,
      Nat.mod_eq_of_lt (by omega), or_eq_add (by omega),
      UInt8.toNat_ofNat_of_lt' (by simp only [UInt8.size]; omega)]
    rfl
  have hthirdByte : (((address >>> 16) &&& (0x0f : UInt32)) ||| ((address >>> 7) &&& (0x10 : UInt32))
      ||| ((address <<< 4) &&& (0xe0 : UInt32))).toUInt8
        = UInt8.ofNat (address.toNat / 2 % 8 * 32
          + (address.toNat / 2 / 2 ^ 10 % 2 * 16 + address.toNat / 2 / 2 ^ 15 % 16)) := by
    rw [hbyte, UInt32.toNat_or, UInt32.toNat_or, h₁₁, h₁₂, h₁₃, hdiv, hdiv, Nat.or_comm,
      Nat.or_comm (_ / 2 ^ 16 % 2 ^ 4), or_eq_add (Nat.mod_lt _ (by decide)), or_eq_add (by omega)]
    rfl
  have hfourthByte : (((address >>> 4) &&& (0x7f : UInt32))
      ||| ((address >>> 13) &&& (0x80 : UInt32))).toUInt8 = UInt8.ofNat (address.toNat / 2 / 2 ^ 19 % 2 * 128 + address.toNat / 2 / 2 ^ 3 % 128) := by
    rw [hbyte, UInt32.toNat_or, h₂₁, h₂₂, hdiv, hdiv, Nat.or_comm, or_eq_add (by omega)]
    rfl
  rw [hsecondByte, hthirdByte, hfourthByte]

/-- What a `JAL` was before: the target it would be with the pointer given back. -/
def jalUndo (ip : UInt32) (first second third fourth : UInt8) : Bytes :=
  let target := (jalTarget second.toNat third.toNat fourth.toNat
    + (2 ^ 32 - (2 ^ 32 - ip.toNat) / 2)) % 2 ^ 20
  [first, UInt8.ofNat (target / 2 ^ 16 * 16 + second.toNat % 16),
    UInt8.ofNat (target / 2 ^ 8 % 256), UInt8.ofNat (target % 256)]

theorem jalUndo_jalBytes (ip : UInt32) (first second third fourth : UInt8) :
    ∃ second' third' fourth',
      jalBytes ip first second third fourth = [first, second', third', fourth'] ∧
        second'.toNat % 16 = second.toNat % 16 ∧
          jalUndo ip first second' third' fourth' = [first, second, third, fourth] := by
  have hip := ip.toNat_lt
  have hsecond := second.toNat_lt
  have hthird := third.toNat_lt
  have hfourth := fourth.toNat_lt
  obtain ⟨y, hy, hbytes⟩ := jalBytes_eq ip first second third fourth
  have hof {n : Nat} (h : n < 256) : (UInt8.ofNat n).toNat = n := UInt8.toNat_ofNat_of_lt' h
  have htarget := jalTarget_written y (Nat.mod_lt second.toNat (show 0 < 16 by decide))
  refine ⟨_, _, _, hbytes, by rw [hof (by omega)]; omega, ?_⟩
  have hvalue : (y % 2 ^ 20 + (2 ^ 32 - (2 ^ 32 - ip.toNat) / 2)) % 2 ^ 20
      = second.toNat / 16 * 2 ^ 16 + third.toNat * 2 ^ 8 + fourth.toNat := by
    omega
  have hback (byte : UInt8) {n : Nat} (h : n = byte.toNat) : UInt8.ofNat n = byte := by
    rw [h, UInt8.ofNat_toNat]
  rw [jalUndo, hof (by omega), hof (by omega), hof (by omega), htarget, hvalue]
  rw [hback second (by omega), hback third (by omega), hback fourth (by omega)]

/-- The pair that became a marked word and an address. -/
def pairUndo (marked address : Nat) : Bytes :=
  leBytes 4 (address / 2 ^ 12 * 2 ^ 12 + (marked / 2 ^ 27 * 2 ^ 7 + 0x17))
    ++ leBytes 4 (address % 2 ^ 12 * 2 ^ 20 + marked / 2 ^ 12)

/-- The marked word and the address that became a pair, of which the second word has the low
bits of the address with their sign. -/
def markedUndo (ip instruction second : Nat) : Bytes :=
  let address := instruction / 2 ^ 12 * 2 ^ 12 + (second / 2 ^ 20 + 2 ^ 11) % 2 ^ 12 + (2 ^ 32 - 2 ^ 11)
  leBytes 4 (second % 2 ^ 20 * 2 ^ 12 + 0x117) ++ (leBytes 4 ((address + ip) % 2 ^ 32)).reverse

theorem markedBytes_eq (instruction second : UInt32) :
    markedBytes instruction second
      = leBytes 4 (second.toNat % 2 ^ 20 * 2 ^ 12 + 0x117)
        ++ leBytes 4 (instruction.toNat / 2 ^ 12 * 2 ^ 12 + second.toNat / 2 ^ 20) := by
  simp only [markedBytes]
  rw [u32ToLe_eq, u32ToLe_eq, toNat_marked, toNat_markedAddress]

theorem pairBytes_eq (ip instruction word : UInt32) :
    pairBytes ip instruction word
      = leBytes 4 (((word - ip).toNat + 0x800) / 2 ^ 12 % 2 ^ 20 * 2 ^ 12
          + (instruction.toNat / 2 ^ 27 * 2 ^ 7 + 0x17))
        ++ leBytes 4 ((word - ip).toNat % 2 ^ 12 * 2 ^ 20 + instruction.toNat / 2 ^ 12) := by
  simp only [pairBytes]
  rw [u32ToLe_eq, u32ToLe_eq, toNat_pair, toNat_pairSecond]

/-- The parts of an address and of a marked word. -/
theorem high_parts (high : Nat) {low k : Nat} (hlow : low < 2 ^ k) :
    (high * 2 ^ k + low) / 2 ^ k = high ∧ (high * 2 ^ k + low) % 2 ^ k = low := by
  rw [Nat.mul_comm, Nat.mul_add_div (Nat.two_pow_pos k), Nat.div_eq_of_lt hlow, Nat.add_zero,
    Nat.mul_add_mod, Nat.mod_eq_of_lt hlow]
  exact ⟨rfl, rfl⟩

theorem pairUndo_marked {instruction second : Nat} (hauipc : instruction % 2 ^ 7 = 0x17)
    (hsecond : second < 2 ^ 32) (hdepends : Depends instruction second) :
    pairUndo (second % 2 ^ 20 * 2 ^ 12 + 0x117) (instruction / 2 ^ 12 * 2 ^ 12 + second / 2 ^ 20)
      = leBytes 4 instruction ++ leBytes 4 second := by
  have hmark : (second % 2 ^ 20 * 2 ^ 12 + 0x117) / 2 ^ 27 = second / 2 ^ 15 % 32 := by omega
  obtain ⟨hhigh, -⟩ := high_parts (second % 2 ^ 20) (show 0x117 < 2 ^ 12 by decide)
  obtain ⟨hupper, hlow⟩ := high_parts (instruction / 2 ^ 12) (show second / 2 ^ 20 < 2 ^ 12 by omega)
  have hregister : second / 2 ^ 15 % 32 = instruction / 2 ^ 7 % 32 := hdepends.2
  rw [pairUndo, hhigh, hupper, hlow, hmark, hregister]
  congr 2 <;> omega

/-- The upper bits of an address and the sign of the lower ones. -/
theorem signed_split (a : Nat) :
    (a + 0x800) / 2 ^ 12 % 2 ^ 20 * 2 ^ 12 + (a % 2 ^ 12 + 2 ^ 11) % 2 ^ 12
      = (a + 0x800) % 2 ^ 32 := by
  omega

theorem markedUndo_pair {ip word a instruction : Nat} (hip : ip < 2 ^ 32) (hword : word < 2 ^ 32)
    (hinstruction : instruction < 2 ^ 32) (ha : a = (2 ^ 32 - ip + word) % 2 ^ 32)
    (hmark : instruction % 2 ^ 12 = 0x117) :
    markedUndo ip ((a + 0x800) / 2 ^ 12 % 2 ^ 20 * 2 ^ 12 + (instruction / 2 ^ 27 * 2 ^ 7 + 0x17))
      (a % 2 ^ 12 * 2 ^ 20 + instruction / 2 ^ 12)
      = leBytes 4 instruction ++ (leBytes 4 word).reverse := by
  have hfirst : instruction / 2 ^ 12 * 2 ^ 12 + 0x117 = instruction := by omega
  have hlast : ((a + 0x800) % 2 ^ 32 + (2 ^ 32 - 2 ^ 11) + ip) % 2 ^ 32 = word := by omega
  obtain ⟨hhigh, hlow⟩ := high_parts (a % 2 ^ 12) (show instruction / 2 ^ 12 < 2 ^ 20 by omega)
  obtain ⟨hupper, -⟩ := high_parts ((a + 0x800) / 2 ^ 12 % 2 ^ 20)
    (show instruction / 2 ^ 27 * 2 ^ 7 + 0x17 < 2 ^ 12 by omega)
  simp only [markedUndo]
  rw [hhigh, hlow, hupper, signed_split, hfirst, hlast]

/-! ### The walk -/

/-- How much the next stride takes, of which eight bytes have to be there. -/
def riscvCut : Bytes → Nat
  | a :: b :: c :: d :: e :: f :: g :: h :: _ =>
      if a = 0xef then
        if b &&& 0x0d = 0 then 4 else 2
      else if a &&& 0x7f = 0x17 then
        if Linked (rd (leValue [a, b, c, d])) then
          if Depends (leValue [a, b, c, d]) (leValue [e, f, g, h]) then 8 else 6
        else if Marked (leValue [a, b, c, d]) then 8 else 4
      else 2
  | _ => 0

/-- What becomes of what a stride takes: only a `JAL` and two words are rewritten. -/
def riscvAct (ip : UInt32) : Bytes → Bytes
  | [a, b, c, d] => if a = 0xef then jalBytes ip a b c d else [a, b, c, d]
  | [a, b, c, d, e, f, g, h] =>
      if Linked (rd (leValue [a, b, c, d])) then
        markedBytes (u32FromLe [a, b, c, d]) (u32FromLe [e, f, g, h])
      else
        pairBytes ip (u32FromLe [a, b, c, d]) (u32FromBe [e, f, g, h])
  | front => front

/-- And what it was before. -/
def riscvUndo (ip : UInt32) : Bytes → Bytes
  | [a, b, c, d] => if a = 0xef then jalUndo ip a b c d else [a, b, c, d]
  | [a, b, c, d, e, f, g, h] =>
      if Linked (rd (leValue [a, b, c, d])) then
        markedUndo ip.toNat (leValue [a, b, c, d]) (leValue [e, f, g, h])
      else
        pairUndo (leValue [a, b, c, d]) (leValue [e, f, g, h])
  | front => front

def riscvGait : Gait UInt32 UInt8 where
  cut _ rest := riscvCut rest
  act := riscvAct
  next ip front := ip + UInt32.ofNat front.length

/-- The encoder. -/
def riscvBack : Gait UInt32 UInt8 where
  cut _ rest := riscvCut rest
  act := riscvUndo
  next ip front := ip + UInt32.ofNat front.length

/-- A stride, and what lies behind it. -/
inductive RiscvStride : Bytes → Bytes → Prop
  | jal {b c d : UInt8} {tail : Bytes} (hb : b &&& 0x0d = 0) (htail : 4 ≤ tail.length) :
      RiscvStride [0xef, b, c, d] tail
  | half {b : UInt8} {tail : Bytes} (hb : b &&& 0x0d ≠ 0) (htail : 6 ≤ tail.length) :
      RiscvStride [0xef, b] tail
  | other {a b : UInt8} {tail : Bytes} (hjal : a ≠ 0xef) (hauipc : a &&& 0x7f ≠ 0x17)
      (htail : 6 ≤ tail.length) : RiscvStride [a, b] tail
  | pair {first second tail : Bytes} (hfirst : first.length = 4) (hsecond : second.length = 4)
      (hauipc : leValue first % 2 ^ 7 = 0x17) (hlinked : Linked (rd (leValue first)))
      (hdepends : Depends (leValue first) (leValue second)) :
      RiscvStride (first ++ second) tail
  | loose {a b c d e f g h : UInt8} {tail : Bytes}
      (hauipc : leValue [a, b, c, d] % 2 ^ 7 = 0x17) (hlinked : Linked (rd (leValue [a, b, c, d])))
      (hdepends : ¬ Depends (leValue [a, b, c, d]) (leValue [e, f, g, h])) :
      RiscvStride [a, b, c, d, e, f] (g :: h :: tail)
  | marked {first second tail : Bytes} (hfirst : first.length = 4) (hsecond : second.length = 4)
      (hauipc : leValue first % 2 ^ 7 = 0x17) (hlinked : ¬ Linked (rd (leValue first)))
      (hmarked : Marked (leValue first)) : RiscvStride (first ++ second) tail
  | single {a b c d : UInt8} {tail : Bytes} (hauipc : leValue [a, b, c, d] % 2 ^ 7 = 0x17)
      (hlinked : ¬ Linked (rd (leValue [a, b, c, d]))) (hmarked : ¬ Marked (leValue [a, b, c, d]))
      (htail : 4 ≤ tail.length) : RiscvStride [a, b, c, d] tail

theorem auipc_iff (a : UInt8) (rest : Bytes) :
    a &&& 0x7f = 0x17 ↔ leValue (a :: rest) % 2 ^ 7 = 0x17 := by
  have hlow : (a &&& 0x7f).toNat = a.toNat % 2 ^ 7 := by
    rw [UInt8.toNat_and]
    exact Nat.and_two_pow_sub_one_eq_mod _ 7
  rw [← UInt8.toNat_inj, hlow, leValue]
  show a.toNat % 2 ^ 7 = 0x17 ↔ _
  omega

theorem eight_cases (rest : Bytes) :
    rest.length < 8 ∨ ∃ a b c d e f g h tail, rest = a :: b :: c :: d :: e :: f :: g :: h :: tail := by
  rcases rest with _ | ⟨a, _ | ⟨b, _ | ⟨c, _ | ⟨d, _ | ⟨e, _ | ⟨f, _ | ⟨g, _ | ⟨h, tail⟩⟩⟩⟩⟩⟩⟩⟩
  case cons.cons.cons.cons.cons.cons.cons.cons =>
    exact .inr ⟨a, b, c, d, e, f, g, h, tail, rfl⟩
  all_goals exact .inl (by simp only [List.length_cons, List.length_nil]; omega)

theorem six_of_length {tail : Bytes} (h : 6 ≤ tail.length) :
    ∃ c d e f g h rest, tail = c :: d :: e :: f :: g :: h :: rest := by
  rcases eight_cases (0 :: 0 :: tail) with hshort | ⟨_, _, c, d, e, f, g, h, rest, heq⟩
  · simp only [List.length_cons] at hshort
    omega
  · exact ⟨c, d, e, f, g, h, rest, (List.cons.inj (List.cons.inj heq).2).2⟩

theorem four_of_length {tail : Bytes} (h : 4 ≤ tail.length) :
    ∃ e f g h rest, tail = e :: f :: g :: h :: rest := by
  rcases four_cases tail with hshort | ⟨e, f, g, h, rest, heq⟩
  · omega
  · exact ⟨e, f, g, h, rest, heq⟩

theorem not_jal_of_auipc {a : UInt8} (h : a &&& 0x7f = 0x17) : a ≠ 0xef := by
  intro hjal
  rw [hjal] at h
  exact absurd h (by decide)

/-- Of eight bytes there is a stride to take. -/
theorem exists_stride {rest : Bytes} (hrest : 8 ≤ rest.length) :
    ∃ front tail, rest = front ++ tail ∧ RiscvStride front tail := by
  rcases eight_cases rest with hshort | ⟨a, b, c, d, e, f, g, h, tail, rfl⟩
  · omega
  · by_cases hjal : a = 0xef
    · subst hjal
      by_cases hb : b &&& 0x0d = 0
      · exact ⟨[0xef, b, c, d], e :: f :: g :: h :: tail, rfl,
          .jal hb (by simp only [List.length_cons]; omega)⟩
      · exact ⟨[0xef, b], c :: d :: e :: f :: g :: h :: tail, rfl,
          .half hb (by simp only [List.length_cons]; omega)⟩
    · by_cases hauipc : a &&& 0x7f = 0x17
      · have hword := (auipc_iff a [b, c, d]).mp hauipc
        by_cases hlinked : Linked (rd (leValue [a, b, c, d]))
        · by_cases hdepends : Depends (leValue [a, b, c, d]) (leValue [e, f, g, h])
          · exact ⟨[a, b, c, d] ++ [e, f, g, h], tail, rfl, .pair rfl rfl hword hlinked hdepends⟩
          · exact ⟨[a, b, c, d, e, f], g :: h :: tail, rfl, .loose hword hlinked hdepends⟩
        · by_cases hmarked : Marked (leValue [a, b, c, d])
          · exact ⟨[a, b, c, d] ++ [e, f, g, h], tail, rfl, .marked rfl rfl hword hlinked hmarked⟩
          · exact ⟨[a, b, c, d], e :: f :: g :: h :: tail, rfl,
              .single hword hlinked hmarked (by simp only [List.length_cons]; omega)⟩
      · exact ⟨[a, b], c :: d :: e :: f :: g :: h :: tail, rfl,
          .other hjal hauipc (by simp only [List.length_cons]; omega)⟩

namespace RiscvStride

variable {front tail : Bytes}

theorem length (h : RiscvStride front tail) : 8 ≤ (front ++ tail).length := by
  cases h <;> simp only [List.length_append, List.length_cons, List.length_nil] <;> omega

theorem length_pos (h : RiscvStride front tail) : 0 < front.length := by
  cases h <;> simp only [List.length_append, List.length_cons, List.length_nil] <;> omega

/-- It is the stride that is taken. -/
theorem cut (hstride : RiscvStride front tail) : riscvCut (front ++ tail) = front.length := by
  cases hstride with
  | jal hb htail =>
      obtain ⟨e, f, g, h, rest, rfl⟩ := four_of_length htail
      exact if_pos hb
  | half hb htail =>
      obtain ⟨c, d, e, f, g, h, rest, rfl⟩ := six_of_length htail
      exact if_neg hb
  | other hjal hauipc htail =>
      obtain ⟨c, d, e, f, g, h, rest, rfl⟩ := six_of_length htail
      exact (if_neg hjal).trans (if_neg hauipc)
  | pair hfirst hsecond hauipc hlinked hdepends =>
      obtain ⟨a, b, c, d, rfl⟩ := List.length_eq_four.mp hfirst
      obtain ⟨e, f, g, h, rfl⟩ := List.length_eq_four.mp hsecond
      have ha := (auipc_iff a [b, c, d]).mpr hauipc
      exact (if_neg (not_jal_of_auipc ha)).trans ((if_pos ha).trans
        ((if_pos hlinked).trans (if_pos hdepends)))
  | @loose a b c d e f g h rest hauipc hlinked hdepends =>
      have ha := (auipc_iff a [b, c, d]).mpr hauipc
      exact (if_neg (not_jal_of_auipc ha)).trans ((if_pos ha).trans
        ((if_pos hlinked).trans (if_neg hdepends)))
  | marked hfirst hsecond hauipc hlinked hmarked =>
      obtain ⟨a, b, c, d, rfl⟩ := List.length_eq_four.mp hfirst
      obtain ⟨e, f, g, h, rfl⟩ := List.length_eq_four.mp hsecond
      have ha := (auipc_iff a [b, c, d]).mpr hauipc
      exact (if_neg (not_jal_of_auipc ha)).trans ((if_pos ha).trans
        ((if_neg hlinked).trans (if_pos hmarked)))
  | @single a b c d rest hauipc hlinked hmarked htail =>
      obtain ⟨e, f, g, h, rest, rfl⟩ := four_of_length htail
      have ha := (auipc_iff a [b, c, d]).mpr hauipc
      exact (if_neg (not_jal_of_auipc ha)).trans ((if_pos ha).trans
        ((if_neg hlinked).trans (if_neg hmarked)))

end RiscvStride

section words

variable {first second : Bytes} (hfirst : first.length = 4) (hsecond : second.length = 4)

include hfirst hsecond

theorem riscvAct_words (ip : UInt32) :
    riscvAct ip (first ++ second) = if Linked (rd (leValue first)) then
      markedBytes (u32FromLe first) (u32FromLe second)
    else pairBytes ip (u32FromLe first) (u32FromBe second) := by
  obtain ⟨a, b, c, d, rfl⟩ := List.length_eq_four.mp hfirst
  obtain ⟨e, f, g, h, rfl⟩ := List.length_eq_four.mp hsecond
  rfl

theorem riscvUndo_words (ip : UInt32) :
    riscvUndo ip (first ++ second) = if Linked (rd (leValue first)) then
      markedUndo ip.toNat (leValue first) (leValue second)
    else pairUndo (leValue first) (leValue second) := by
  obtain ⟨a, b, c, d, rfl⟩ := List.length_eq_four.mp hfirst
  obtain ⟨e, f, g, h, rfl⟩ := List.length_eq_four.mp hsecond
  rfl

/-- What a pair becomes. -/
theorem riscvAct_pair (ip : UInt32) (hlinked : Linked (rd (leValue first))) :
    riscvAct ip (first ++ second)
      = leBytes 4 (leValue second % 2 ^ 20 * 2 ^ 12 + 0x117)
        ++ leBytes 4 (leValue first / 2 ^ 12 * 2 ^ 12 + leValue second / 2 ^ 20) := by
  rw [riscvAct_words hfirst hsecond, if_pos hlinked, markedBytes_eq, toNat_fromLe hfirst,
    toNat_fromLe hsecond]

/-- What a marked word and an address become. -/
theorem riscvAct_marked (ip : UInt32) (hlinked : ¬ Linked (rd (leValue first))) :
    ∃ a, a = (2 ^ 32 - ip.toNat + leValue second.reverse) % 2 ^ 32 ∧
      riscvAct ip (first ++ second)
        = leBytes 4 ((a + 0x800) / 2 ^ 12 % 2 ^ 20 * 2 ^ 12 + (leValue first / 2 ^ 27 * 2 ^ 7 + 0x17))
          ++ leBytes 4 (a % 2 ^ 12 * 2 ^ 20 + leValue first / 2 ^ 12) := by
  refine ⟨(u32FromBe second - ip).toNat, ?_, ?_⟩
  · rw [UInt32.toNat_sub, toNat_fromBe hsecond]
  · rw [riscvAct_words hfirst hsecond, if_neg hlinked, pairBytes_eq, toNat_fromLe hfirst]

end words

theorem leValue_leBytes_of_lt {value : Nat} (h : value < 2 ^ 32) : leValue (leBytes 4 value) = value :=
  (leValue_leBytes 4 value).trans (Nat.mod_eq_of_lt h)

theorem packed_lt {high low k m : Nat} (hhigh : high < 2 ^ m) (hlow : low < 2 ^ k) :
    high * 2 ^ k + low < 2 ^ (m + k) := by
  have hle : (high + 1) * 2 ^ k ≤ 2 ^ m * 2 ^ k := Nat.mul_le_mul_right _ hhigh
  rw [Nat.add_mul, Nat.one_mul] at hle
  rw [Nat.pow_add]
  omega

theorem word_lt {word : Bytes} (h : word.length = 4) : leValue word < 2 ^ 32 := by
  have hlt := leValue_lt word
  rwa [h] at hlt

/-- What the encoder writes for a pair is marked. -/
theorem marked_of_pair {instruction second : Nat} (hlinked : Linked (rd instruction))
    (hdepends : Depends instruction second) :
    ¬ Linked (rd (second % 2 ^ 20 * 2 ^ 12 + 0x117)) ∧
      Marked (second % 2 ^ 20 * 2 ^ 12 + 0x117) := by
  obtain ⟨hlow, hregister⟩ := hdepends
  have htop : (second % 2 ^ 20 * 2 ^ 12 + 0x117) / 2 ^ 27 = second / 2 ^ 15 % 32 := by omega
  have hrd : rd (second % 2 ^ 20 * 2 ^ 12 + 0x117) = 2 := by
    rw [rd]
    omega
  refine ⟨?_, ?_, ?_⟩
  · rw [hrd]
    decide
  · omega
  · rwa [htop, hregister]

/-- And a marked word becomes the first of a pair. -/
theorem pair_of_marked {instruction : Nat} (hinstruction : instruction < 2 ^ 32) (upper low : Nat)
    (hmarked : Marked instruction) :
    rd (upper * 2 ^ 12 + (instruction / 2 ^ 27 * 2 ^ 7 + 0x17)) = instruction / 2 ^ 27 ∧
      Depends (upper * 2 ^ 12 + (instruction / 2 ^ 27 * 2 ^ 7 + 0x17))
        (low * 2 ^ 20 + instruction / 2 ^ 12) := by
  have hrd : rd (upper * 2 ^ 12 + (instruction / 2 ^ 27 * 2 ^ 7 + 0x17)) = instruction / 2 ^ 27 := by
    rw [rd]
    omega
  obtain ⟨hmark, -⟩ := hmarked
  refine ⟨hrd, ?_, ?_⟩
  · omega
  · rw [hrd]
    omega

/-- As many bytes, of which the first has the same low half. -/
def Alike (bytes bytes' : Bytes) : Prop :=
  bytes'.length = bytes.length ∧
    bytes'.head?.map (·.toNat % 16) = bytes.head?.map (·.toNat % 16)

theorem Alike.refl (bytes : Bytes) : Alike bytes bytes := ⟨rfl, rfl⟩

theorem Alike.cons {a : UInt8} {bytes bytes' : Bytes} (h : Alike (a :: bytes) bytes') :
    ∃ a' tail', bytes' = a' :: tail' ∧ a'.toNat % 16 = a.toNat % 16 ∧
      tail'.length = bytes.length := by
  obtain ⟨hlength, hhead⟩ := h
  cases bytes' with
  | nil => exact absurd hlength (by simp)
  | cons a' tail' => exact ⟨a', tail', rfl, Option.some.inj hhead, Nat.succ.inj hlength⟩

/-- The half of a byte that says what a `JAL` is. -/
theorem jal_iff (b : UInt8) : b &&& 0x0d = 0 ↔ b.toNat % 16 &&& 0x0d = 0 := by
  have hmask : b.toNat &&& 0x0d = b.toNat % 16 &&& 0x0d := by
    have h : (b.toNat &&& 0x0d) % 2 ^ 4 = b.toNat % 2 ^ 4 &&& 0x0d := Nat.and_mod_two_pow
    rwa [Nat.mod_eq_of_lt (Nat.lt_of_le_of_lt Nat.and_le_right (by decide))] at h
  rw [← hmask, ← UInt8.toNat_inj, UInt8.toNat_and]
  rfl

/-- All that is seen of the byte behind a loose `AUIPC`. -/
theorem depends_congr {instruction : Nat} {e f g h g' h' : UInt8}
    (hg : g'.toNat % 16 = g.toNat % 16) :
    Depends instruction (leValue [e, f, g', h']) ↔ Depends instruction (leValue [e, f, g, h]) := by
  have he := e.toNat_lt
  have hf := f.toNat_lt
  have hlow : leValue [e, f, g', h'] % 4 = leValue [e, f, g, h] % 4 := by
    simp only [leValue]
    omega
  have hregister : leValue [e, f, g', h'] / 2 ^ 15 % 32 = leValue [e, f, g, h] / 2 ^ 15 % 32 := by
    simp only [leValue]
    omega
  rw [Depends, Depends, hlow, hregister]

namespace RiscvStride

variable {front tail : Bytes} (ip : UInt32)

/-- What a stride leaves behind is a stride, whatever becomes of what lies behind it, if only
the half byte is kept that has been looked at. -/
theorem act {tail' : Bytes} (hstride : RiscvStride front tail) (htail' : Alike tail tail') :
    RiscvStride (riscvAct ip front) tail' := by
  have hlength := htail'.1
  cases hstride with
  | @jal b c d _ hb htail =>
      obtain ⟨b', c', d', hbytes, hlow, -⟩ := jalUndo_jalBytes ip 0xef b c d
      have hjal : riscvAct ip [0xef, b, c, d] = jalBytes ip 0xef b c d := rfl
      rw [hjal, hbytes]
      exact .jal (by rwa [jal_iff, hlow, ← jal_iff]) (by omega)
  | half hb htail => exact .half hb (by omega)
  | other hjal hauipc htail => exact .other hjal hauipc (by omega)
  | @pair first second _ hfirst hsecond hauipc hlinked hdepends =>
      obtain ⟨hunlinked, hmarked⟩ := marked_of_pair hlinked hdepends
      have hlt : leValue second % 2 ^ 20 * 2 ^ 12 + 0x117 < 2 ^ 32 := by omega
      rw [riscvAct_pair hfirst hsecond ip hlinked]
      refine .marked (length_leBytes 4 _) (length_leBytes 4 _) ?_ ?_ ?_
      · rw [leValue_leBytes_of_lt hlt]
        omega
      · rwa [leValue_leBytes_of_lt hlt]
      · rwa [leValue_leBytes_of_lt hlt]
  | @loose a b c d e f g h rest hauipc hlinked hdepends =>
      obtain ⟨g', tail', rfl, hg, hrest⟩ := htail'.cons
      cases tail' with
      | nil => exact absurd hrest (by simp)
      | cons h' rest' => exact .loose hauipc hlinked (by rwa [depends_congr hg])
  | @marked first second _ hfirst hsecond hauipc hlinked hmarked =>
      have hlt := word_lt hfirst
      have hregister : leValue first / 2 ^ 27 * 2 ^ 7 + 0x17 < 2 ^ 12 := by omega
      have htop : leValue first / 2 ^ 12 < 2 ^ 20 := by omega
      obtain ⟨a, -, hact⟩ := riscvAct_marked hfirst hsecond ip hlinked
      obtain ⟨hrd, hdepends⟩ := pair_of_marked hlt ((a + 0x800) / 2 ^ 12 % 2 ^ 20) (a % 2 ^ 12)
        hmarked
      have hupper : (a + 0x800) / 2 ^ 12 % 2 ^ 20 * 2 ^ 12
          + (leValue first / 2 ^ 27 * 2 ^ 7 + 0x17) < 2 ^ 32 :=
        packed_lt (Nat.mod_lt _ (by decide)) hregister
      have hlow : a % 2 ^ 12 * 2 ^ 20 + leValue first / 2 ^ 12 < 2 ^ 32 :=
        packed_lt (Nat.mod_lt _ (by decide)) htop
      rw [hact]
      refine .pair (length_leBytes 4 _) (length_leBytes 4 _) ?_ ?_ ?_
      · rw [leValue_leBytes_of_lt hupper]
        omega
      · rw [leValue_leBytes_of_lt hupper, hrd]
        exact hmarked.2
      · rwa [leValue_leBytes_of_lt hupper, leValue_leBytes_of_lt hlow]
  | @single a b c d _ hauipc hlinked hmarked htail =>
      have ha := (auipc_iff a [b, c, d]).mpr hauipc
      have hsame : riscvAct ip [a, b, c, d] = [a, b, c, d] := if_neg (not_jal_of_auipc ha)
      rw [hsame]
      exact .single hauipc hlinked hmarked (by omega)

theorem length_act (hstride : RiscvStride front tail) :
    (riscvAct ip front).length = front.length := by
  cases hstride with
  | @jal b c d _ hb htail =>
      obtain ⟨b', c', d', hbytes, -, -⟩ := jalUndo_jalBytes ip 0xef b c d
      have hjal : riscvAct ip [0xef, b, c, d] = jalBytes ip 0xef b c d := rfl
      rw [hjal, hbytes]
      rfl
  | half hb htail => rfl
  | other hjal hauipc htail => rfl
  | pair hfirst hsecond hauipc hlinked hdepends =>
      rw [riscvAct_pair hfirst hsecond ip hlinked, List.length_append, List.length_append, hfirst,
        hsecond]
      rfl
  | loose hauipc hlinked hdepends => rfl
  | marked hfirst hsecond hauipc hlinked hmarked =>
      obtain ⟨a, -, hact⟩ := riscvAct_marked hfirst hsecond ip hlinked
      rw [hact, List.length_append, List.length_append, hfirst, hsecond]
      rfl
  | @single a b c d _ hauipc hlinked hmarked htail =>
      have ha := (auipc_iff a [b, c, d]).mpr hauipc
      have hsame : riscvAct ip [a, b, c, d] = [a, b, c, d] := if_neg (not_jal_of_auipc ha)
      rw [hsame]

/-- Nothing is lost in a stride. -/
theorem undo_act (hstride : RiscvStride front tail) : riscvUndo ip (riscvAct ip front) = front := by
  have hip := ip.toNat_lt
  cases hstride with
  | @jal b c d _ hb htail =>
      obtain ⟨b', c', d', hbytes, -, hundo⟩ := jalUndo_jalBytes ip 0xef b c d
      have hjal : riscvAct ip [0xef, b, c, d] = jalBytes ip 0xef b c d := rfl
      have hback : riscvUndo ip [0xef, b', c', d'] = jalUndo ip 0xef b' c' d' := rfl
      rw [hjal, hbytes, hback, hundo]
  | half hb htail => rfl
  | other hjal hauipc htail => rfl
  | @pair first second _ hfirst hsecond hauipc hlinked hdepends =>
      have hlt : leValue second % 2 ^ 20 * 2 ^ 12 + 0x117 < 2 ^ 32 := by omega
      have haddress : leValue first / 2 ^ 12 * 2 ^ 12 + leValue second / 2 ^ 20 < 2 ^ 32 := by
        have h₁ := word_lt hfirst
        have h₂ := word_lt hsecond
        exact packed_lt (Nat.div_lt_of_lt_mul h₁) (Nat.div_lt_of_lt_mul h₂)
      rw [riscvAct_pair hfirst hsecond ip hlinked,
        riscvUndo_words (length_leBytes 4 _) (length_leBytes 4 _), leValue_leBytes_of_lt hlt,
        if_neg (marked_of_pair hlinked hdepends).1, leValue_leBytes_of_lt haddress,
        pairUndo_marked hauipc (word_lt hsecond) hdepends]
      rw [← hfirst, leBytes_leValue, hfirst, ← hsecond, leBytes_leValue]
  | loose hauipc hlinked hdepends => rfl
  | @marked first second _ hfirst hsecond hauipc hlinked hmarked =>
      have hlt := word_lt hfirst
      have hword : leValue second.reverse < 2 ^ 32 :=
        word_lt (List.length_reverse.trans hsecond)
      have hregister : leValue first / 2 ^ 27 * 2 ^ 7 + 0x17 < 2 ^ 12 := by omega
      have htop : leValue first / 2 ^ 12 < 2 ^ 20 := by omega
      obtain ⟨a, ha, hact⟩ := riscvAct_marked hfirst hsecond ip hlinked
      obtain ⟨hrd, -⟩ := pair_of_marked hlt ((a + 0x800) / 2 ^ 12 % 2 ^ 20) (a % 2 ^ 12)
        hmarked
      have hupper : (a + 0x800) / 2 ^ 12 % 2 ^ 20 * 2 ^ 12
          + (leValue first / 2 ^ 27 * 2 ^ 7 + 0x17) < 2 ^ 32 :=
        packed_lt (Nat.mod_lt _ (by decide)) hregister
      have hlow : a % 2 ^ 12 * 2 ^ 20 + leValue first / 2 ^ 12 < 2 ^ 32 :=
        packed_lt (Nat.mod_lt _ (by decide)) htop
      have hmark : leValue first % 2 ^ 12 = 0x117 := by
        have := hmarked.1
        omega
      rw [hact, riscvUndo_words (length_leBytes 4 _) (length_leBytes 4 _),
        leValue_leBytes_of_lt hupper, hrd, if_pos hmarked.2, leValue_leBytes_of_lt hlow,
        markedUndo_pair hip hword hlt ha hmark]
      rw [← hfirst, leBytes_leValue, hfirst, ← hsecond, ← List.length_reverse, leBytes_leValue,
        List.reverse_reverse]
  | @single a b c d _ hauipc hlinked hmarked htail =>
      have ha := (auipc_iff a [b, c, d]).mpr hauipc
      have hsame : riscvAct ip [a, b, c, d] = [a, b, c, d] := if_neg (not_jal_of_auipc ha)
      rw [hsame]
      exact if_neg (not_jal_of_auipc ha)

end RiscvStride

/-- A stride keeps the half byte that what stands before it may have looked at. -/
theorem RiscvStride.alike {front tail tail' : Bytes} (hstride : RiscvStride front tail)
    (ip : UInt32) (htail : Alike tail tail') : Alike (front ++ tail) (riscvAct ip front ++ tail') := by
  have hlength : (riscvAct ip front ++ tail').length = (front ++ tail).length := by
    rw [List.length_append, List.length_append, hstride.length_act, htail.1]
  refine ⟨hlength, ?_⟩
  have hkept (word : Bytes) {value : Nat} (hword : word.length = 4)
      (hauipc : leValue word % 2 ^ 7 = 0x17) (hvalue : value % 2 ^ 7 = 0x17) (rest rest' : Bytes) :
      (leBytes 4 value ++ rest').head?.map (·.toNat % 16) = (word ++ rest).head?.map (·.toNat % 16) := by
    obtain ⟨a, b, c, d, rfl⟩ := List.length_eq_four.mp hword
    rw [leValue] at hauipc
    show some ((UInt8.ofNat (value % 256)).toNat % 16) = some (a.toNat % 16)
    have hbyte : (UInt8.ofNat (value % 256)).toNat = value % 256 :=
      UInt8.toNat_ofNat_of_lt' (Nat.mod_lt _ (by decide))
    rw [hbyte]
    exact congrArg some (by omega)
  cases hstride with
  | @jal b c d _ hb htail =>
      obtain ⟨b', c', d', hbytes, -, -⟩ := jalUndo_jalBytes ip 0xef b c d
      have hjal : riscvAct ip [0xef, b, c, d] = jalBytes ip 0xef b c d := rfl
      rw [hjal, hbytes]
      rfl
  | half hb htail => rfl
  | other hjal hauipc htail => rfl
  | pair hfirst hsecond hauipc hlinked hdepends =>
      rw [riscvAct_pair hfirst hsecond ip hlinked, List.append_assoc, List.append_assoc]
      exact hkept _ hfirst hauipc (by omega) _ _
  | loose hauipc hlinked hdepends => rfl
  | marked hfirst hsecond hauipc hlinked hmarked =>
      obtain ⟨a, -, hact⟩ := riscvAct_marked hfirst hsecond ip hlinked
      rw [hact, List.append_assoc, List.append_assoc]
      exact hkept _ hfirst hauipc (by omega) _ _
  | @single a b c d _ hauipc hlinked hmarked htail =>
      have ha := (auipc_iff a [b, c, d]).mpr hauipc
      have hsame : riscvAct ip [a, b, c, d] = [a, b, c, d] := if_neg (not_jal_of_auipc ha)
      rw [hsame]
      rfl

section walk

variable {ip : UInt32} {rest : Bytes}

theorem riscvCut_of_short (h : rest.length < 8) : riscvCut rest = 0 := by
  rcases rest with _ | ⟨a, _ | ⟨b, _ | ⟨c, _ | ⟨d, _ | ⟨e, _ | ⟨f, _ | ⟨g, _ | ⟨h', tail⟩⟩⟩⟩⟩⟩⟩⟩
  case cons.cons.cons.cons.cons.cons.cons.cons =>
    simp only [List.length_cons] at h
    omega
  all_goals rfl

theorem strides_riscvGait (h : riscvGait.Strides ip rest) : 8 ≤ rest.length := by
  by_contra hshort
  have hcut : riscvGait.cut ip rest = 0 := riscvCut_of_short (by omega)
  exact absurd h.1 (by rw [hcut]; decide)

/-- What the walk takes is a stride. -/
theorem riscvStride_front (h : riscvGait.Strides ip rest) :
    RiscvStride (riscvGait.front ip rest) (riscvGait.behind ip rest) := by
  obtain ⟨front, tail, rfl, hstride⟩ := exists_stride (strides_riscvGait h)
  have hcut : riscvGait.cut ip (front ++ tail) = front.length := hstride.cut
  rwa [Gait.front, Gait.behind, hcut, List.take_left, List.drop_left]

theorem walk_riscvShort (h : rest.length < 8) : riscvGait.walk ip rest = rest :=
  Gait.walk_of_not fun hstrides => absurd (strides_riscvGait hstrides) (by omega)

/-- A walk keeps the half byte that what stands before it may have looked at. -/
theorem alike_walk (ip : UInt32) (rest : Bytes) : Alike rest (riscvGait.walk ip rest) := by
  induction ip, rest using Gait.stride_induction (G := riscvGait) with
  | stop ip rest h =>
      rw [Gait.walk_of_not h]
      exact Alike.refl rest
  | stride ip rest h ih =>
      have halike := (riscvStride_front h).alike ip ih
      rw [Gait.front_append_behind] at halike
      rw [Gait.walk_of_strides h]
      exact halike

end walk

theorem steady_riscvGait : riscvGait.Steady where
  length_act {ip rest} h := by
    rw [← Gait.length_front h]
    exact (riscvStride_front h).length_act ip
  cut_walk ip rest := by
    by_cases h : riscvGait.Strides ip rest
    · have hstride := (riscvStride_front h).act ip (alike_walk (riscvGait.after ip rest) _)
      rw [Gait.walk_of_strides h, ← Gait.length_front h, ← (riscvStride_front h).length_act ip]
      exact hstride.cut
    · rw [Gait.walk_of_not h]
  next_act {ip rest} h := by
    show ip + UInt32.ofNat (riscvAct ip _).length = ip + UInt32.ofNat _
    rw [(riscvStride_front h).length_act]

/-- The encoder gives back what was decoded, stride by stride. -/
theorem riscvBack_walk (ip : UInt32) (rest : Bytes) :
    riscvBack.walk ip (riscvGait.walk ip rest) = rest :=
  steady_riscvGait.walk_walk (H := riscvBack) rfl rfl (fun {ip _} h => (riscvStride_front h).undo_act ip) ip rest

/-! ### The rounds -/

section rounds

variable {start : UInt32} {done rest : Bytes}

/-- The `JAL` in front is rewritten. -/
theorem convertJal_done {b c d : UInt8} (hoffset : done.length + 4 < 2 ^ 64) :
    (convertJal start done.length 0xef b (done ++ ([0xef, b, c, d] ++ rest))).result
      = .ok (done ++ (jalBytes (start + UInt32.ofNat done.length) 0xef b c d ++ rest)) := by
  have hbyte (word mask : UInt32) (hmask : mask.toNat < 256) : (word &&& mask).toNat < 256 := by
    rw [UInt32.toNat_and]
    exact Nat.lt_of_le_of_lt Nat.and_le_right hmask
  have hor {word word' : UInt32} (h : word.toNat < 256) (h' : word'.toNat < 256) :
      (word ||| word').toNat < 256 := by
    rw [UInt32.toNat_or]
    exact Nat.or_lt_two_pow (n := 8) h h'
  refine Metered.bind_eq_ok.mpr ⟨_, addOffset_ok (by omega) _, Metered.bind_eq_ok.mpr
    ⟨c, byteAt_front rfl _, Metered.bind_eq_ok.mpr ⟨_, addOffset_ok (by omega) _,
      Metered.bind_eq_ok.mpr ⟨d, byteAt_front rfl _, Metered.bind_eq_ok.mpr
        ⟨_, lowU32Offset_eq _, ?_⟩⟩⟩⟩⟩
  refine Metered.bind_eq_ok.mpr ⟨_, wordToByte_eq (hbyte _ _ (by decide)) _, Metered.bind_eq_ok.mpr
    ⟨_, wordToByte_eq (hor (hor (hbyte _ _ (by decide)) (hbyte _ _ (by decide)))
      (hbyte _ _ (by decide))) _, Metered.bind_eq_ok.mpr
        ⟨_, wordToByte_eq (hor (hbyte _ _ (by decide)) (hbyte _ _ (by decide))) _, ?_⟩⟩⟩
  exact writeSlice_done rfl hoffset

section words

variable {first second : Bytes} (hfirst : first.length = 4) (hsecond : second.length = 4)
  (hoffset : done.length + 8 < 2 ^ 64)

include hfirst hsecond hoffset

theorem readSecond_done {o t : String} :
    (readSlice o t 4 (done ++ (first ++ second ++ rest)) (done.length + 4)).result = .ok second := by
  have hdone : (done ++ first).length = done.length + 4 := by rw [List.length_append, hfirst]
  rw [List.append_assoc first, ← List.append_assoc done, ← hdone]
  exact readSlice_done hsecond (by omega)

theorem writePair_done (instruction word : UInt32) :
    (writePair done.length instruction word (done ++ (first ++ second ++ rest))).result
      = .ok (done ++ (u32ToLe instruction ++ u32ToLe word ++ rest), done.length + 8) := by
  have hdone : (done ++ u32ToLe instruction).length = done.length + 4 := by
    rw [List.length_append]
    rfl
  have hwritten : (writeU32Le (done ++ (first ++ second ++ rest)) done.length instruction).result
      = .ok (done ++ (u32ToLe instruction ++ (second ++ rest))) := by
    rw [List.append_assoc first]
    exact writeSlice_done hfirst.symm (by omega)
  have hagain : (writeU32Le (done ++ (u32ToLe instruction ++ (second ++ rest))) (done.length + 4)
      word).result = .ok (done ++ (u32ToLe instruction ++ u32ToLe word ++ rest)) := by
    rw [← List.append_assoc done, ← hdone, List.append_assoc (u32ToLe instruction), ← List.append_assoc done]
    exact writeSlice_done hsecond.symm (by omega)
  exact Metered.bind_eq_ok.mpr ⟨_, hwritten, Metered.bind_eq_ok.mpr ⟨_, addOffset_ok (by omega) _,
    Metered.bind_eq_ok.mpr ⟨_, hagain, Metered.bind_eq_ok.mpr ⟨_, addOffset_ok (by omega) _, rfl⟩⟩⟩⟩

end words

/-- The word in front. -/
theorem readFirst_done {first : Bytes} (hfirst : first.length = 4) (hoffset : done.length + 4 < 2 ^ 64) :
    (readU32Le (done ++ (first ++ rest)) done.length).result = .ok (u32FromLe first) :=
  Metered.bind_eq_ok.mpr ⟨first, readSlice_done hfirst hoffset, rfl⟩

/-- The test for an `AUIPC` that names a register. -/
theorem linked_fromLe {first : Bytes} (hfirst : first.length = 4) :
    u32FromLe first &&& 0x0e80 ≠ 0 ↔ Linked (rd (leValue first)) := by
  rw [linked_iff, toNat_fromLe hfirst]

theorem convertAuipc_pair {first second : Bytes} (hfirst : first.length = 4)
    (hsecond : second.length = 4) (hoffset : done.length + 8 < 2 ^ 64)
    (hlinked : Linked (rd (leValue first))) (hdepends : Depends (leValue first) (leValue second)) :
    (convertAuipc start done.length (done ++ (first ++ second ++ rest))).result
      = .ok (done ++ (markedBytes (u32FromLe first) (u32FromLe second) ++ rest), done.length + 8) := by
  have hread : (readU32Le (done ++ (first ++ second ++ rest)) done.length).result
      = .ok (u32FromLe first) := by
    rw [List.append_assoc first]
    exact readFirst_done hfirst (by omega)
  have hpair : ¬ isNotAuipcPair (u32FromLe first) (u32FromLe second) = true := by
    rw [isNotAuipcPair_iff, toNat_fromLe hfirst, toNat_fromLe hsecond]
    exact not_not_intro hdepends
  refine Metered.bind_eq_ok.mpr ⟨_, hread, ?_⟩
  rw [if_pos ((linked_fromLe hfirst).mpr hlinked)]
  refine Metered.bind_eq_ok.mpr ⟨_, addOffset_ok (by omega) _, Metered.bind_eq_ok.mpr
    ⟨u32FromLe second, Metered.bind_eq_ok.mpr
      ⟨_, readSecond_done hfirst hsecond hoffset, rfl⟩, ?_⟩⟩
  rw [if_neg hpair]
  exact writePair_done hfirst hsecond hoffset _ _

theorem convertAuipc_marked {first second : Bytes} (hfirst : first.length = 4)
    (hsecond : second.length = 4) (hoffset : done.length + 8 < 2 ^ 64)
    (hlinked : ¬ Linked (rd (leValue first))) (hmarked : Marked (leValue first)) :
    (convertAuipc start done.length (done ++ (first ++ second ++ rest))).result
      = .ok (done ++ (pairBytes (start + UInt32.ofNat done.length) (u32FromLe first)
          (u32FromBe second) ++ rest), done.length + 8) := by
  have hread : (readU32Le (done ++ (first ++ second ++ rest)) done.length).result
      = .ok (u32FromLe first) := by
    rw [List.append_assoc first]
    exact readFirst_done hfirst (by omega)
  have hspecial : ¬ isNotSpecialAuipc (u32FromLe first) (u32FromLe first >>> 27) = true := by
    rw [isNotSpecialAuipc_iff, toNat_fromLe hfirst]
    exact not_not_intro hmarked
  refine Metered.bind_eq_ok.mpr ⟨_, hread, ?_⟩
  rw [if_neg (mt (linked_fromLe hfirst).mp hlinked)]
  show (if isNotSpecialAuipc _ _ then _ else _ : Work (Bytes × Nat)).result = _
  rw [if_neg hspecial]
  refine Metered.bind_eq_ok.mpr ⟨_, addOffset_ok (by omega) _, Metered.bind_eq_ok.mpr
    ⟨_, lowU32Offset_eq _, Metered.bind_eq_ok.mpr ⟨u32FromBe second, Metered.bind_eq_ok.mpr
      ⟨_, readSecond_done hfirst hsecond hoffset, rfl⟩, ?_⟩⟩⟩
  exact writePair_done hfirst hsecond hoffset _ _

theorem convertAuipc_loose {first second : Bytes} (hfirst : first.length = 4)
    (hsecond : second.length = 4) (hoffset : done.length + 8 < 2 ^ 64)
    (hlinked : Linked (rd (leValue first))) (hdepends : ¬ Depends (leValue first) (leValue second)) :
    (convertAuipc start done.length (done ++ (first ++ second ++ rest))).result
      = .ok (done ++ (first ++ second ++ rest), done.length + 6) := by
  have hread : (readU32Le (done ++ (first ++ second ++ rest)) done.length).result
      = .ok (u32FromLe first) := by
    rw [List.append_assoc first]
    exact readFirst_done hfirst (by omega)
  have hpair : isNotAuipcPair (u32FromLe first) (u32FromLe second) = true := by
    rwa [isNotAuipcPair_iff, toNat_fromLe hfirst, toNat_fromLe hsecond]
  refine Metered.bind_eq_ok.mpr ⟨_, hread, ?_⟩
  rw [if_pos ((linked_fromLe hfirst).mpr hlinked)]
  refine Metered.bind_eq_ok.mpr ⟨_, addOffset_ok (by omega) _, Metered.bind_eq_ok.mpr
    ⟨u32FromLe second, Metered.bind_eq_ok.mpr
      ⟨_, readSecond_done hfirst hsecond hoffset, rfl⟩, ?_⟩⟩
  rw [if_pos hpair]
  exact Metered.bind_eq_ok.mpr ⟨_, addOffset_ok (by omega) _, rfl⟩

theorem convertAuipc_single {first : Bytes} (hfirst : first.length = 4)
    (hoffset : done.length + 4 < 2 ^ 64) (hlinked : ¬ Linked (rd (leValue first)))
    (hmarked : ¬ Marked (leValue first)) :
    (convertAuipc start done.length (done ++ (first ++ rest))).result
      = .ok (done ++ (first ++ rest), done.length + 4) := by
  have hspecial : isNotSpecialAuipc (u32FromLe first) (u32FromLe first >>> 27) = true := by
    rwa [isNotSpecialAuipc_iff, toNat_fromLe hfirst]
  refine Metered.bind_eq_ok.mpr ⟨_, readFirst_done hfirst hoffset, ?_⟩
  rw [if_neg (mt (linked_fromLe hfirst).mp hlinked)]
  show (if isNotSpecialAuipc _ _ then _ else _ : Work (Bytes × Nat)).result = _
  rw [if_pos hspecial]
  exact Metered.bind_eq_ok.mpr ⟨_, addOffset_ok (by omega) _, rfl⟩

/-- A round at an `AUIPC`. -/
theorem riscvRound_auipc {a : UInt8} {out : Bytes × Nat} (ha : a &&& 0x7f = 0x17)
    (h : (convertAuipc start done.length (done ++ a :: rest)).result = .ok out) :
    (riscvRound start done.length (done ++ a :: rest)).result = .ok out := by
  have hfirst : (done ++ a :: rest)[done.length]? = some a := by
    rw [List.getElem?_append_right (Nat.le_refl _), Nat.sub_self]
    rfl
  refine Metered.bind_eq_ok.mpr ⟨(), rfl, Metered.bind_eq_ok.mpr ⟨a, orFormat_eq_ok.mpr hfirst, ?_⟩⟩
  rwa [if_neg (not_jal_of_auipc ha), if_pos ha]

/-- A round takes the stride of the walk. -/
theorem riscvRound_done {front tail : Bytes} (hstride : RiscvStride front tail)
    (hlen : done.length + (front ++ tail).length < 2 ^ 64) :
    (riscvRound start done.length (done ++ (front ++ tail))).result
      = .ok (done ++ (riscvAct (start + UInt32.ofNat done.length) front ++ tail),
          done.length + front.length) := by
  have hoffset : done.length + 8 < 2 ^ 64 := by
    have := hstride.length
    omega
  cases hstride with
  | @jal b c d _ hb htail =>
      have hfirst : (byteAt (done ++ ([0xef, b, c, d] ++ tail)) done.length
          "RISC-V instruction is truncated").result = .ok 0xef := by
        have hzero : ([0xef, b, c, d] : Bytes)[0]? = some 0xef := rfl
        exact byteAt_front hzero _
      refine Metered.bind_eq_ok.mpr ⟨(), rfl, Metered.bind_eq_ok.mpr ⟨_, hfirst, ?_⟩⟩
      rw [if_pos rfl]
      refine Metered.bind_eq_ok.mpr ⟨_, addOffset_ok (by omega) _, Metered.bind_eq_ok.mpr
        ⟨b, byteAt_front rfl _, ?_⟩⟩
      rw [if_pos hb]
      exact Metered.bind_eq_ok.mpr ⟨_, convertJal_done (by omega), Metered.bind_eq_ok.mpr
        ⟨_, addOffset_ok (by omega) _, rfl⟩⟩
  | @half b _ hb htail =>
      have hfirst : (byteAt (done ++ ([0xef, b] ++ tail)) done.length
          "RISC-V instruction is truncated").result = .ok 0xef := by
        have hzero : ([0xef, b] : Bytes)[0]? = some 0xef := rfl
        exact byteAt_front hzero _
      refine Metered.bind_eq_ok.mpr ⟨(), rfl, Metered.bind_eq_ok.mpr ⟨_, hfirst, ?_⟩⟩
      rw [if_pos rfl]
      refine Metered.bind_eq_ok.mpr ⟨_, addOffset_ok (by omega) _, Metered.bind_eq_ok.mpr
        ⟨b, byteAt_front rfl _, ?_⟩⟩
      rw [if_neg hb]
      exact Metered.bind_eq_ok.mpr ⟨_, addOffset_ok (by omega) _, rfl⟩
  | @other a b _ hjal hauipc htail =>
      have hfirst : (byteAt (done ++ ([a, b] ++ tail)) done.length
          "RISC-V instruction is truncated").result = .ok a := by
        have hzero : [a, b][0]? = some a := rfl
        exact byteAt_front hzero _
      refine Metered.bind_eq_ok.mpr ⟨(), rfl, Metered.bind_eq_ok.mpr ⟨_, hfirst, ?_⟩⟩
      rw [if_neg hjal, if_neg hauipc]
      exact Metered.bind_eq_ok.mpr ⟨_, addOffset_ok (by omega) _, rfl⟩
  | @pair first second _ hfirst hsecond hauipc hlinked hdepends =>
      have hround : (convertAuipc start done.length (done ++ (first ++ second ++ tail))).result
          = .ok _ := convertAuipc_pair hfirst hsecond hoffset hlinked hdepends
      rw [riscvAct_words hfirst hsecond, if_pos hlinked, List.length_append, hfirst, hsecond]
      obtain ⟨a, b, c, d, rfl⟩ := List.length_eq_four.mp hfirst
      exact riscvRound_auipc ((auipc_iff a [b, c, d]).mpr hauipc) hround
  | @loose a b c d e f g h rest hauipc hlinked hdepends =>
      have hfirst : [a, b, c, d].length = 4 := rfl
      have hsecond : [e, f, g, h].length = 4 := rfl
      have hround : (convertAuipc start done.length
          (done ++ ([a, b, c, d] ++ [e, f, g, h] ++ rest))).result = .ok _ :=
        convertAuipc_loose hfirst hsecond hoffset hlinked hdepends
      exact riscvRound_auipc ((auipc_iff a [b, c, d]).mpr hauipc) hround
  | @marked first second _ hfirst hsecond hauipc hlinked hmarked =>
      have hround : (convertAuipc start done.length (done ++ (first ++ second ++ tail))).result
          = .ok _ := convertAuipc_marked hfirst hsecond hoffset hlinked hmarked
      rw [riscvAct_words hfirst hsecond, if_neg hlinked, List.length_append, hfirst, hsecond]
      obtain ⟨a, b, c, d, rfl⟩ := List.length_eq_four.mp hfirst
      exact riscvRound_auipc ((auipc_iff a [b, c, d]).mpr hauipc) hround
  | @single a b c d _ hauipc hlinked hmarked htail =>
      have ha := (auipc_iff a [b, c, d]).mpr hauipc
      have hsame : riscvAct (start + UInt32.ofNat done.length) [a, b, c, d] = [a, b, c, d] :=
        if_neg (not_jal_of_auipc ha)
      have hfour : [a, b, c, d].length = 4 := rfl
      have hoffset : done.length + 4 < 2 ^ 64 := by omega
      rw [hsame]
      exact riscvRound_auipc ha (convertAuipc_single hfour hoffset hlinked hmarked)

end rounds

/-- The filter walks over its input, from the start position without its lowest bit on. -/
theorem decodeRiscv_walk {properties : Bytes} {start : UInt32}
    (hstart : (startingPosition properties).result = .ok start) {bytes : Bytes}
    (hlen : bytes.length < 2 ^ 64) :
    (decodeRiscv properties bytes).result = .ok (riscvGait.walk (start &&& ~~~1) bytes) := by
  unfold decodeRiscv
  by_cases hshort : bytes.length < 8
  · rw [if_pos hshort, walk_riscvShort hshort]
    rfl
  · have hend : checkedSub bytes.length 8 = some (bytes.length - 8) := checkedSub_of_le (by omega)
    rw [if_neg hshort]
    refine Metered.bind_eq_ok.mpr ⟨start, hstart, Metered.bind_eq_ok.mpr
      ⟨_, orFormat_eq_ok.mpr hend, ?_⟩⟩
    refine scanWhile_start steady_riscvGait.length_act (fun {ip _} h => ?_)
      (fun done rest hn hle => ?_) fun done rest hn hgt hstrides => ?_
    · exact congrArg (fun n => ip + UInt32.ofNat n) (Gait.length_front h)
    · obtain ⟨front, tail, rfl, hstride⟩ := exists_stride (show 8 ≤ rest.length by omega)
      exact takesStride_of hstride.length_pos hstride.cut (riscvRound_done hstride (by omega))
    · have height := strides_riscvGait hstrides
      omega

/-- Inputs that are too short are accepted as they are, whatever the properties. -/
theorem accepts_riscv {properties bytes out : Bytes}
    (h : (decodeRiscv properties bytes).result = .ok out) :
    bytes.length < 8 ∨ ∃ start, (startingPosition properties).result = .ok start := by
  unfold decodeRiscv at h
  by_cases hshort : bytes.length < 8
  · exact .inl hshort
  · rw [if_neg hshort] at h
    obtain ⟨start, hstart, -⟩ := Metered.bind_eq_ok.mp h
    exact .inr ⟨start, hstart⟩

/--
**The RISC-V filter loses nothing.**

Properties that the filter accepts for one input of a length it accepts for all of them, and
it is a bijection on these inputs.
-/
theorem decodeRiscv_lossless {properties : Bytes} {n : Nat} (hn : n < 2 ^ 64)
    (haccepts : ∃ bytes out : Bytes, bytes.length = n ∧
      (decodeRiscv properties bytes).result = .ok out) :
    ∃ decoded : Bytes → Bytes,
      (∀ bytes : Bytes, bytes.length = n →
        (decodeRiscv properties bytes).result = .ok (decoded bytes)) ∧
      Set.BijOn decoded {bytes | bytes.length = n} {bytes | bytes.length = n} := by
  obtain ⟨bytes, out, hbytes, hout⟩ := haccepts
  rcases accepts_riscv hout with hshort | ⟨start, hstart⟩
  · refine ⟨id, fun other hother => ?_, Set.bijOn_id _⟩
    unfold decodeRiscv
    rw [if_pos (by omega)]
    rfl
  · have hinjective : Function.Injective (riscvGait.walk (start &&& ~~~1)) :=
      Function.LeftInverse.injective (riscvBack_walk _)
    have hfinite := finite_byte
    exact ⟨riscvGait.walk (start &&& ~~~1), fun other hother => decodeRiscv_walk hstart (by omega),
      steady_riscvGait.walk_bijOn hinjective n⟩

/-- From an odd start position. -/
theorem decodeRiscv_lossless_odd : ∃ decoded : Bytes → Bytes,
    (∀ bytes : Bytes, bytes.length = 9 →
      (decodeRiscv [1, 0, 0, 0] bytes).result = .ok (decoded bytes)) ∧
    Set.BijOn decoded {bytes | bytes.length = 9} {bytes | bytes.length = 9} :=
  have hstart : (startingPosition [1, 0, 0, 0]).result = .ok 1 := rfl
  have hzeros : ([0, 0, 0, 0, 0, 0, 0, 0, 0] : Bytes).length < 2 ^ 64 := by decide
  decodeRiscv_lossless (by decide) ⟨_, _, rfl, decodeRiscv_walk hstart hzeros⟩

end CompatibilityFilters

end Un7z
