/-
What the ARM, ARM64 and SPARC filters move.

These filters go from word to word.  A word is a branch by the bits around its address,
and the address is an operand: what the filter takes away from it is the pointer of the
word in units of the address, and the bits around it stay what they are.  That the address
is cut in two and sign-extended, as it is in the `ADRP` of ARM64 and the `CALL` of SPARC,
is a matter of how the operand is read and written.
-/
import Mathlib.Data.Nat.ModEq
import Un7z.Lib.Gait
import Un7z.Lib.Operand
import Un7z.Proofs.Reads
import Un7z.Proofs.WordFilters

namespace Un7z

namespace Filters

open Grammar (leBytes)
open Relocation (relocate)

/-! ### Masks -/

theorem and_mul_two_pow (x m k : Nat) : x &&& m * 2 ^ k = (x / 2 ^ k &&& m) * 2 ^ k := by
  refine Nat.eq_of_testBit_eq fun i => ?_
  rw [Nat.testBit_and, Nat.testBit_mul_two_pow, Nat.testBit_mul_two_pow, Nat.testBit_and]
  by_cases h : k ≤ i
  · rw [Nat.testBit_div_two_pow, Nat.sub_add_cancel h]
    simp [h]
  · simp [h]

/-- A mask of ones from bit `k` up. -/
theorem and_ones (x a k : Nat) : x &&& (2 ^ a - 1) * 2 ^ k = x / 2 ^ k % 2 ^ a * 2 ^ k := by
  rw [and_mul_two_pow, Nat.and_two_pow_sub_one_eq_mod]

theorem or_eq_add {b i : Nat} (h : b < 2 ^ i) (a : Nat) : a * 2 ^ i ||| b = a * 2 ^ i + b := by
  rw [← Nat.shiftLeft_eq, Nat.shiftLeft_add_eq_or_of_lt h]

/-! ### Numbers and their bytes -/

/-- Numbers of so many bytes, the low byte first. -/
def littleEndian (width : Nat) : Encoding Bytes where
  bound := 256 ^ width
  Whole bytes := bytes.length = width
  decide _ := inferInstanceAs (Decidable (_ = _))
  read := leValue
  write := leBytes width
  read_lt h := h ▸ leValue_lt _
  whole_write v := length_leBytes width v
  read_write h := by rw [leValue_leBytes, Nat.mod_eq_of_lt h]
  write_read h := h ▸ leBytes_leValue _

/-- Numbers of so many bytes, the high byte first. -/
def bigEndian (width : Nat) : Encoding Bytes where
  bound := 256 ^ width
  Whole bytes := bytes.length = width
  decide _ := inferInstanceAs (Decidable (_ = _))
  read bytes := leValue bytes.reverse
  write v := (leBytes width v).reverse
  read_lt {bytes} h := by
    have hlt := leValue_lt bytes.reverse
    rwa [List.length_reverse, h] at hlt
  whole_write v := by rw [List.length_reverse, length_leBytes]
  read_write h := by rw [List.reverse_reverse, leValue_leBytes, Nat.mod_eq_of_lt h]
  write_read {bytes} h := by
    rw [← h, ← List.length_reverse, leBytes_leValue, List.reverse_reverse]

theorem u32ToLe_eq (word : UInt32) : u32ToLe word = leBytes 4 word.toNat := by
  have hbyte (shift : UInt32) (hshift : shift.toNat < 32) :
      (word >>> shift).toUInt8 = UInt8.ofNat (word.toNat / 2 ^ shift.toNat % 256) := by
    refine UInt8.toNat_inj.mp ?_
    rw [toNat_byte _ _ hshift, UInt8.toNat_ofNat_of_lt' (Nat.mod_lt _ (by decide))]
  have hlow : word.toUInt8 = UInt8.ofNat (word.toNat % 256) := by
    refine UInt8.toNat_inj.mp ?_
    rw [UInt32.toNat_toUInt8, UInt8.toNat_ofNat_of_lt' (Nat.mod_lt _ (by decide))]
  have h₁ : word.toNat / 256 / 256 = word.toNat / 2 ^ 16 := Nat.div_div_eq_div_mul _ _ _
  have h₂ : word.toNat / 2 ^ 16 / 256 = word.toNat / 2 ^ 24 := Nat.div_div_eq_div_mul _ _ _
  rw [u32ToLe, hlow, hbyte 8 (by decide), hbyte 16 (by decide), hbyte 24 (by decide)]
  simp only [leBytes, h₁, h₂]
  rfl

theorem u32ToBe_eq_reverse (word : UInt32) : u32ToBe word = (leBytes 4 word.toNat).reverse := by
  rw [u32ToBe, u32ToLe_eq]

theorem toNat_fromLe {front : Bytes} (h : front.length = 4) :
    (u32FromLe front).toNat = leValue front := by
  have hlt := leValue_lt front
  rw [h] at hlt
  exact UInt32.toNat_ofNat_of_lt' hlt

theorem toNat_fromBe {front : Bytes} (h : front.length = 4) :
    (u32FromBe front).toNat = leValue front.reverse := by
  have hlt := leValue_lt front.reverse
  rw [List.length_reverse, h] at hlt
  exact UInt32.toNat_ofNat_of_lt' hlt

/-! ### Operands -/

/-- The bits below an opcode. -/
def belowOpcode (bits opcode : Nat) : Operand Nat where
  modulus := 2 ^ bits
  Recognized w := w / 2 ^ bits = opcode
  decide _ := inferInstanceAs (Decidable (_ = _))
  get w := w % 2 ^ bits
  put x _ := opcode * 2 ^ bits + x
  get_lt _ := Nat.mod_lt _ (Nat.two_pow_pos bits)
  recognized_put _ hx := by
    rw [Nat.mul_comm, Nat.mul_add_div (Nat.two_pow_pos bits), Nat.div_eq_of_lt hx, Nat.add_zero]
  get_put _ hx := by rw [Nat.mul_comm, Nat.mul_add_mod, Nat.mod_eq_of_lt hx]
  put_get {w} h := by rw [← h, Nat.mul_comm, Nat.div_add_mod]
  put_put _ _ _ := rfl

/-- An `ADRP` from its parts. -/
def adrpWord (low sign middle register : Nat) : Nat :=
  ((((4 + low) * 32 + 16) * 16 + sign) * 2 ^ 15 + middle) * 32 + register

section adrpWord

variable (low sign middle register : Nat) (hlow : low < 4) (hsign : sign < 16)
  (hmiddle : middle < 2 ^ 15) (hregister : register < 32)

include hlow hsign hmiddle hregister

/-- The parts of such a word, from the low bits up. -/
theorem adrpWord_parts :
    adrpWord low sign middle register % 32 = register ∧
      adrpWord low sign middle register / 32 % 2 ^ 15 = middle ∧
      adrpWord low sign middle register / 2 ^ 20 % 16 = sign ∧
      adrpWord low sign middle register / 2 ^ 24 % 32 = 16 ∧
      adrpWord low sign middle register / 2 ^ 29 % 4 = low ∧
      adrpWord low sign middle register / 2 ^ 31 = 1 := by
  unfold adrpWord
  generalize hword :
    ((((4 + low) * 32 + 16) * 16 + sign) * 2 ^ 15 + middle) * 32 + register = word
  have h₁ : word / 32 = (((4 + low) * 32 + 16) * 16 + sign) * 2 ^ 15 + middle := by omega
  have h₂ : word / 2 ^ 20 = ((4 + low) * 32 + 16) * 16 + sign := by
    rw [show 2 ^ 20 = 32 * 2 ^ 15 from rfl, ← Nat.div_div_eq_div_mul, h₁]
    omega
  have h₃ : word / 2 ^ 24 = (4 + low) * 32 + 16 := by
    rw [show 2 ^ 24 = 2 ^ 20 * 16 from rfl, ← Nat.div_div_eq_div_mul, h₂]
    omega
  have h₄ : word / 2 ^ 29 = 4 + low := by
    rw [show 2 ^ 29 = 2 ^ 24 * 32 from rfl, ← Nat.div_div_eq_div_mul, h₃]
    omega
  have h₅ : word / 2 ^ 31 = 1 := by
    rw [show 2 ^ 31 = 2 ^ 29 * 4 from rfl, ← Nat.div_div_eq_div_mul, h₄]
    omega
  omega

end adrpWord

theorem adrpWord_of_parts {w : Nat} (htop : w / 2 ^ 31 = 1) (hopcode : w / 2 ^ 24 % 32 = 16) :
    adrpWord (w / 2 ^ 29 % 4) (w / 2 ^ 20 % 16) (w / 32 % 2 ^ 15) (w % 32) = w := by
  have h₅ : w / 2 ^ 31 = w / 2 ^ 29 / 4 := by omega
  have h₄ : w / 2 ^ 29 = w / 2 ^ 24 / 32 := by omega
  have h₃ : w / 2 ^ 24 = w / 2 ^ 20 / 16 := by omega
  have h₂ : w / 2 ^ 20 = w / 32 / 2 ^ 15 := by omega
  have hhigh : 4 + w / 2 ^ 29 % 4 = w / 2 ^ 29 := by omega
  have hpage : (4 + w / 2 ^ 29 % 4) * 32 + 16 = w / 2 ^ 24 := by omega
  have hsign : w / 2 ^ 24 * 16 + w / 2 ^ 20 % 16 = w / 2 ^ 20 := by omega
  have hmiddle : w / 2 ^ 20 * 2 ^ 15 + w / 32 % 2 ^ 15 = w / 32 := by omega
  rw [adrpWord, hpage, hsign, hmiddle]
  omega

/--
The page of an `ADRP`: two bits above the opcode, and 19 below it of which the upper four
are a sign and say that the page is not too far away.  The negative pages come first.
-/
def adrpPage : Operand Nat where
  modulus := 2 ^ 18
  Recognized w := w / 2 ^ 31 = 1 ∧ w / 2 ^ 24 % 32 = 16 ∧
    (w / 2 ^ 20 % 16 = 0 ∨ w / 2 ^ 20 % 16 = 15)
  decide _ := inferInstanceAs (Decidable (_ ∧ _))
  get w := w / 2 ^ 29 % 4 + w / 32 % 2 ^ 15 * 4 + if w / 2 ^ 20 % 16 = 0 then 2 ^ 17 else 0
  put x w := adrpWord (x % 4) (if 2 ^ 17 ≤ x then 0 else 15) (x / 4 % 2 ^ 15) (w % 32)
  get_lt {w} _ := by split <;> omega
  recognized_put {w x} h hx := by
    obtain ⟨-, -, hsign, hopcode, -, htop⟩ := adrpWord_parts (x % 4)
      (if 2 ^ 17 ≤ x then 0 else 15) (x / 4 % 2 ^ 15) (w % 32) (by omega) (by split <;> omega)
      (by omega) (by omega)
    refine ⟨htop, hopcode, ?_⟩
    rw [hsign]
    split
    · exact .inl rfl
    · exact .inr rfl
  get_put {w x} h hx := by
    obtain ⟨-, hmiddle, hsign, -, hlow, -⟩ := adrpWord_parts (x % 4)
      (if 2 ^ 17 ≤ x then 0 else 15) (x / 4 % 2 ^ 15) (w % 32) (by omega) (by split <;> omega)
      (by omega) (by omega)
    rw [hmiddle, hsign, hlow]
    split <;> simp <;> omega
  put_get {w} h := by
    obtain ⟨htop, hopcode, hsign⟩ := h
    have hparts (low middle top : Nat) (hlow : low < 4) (hmiddle : middle < 2 ^ 15)
        (htop : top % 2 ^ 17 = 0) : (low + middle * 4 + top) % 4 = low ∧
          (low + middle * 4 + top) / 4 % 2 ^ 15 = middle := by omega
    have hlow : w / 2 ^ 29 % 4 < 4 := Nat.mod_lt _ (by decide)
    have hmiddle : w / 32 % 2 ^ 15 < 2 ^ 15 := Nat.mod_lt _ (by decide)
    refine Eq.trans ?_ (adrpWord_of_parts htop hopcode)
    rcases hsign with hsign | hsign
    · obtain ⟨h₁, h₂⟩ := hparts _ _ (2 ^ 17) hlow hmiddle rfl
      rw [hsign, if_pos rfl, if_pos (by omega), h₁, h₂]
    · obtain ⟨h₁, h₂⟩ := hparts _ _ 0 hlow hmiddle rfl
      rw [hsign, if_neg (by decide), if_neg (by omega), h₁, h₂]
  put_put {w x y} h hx hy := by
    obtain ⟨hregister, -⟩ := adrpWord_parts (x % 4)
      (if 2 ^ 17 ≤ x then 0 else 15) (x / 4 % 2 ^ 15) (w % 32) (by omega) (by split <;> omega)
      (by omega) (by omega)
    rw [hregister]

/-- The target of a `CALL` with its sign: bit 22, which the bits above it repeat. -/
def sparcTarget : Operand Nat where
  modulus := 2 ^ 23
  Recognized w := w / 2 ^ 22 = 256 ∨ w / 2 ^ 22 = 511
  decide _ := inferInstanceAs (Decidable (_ ∨ _))
  get w := w % 2 ^ 23
  put x _ := if x < 2 ^ 22 then 0x40000000 + x else 0x7f800000 + x
  get_lt _ := Nat.mod_lt _ (by decide)
  recognized_put {w x} h hx := by split <;> omega
  get_put {w x} h hx := by split <;> omega
  put_get {w} h := by split <;> omega
  put_put _ _ _ := rfl

/-! ### Walks that relocate -/

/-- A walk that moves the operands of what it takes, in the state of a pointer. -/
def relocating (cut : Bytes → Nat) (relocations : List (Relocation UInt32 Bytes)) :
    Gait UInt32 UInt8 where
  cut _ rest := cut rest
  act ip front := relocate relocations ip front
  next ip front := ip + UInt32.ofNat front.length

/-- Relocating so many bytes returns as many. -/
def Keeps (width : Nat) (relocations : List (Relocation UInt32 Bytes)) : Prop :=
  ∀ (ip : UInt32) (front : Bytes),
    front.length = width → (relocate relocations ip front).length = width

/-- Strides that are all of one width. -/
theorem steady_relocating {width : Nat} {relocations : List (Relocation UInt32 Bytes)}
    (h : Keeps width relocations) : (relocating (fun _ => width) relocations).Steady where
  length_act {ip rest} hrest := h ip _ (Gait.length_front hrest)
  cut_walk _ _ := rfl
  next_act {ip rest} hrest := by
    show ip + UInt32.ofNat (relocate relocations ip _).length = ip + UInt32.ofNat _
    rw [h ip _ (Gait.length_front hrest), Gait.length_front hrest]
    rfl

/-- From word to word. -/
def relocatingWords (relocations : List (Relocation UInt32 Bytes)) : Gait UInt32 UInt8 :=
  relocating (fun _ => 4) relocations

/-- One round at the offset where the done part ends makes this of the next four bytes. -/
def Relocates (body : UInt32 → Nat → InPlace) (relocations : List (Relocation UInt32 Bytes)) :
    Prop :=
  ∀ (ip : UInt32) (front done rest : Bytes), front.length = 4 → done.length + 4 < 2 ^ 64 →
    (body ip done.length (done ++ (front ++ rest))).result
      = .ok (done ++ (relocate relocations ip front ++ rest))

section relocatingWords

variable {relocations : List (Relocation UInt32 Bytes)} (h : Keeps 4 relocations)

include h

/-- The bytes of the word that four bytes are, rewritten. -/
theorem u32ToBe_relocate (ip word : UInt32) :
    u32ToBe (u32FromBe (relocate relocations ip (u32ToBe word)))
      = relocate relocations ip (u32ToBe word) := by
  have hlength := h ip _ (length_u32ToBe word)
  obtain ⟨a, b, c, d, hbytes⟩ := List.length_eq_four.mp hlength
  rw [hbytes, u32ToBe_fromBe]

theorem mapWords_eq_walk (bytes : Bytes) :
    ∀ (ip : UInt32) (offset : Nat), offset + bytes.length < 2 ^ 64 →
      mapWords (fun ip word => u32FromBe (relocate relocations ip (u32ToBe word))) ip offset bytes
        = (relocatingWords relocations).walk ip bytes := by
  induction hn : bytes.length using Nat.strong_induction_on generalizing bytes with
  | _ n ih =>
      intro ip offset hoffset
      rcases word_cases bytes with hshort | ⟨word, rest, rfl⟩
      · rw [mapWords_short hshort, Gait.walk_of_not]
        intro hstrides
        have : 4 ≤ bytes.length := hstrides.2
        omega
      · rw [List.length_append, length_u32ToBe] at hn
        have hstrides : (relocatingWords relocations).Strides ip (u32ToBe word ++ rest) := by
          refine ⟨Nat.succ_pos 3, ?_⟩
          rw [List.length_append, length_u32ToBe]
          exact Nat.le_add_right _ _
        rw [mapWords_append, if_pos (by omega), u32ToBe_relocate h,
          ih rest.length (by omega) rest rfl _ _ (by omega), Gait.walk_of_strides hstrides]
        rfl

/-- The loop walks over its input. -/
theorem wordsFrom_walk {body : UInt32 → Nat → InPlace} (hbody : Relocates body relocations)
    (overflows : String) (ip : UInt32) {bytes : Bytes} (hlen : bytes.length < 2 ^ 64) :
    (wordsFrom overflows body (bytes.length + 1) ip 0 bytes).result
      = .ok ((relocatingWords relocations).walk ip bytes) := by
  have hwords : RewritesWords body
      fun ip word => u32FromBe (relocate relocations ip (u32ToBe word)) := by
    intro ip word done rest hoffset
    rw [u32ToBe_relocate h]
    exact hbody ip _ done rest (length_u32ToBe word) hoffset
  rw [wordsFrom_start hwords, mapWords_eq_walk h bytes ip 0 (by omega)]

end relocatingWords

/-! ### Addresses of words -/

/-- A pointer is taken away from what a mask lets through, and the opcode is put back. -/
theorem toNat_belowOpcode (value amount mask high : UInt32) (bits opcode : Nat)
    (hbits : bits ≤ 32) (hmask : mask.toNat = 2 ^ bits - 1) (hhigh : high.toNat = opcode * 2 ^ bits) :
    (((value - amount) &&& mask) ||| high).toNat
      = (belowOpcode bits opcode).put ((belowOpcode bits opcode).moved amount.toNat value.toNat)
        value.toNat := by
  have hpos := Nat.two_pow_pos bits
  have hmod : (value - amount).toNat % 2 ^ bits
      = (value.toNat % 2 ^ bits + (2 ^ bits - amount.toNat % 2 ^ bits)) % 2 ^ bits := by
    have hamount := amount.toNat_lt
    have hlow := Nat.mod_lt amount.toNat hpos
    rw [UInt32.toNat_sub, Nat.mod_mod_of_dvd _ (Nat.pow_dvd_pow 2 hbits)]
    refine Nat.ModEq.add_right_cancel' amount.toNat ?_
    rw [show 2 ^ 32 - amount.toNat + value.toNat + amount.toNat = value.toNat + 2 ^ 32 by omega]
    have hsplit : 2 ^ bits - amount.toNat % 2 ^ bits + amount.toNat
        = 2 ^ bits + 2 ^ bits * (amount.toNat / 2 ^ bits) := by
      have := Nat.mod_add_div amount.toNat (2 ^ bits)
      omega
    rw [Nat.add_assoc, hsplit, ← Nat.add_assoc]
    show (value.toNat + 2 ^ 32) % 2 ^ bits = _ % 2 ^ bits
    rw [Nat.add_mul_mod_self_left, Nat.add_mod_right, Nat.mod_mod,
      Nat.add_mod, Nat.mod_eq_zero_of_dvd (Nat.pow_dvd_pow 2 hbits), Nat.add_zero, Nat.mod_mod]
  rw [UInt32.toNat_or, UInt32.toNat_and, hmask, hhigh, Nat.and_two_pow_sub_one_eq_mod, hmod,
    Nat.or_comm, or_eq_add (Nat.mod_lt _ hpos)]
  rfl

theorem eq_zero_iff_toNat (word : UInt32) : word = 0 ↔ word.toNat = 0 := by
  rw [← UInt32.toNat_inj]
  rfl

/-- The test for a `BL`. -/
theorem isBl_iff (word : UInt32) :
    (word - 0x94000000) &&& 0xfc000000 = 0 ↔ word.toNat / 2 ^ 26 = 37 := by
  have hlt := word.toNat_lt
  rw [eq_zero_iff_toNat, UInt32.toNat_and, UInt32.toNat_sub]
  show (2 ^ 32 - 0x94000000 + word.toNat) % 2 ^ 32 &&& (2 ^ 6 - 1) * 2 ^ 26 = 0 ↔ _
  rw [and_ones]
  omega

/-- The test for an `ADRP`. -/
theorem isAdrp_iff (word : UInt32) :
    (word - 0x90000000) &&& 0x9f000000 = 0 ↔
      word.toNat / 2 ^ 31 = 1 ∧ word.toNat / 2 ^ 24 % 32 = 16 := by
  have hlt := word.toNat_lt
  have hmask : ∀ n < 256, n &&& 0x9f = 0 ↔ n / 128 = 0 ∧ n % 32 = 0 := by decide +kernel
  rw [eq_zero_iff_toNat, UInt32.toNat_and, UInt32.toNat_sub]
  show (2 ^ 32 - 0x90000000 + word.toNat) % 2 ^ 32 &&& 0x9f * 2 ^ 24 = 0 ↔ _
  have hbyte := hmask ((2 ^ 32 - 0x90000000 + word.toNat) % 2 ^ 32 / 2 ^ 24) (by omega)
  rw [and_mul_two_pow, Nat.mul_eq_zero, or_iff_left (by decide), hbyte]
  omega

/-- The test for a page that is not too far away. -/
theorem isNear_iff (word : UInt32) :
    (word - 0x90000000 + 0x00100000)
        &&& ((0x01000000 : UInt32) - (0x00100000 : UInt32) <<< (1 : UInt32)) = 0 ↔
      word.toNat / 2 ^ 20 % 16 = 0 ∨ word.toNat / 2 ^ 20 % 16 = 15 := by
  have hlt := word.toNat_lt
  rw [eq_zero_iff_toNat, UInt32.toNat_and, UInt32.toNat_add, UInt32.toNat_sub]
  show ((2 ^ 32 - 0x90000000 + word.toNat) % 2 ^ 32 + 0x00100000) % 2 ^ 32 &&& (2 ^ 3 - 1) * 2 ^ 21
    = 0 ↔ _
  rw [and_ones]
  omega

/-- The parts of an `ADRP` do not overlap, but for the top bit. -/
theorem or_parts {register digit page : Nat} (hregister : register < 32) (hdigit : digit < 8)
    (hpage : page < 2 ^ 19) :
    ((register ||| 9 * 2 ^ 28) ||| digit * 2 ^ 29) ||| page * 2 ^ 5
      = (9 + digit % 4 * 2) * 2 ^ 28 + (page * 2 ^ 5 + register) := by
  have htop : ∀ digit < 8, 9 * 2 ^ 28 ||| digit * 2 ^ 29 = (9 + digit % 4 * 2) * 2 ^ 28 := by
    decide
  have hlow : page * 2 ^ 5 ||| register = page * 2 ^ 5 + register := or_eq_add hregister page
  rw [Nat.or_assoc register, htop digit hdigit, Nat.or_comm register, Nat.or_assoc,
    Nat.or_comm register, hlow, or_eq_add (by omega)]

/-- The page that is written back, `y` being the page. -/
theorem adrpWord_or {register y : Nat} (hregister : register < 32) (hy : y < 2 ^ 18) :
    ((register ||| 9 * 2 ^ 28) ||| y % 8 * 2 ^ 29)
        ||| (2 ^ 32 - 2 ^ 20 + 8 * y) % 2 ^ 32 / 2 ^ 5 % 2 ^ 19 * 2 ^ 5
      = adrpWord (y % 4) (if 2 ^ 17 ≤ y then 0 else 15) (y / 4 % 2 ^ 15) register := by
  have hpage : (2 ^ 32 - 2 ^ 20 + 8 * y) % 2 ^ 32 / 2 ^ 5 % 2 ^ 19
      = (if 2 ^ 17 ≤ y then 0 else 15) * 2 ^ 15 + y / 4 % 2 ^ 15 := by
    split <;> omega
  rw [or_parts hregister (Nat.mod_lt _ (by decide)) (Nat.mod_lt _ (by decide)), hpage, adrpWord]
  omega

/-- The page that is taken out, with the pointer taken away. -/
theorem toNat_adrp_transformed {word v : UInt32} (ip : UInt32)
    (h : adrpPage.Recognized word.toNat)
    (hv : v = word - 0x90000000 + 0x00100000) :
    v.toNat % 32 = word.toNat % 32 ∧
      (((v &&& 0xffffffe0) ||| v >>> (26 : UInt32)) - (ip >>> (9 : UInt32) &&& ~~~7)).toNat % 2 ^ 21
        = 8 * adrpPage.moved (ip.toNat / 2 ^ 12) word.toNat := by
  obtain ⟨htop, hopcode, hsign⟩ := h
  have hlt := word.toNat_lt
  have hip := ip.toNat_lt
  have hword := adrpWord_of_parts htop hopcode
  have hget : adrpPage.get word.toNat = word.toNat / 2 ^ 29 % 4 + word.toNat / 32 % 2 ^ 15 * 4
      + if word.toNat / 2 ^ 20 % 16 = 0 then 2 ^ 17 else 0 := rfl
  have hmoved : adrpPage.moved (ip.toNat / 2 ^ 12) word.toNat
      = (adrpPage.get word.toNat + (2 ^ 18 - ip.toNat / 2 ^ 12 % 2 ^ 18)) % 2 ^ 18 := rfl
  rw [adrpWord] at hword
  have hvalue : v.toNat = word.toNat / 2 ^ 29 % 4 * 2 ^ 29 + (word.toNat / 2 ^ 20 % 16 + 1) * 2 ^ 20
      + word.toNat / 32 % 2 ^ 15 * 32 + word.toNat % 32 := by
    rw [hv, UInt32.toNat_add, UInt32.toNat_sub]
    show ((2 ^ 32 - 0x90000000 + word.toNat) % 2 ^ 32 + 0x00100000) % 2 ^ 32 = _
    omega
  have hpointer : (ip >>> (9 : UInt32) &&& ~~~7).toNat = ip.toNat / 2 ^ 12 * 8 := by
    rw [UInt32.toNat_and, UInt32.toNat_shiftRight, Nat.shiftRight_eq_div_pow]
    show ip.toNat / 2 ^ 9 &&& (2 ^ 29 - 1) * 2 ^ 3 = _
    rw [and_ones]
    omega
  have htransformed : ((v &&& 0xffffffe0) ||| v >>> (26 : UInt32)).toNat
      = v.toNat / 32 * 32 + word.toNat / 2 ^ 29 % 4 * 8 := by
    rw [UInt32.toNat_or, UInt32.toNat_and, UInt32.toNat_shiftRight, Nat.shiftRight_eq_div_pow]
    show (v.toNat &&& (2 ^ 27 - 1) * 2 ^ 5) ||| v.toNat / 2 ^ 26 = _
    rw [and_ones, or_eq_add (by omega)]
    omega
  refine ⟨by omega, ?_⟩
  rw [UInt32.toNat_sub, hpointer, htransformed, hmoved, hget]
  rcases hsign with hsign | hsign
  · rw [if_pos hsign]
    omega
  · rw [if_neg (by omega)]
    omega

/-- The word that is written back. -/
theorem toNat_adrp_written {v transformed : UInt32} {y : Nat} (hy : y < 2 ^ 18)
    (h : transformed.toNat % 2 ^ 21 = 8 * y) :
    ((((v &&& 0x1f) ||| 0x90000000) ||| transformed <<< (26 : UInt32))
        ||| (((transformed &&& ((0x00100000 : UInt32) <<< (1 : UInt32) - 1)) - 0x00100000)
          &&& 0x00ffffe0)).toNat
      = adrpWord (y % 4) (if 2 ^ 17 ≤ y then 0 else 15) (y / 4 % 2 ^ 15) (v.toNat % 32) := by
  have hregister : (v &&& 0x1f).toNat = v.toNat % 32 := by
    rw [UInt32.toNat_and]
    exact Nat.and_two_pow_sub_one_eq_mod _ 5
  have hdigit : (transformed <<< (26 : UInt32)).toNat = y % 8 * 2 ^ 29 := by
    rw [UInt32.toNat_shiftLeft, Nat.shiftLeft_eq]
    show transformed.toNat * 2 ^ 26 % 2 ^ 32 = _
    omega
  have hlow : (transformed &&& ((0x00100000 : UInt32) <<< (1 : UInt32) - 1)).toNat = 8 * y := by
    rw [UInt32.toNat_and, ← h]
    exact Nat.and_two_pow_sub_one_eq_mod _ 21
  have hpage : (((transformed &&& ((0x00100000 : UInt32) <<< (1 : UInt32) - 1)) - 0x00100000)
      &&& 0x00ffffe0).toNat = (2 ^ 32 - 2 ^ 20 + 8 * y) % 2 ^ 32 / 2 ^ 5 % 2 ^ 19 * 2 ^ 5 := by
    rw [UInt32.toNat_and, UInt32.toNat_sub, hlow]
    exact and_ones _ 19 5
  rw [UInt32.toNat_or, UInt32.toNat_or, UInt32.toNat_or, hregister, hdigit, hpage]
  exact adrpWord_or (Nat.mod_lt _ (by decide)) hy

/-- No word is both. -/
theorem not_adrp_of_bl {w : Nat} (h : (belowOpcode 26 37).Recognized w) :
    ¬ adrpPage.Recognized w := by
  rintro ⟨-, hopcode, -⟩
  have hbl : w / 2 ^ 26 = 37 := h
  omega

/-- What the filter makes of a word, and of one it does not rewrite. -/
theorem toNat_convertArm64 (ip word : UInt32) :
    ((convertArm64 ip word).getD word).toNat
      = adrpPage.move (ip.toNat / 2 ^ 12)
        ((belowOpcode 26 37).move (ip.toNat / 2 ^ 2) word.toNat) := by
  by_cases hbl : (belowOpcode 26 37).Recognized word.toNat
  · have hstill : (belowOpcode 26 37).Recognized
        ((belowOpcode 26 37).move (ip.toNat / 2 ^ 2) word.toNat) := Operand.recognized_move.mpr hbl
    rw [convertArm64, if_pos ((isBl_iff word).mpr hbl), Operand.move_of_not (not_adrp_of_bl hstill),
      Operand.move_of_recognized hbl]
    have hshift : (ip >>> 2).toNat = ip.toNat / 2 ^ 2 := by
      rw [UInt32.toNat_shiftRight, Nat.shiftRight_eq_div_pow]
      rfl
    rw [← hshift]
    exact toNat_belowOpcode _ _ _ _ 26 37 (by decide) rfl rfl
  · rw [Operand.move_of_not hbl, convertArm64, if_neg (mt (isBl_iff word).mp hbl)]
    by_cases hadrp : adrpPage.Recognized word.toNat
    · have hopcode := (isAdrp_iff word).mpr ⟨hadrp.1, hadrp.2.1⟩
      have hnear := (isNear_iff word).mpr hadrp.2.2
      obtain ⟨hregister, hpage⟩ := toNat_adrp_transformed ip hadrp rfl
      have hlt : adrpPage.moved (ip.toNat / 2 ^ 12) word.toNat < 2 ^ 18 := Operand.moved_lt hadrp
      rw [if_pos hopcode, if_pos hnear, Operand.move_of_recognized hadrp]
      refine (toNat_adrp_written hlt hpage).trans ?_
      rw [hregister]
      rfl
    · rw [Operand.move_of_not hadrp]
      by_cases hopcode : (word - 0x90000000) &&& 0x9f000000 = 0
      · obtain ⟨htop, hcode⟩ := (isAdrp_iff word).mp hopcode
        rw [if_pos hopcode, if_neg fun hnear => hadrp ⟨htop, hcode, (isNear_iff word).mp hnear⟩]
        rfl
      · rw [if_neg hopcode]
        rfl

/-- The upper byte is inverted, and what is below it stays. -/
theorem xor_upper (x : Nat) : x ^^^ 255 * 2 ^ 24 = (x / 2 ^ 24 ^^^ 255) * 2 ^ 24 + x % 2 ^ 24 := by
  have hdiv : (x ^^^ 255 * 2 ^ 24) / 2 ^ 24 = x / 2 ^ 24 ^^^ 255 := Nat.xor_div_two_pow
  have hmod : (x ^^^ 255 * 2 ^ 24) % 2 ^ 24 = x % 2 ^ 24 := by
    rw [Nat.xor_mod_two_pow]
    exact Nat.xor_zero _
  omega

theorem toNat_convertSparc (ip word : UInt32) :
    (convertSparc ip word).toNat
      = sparcTarget.put (sparcTarget.moved ((ip.toNat + 3) / 4) word.toNat) word.toNat := by
  have hlt := word.toNat_lt
  have hip := ip.toNat_lt
  have hput (x : Nat) : sparcTarget.put x word.toNat
      = if x < 2 ^ 22 then 0x40000000 + x else 0x7f800000 + x := rfl
  have hmoved : sparcTarget.moved ((ip.toNat + 3) / 4) word.toNat
      = (word.toNat % 2 ^ 23 + (2 ^ 23 - (ip.toNat + 3) / 4 % 2 ^ 23)) % 2 ^ 23 := rfl
  have htarget : (((word <<< 2) - ip) &&& 0x01ffffff).toNat
      = (4 * word.toNat + 2 ^ 32 - ip.toNat) % 2 ^ 25 := by
    rw [UInt32.toNat_and, UInt32.toNat_sub, UInt32.toNat_shiftLeft, Nat.shiftLeft_eq]
    show (2 ^ 32 - ip.toNat + word.toNat * 2 ^ 2 % 2 ^ 32) % 2 ^ 32 &&& (2 ^ 25 - 1) = _
    rw [Nat.and_two_pow_sub_one_eq_mod]
    omega
  have hquarter : (((word <<< 2) - ip) &&& 0x01ffffff).toNat / 4
      = sparcTarget.moved ((ip.toNat + 3) / 4) word.toNat := by
    rw [htarget, hmoved]
    omega
  have hsmall : (((word <<< 2) - ip) &&& 0x01ffffff).toNat < 2 ^ 25 := by
    rw [htarget]
    exact Nat.mod_lt _ (by decide)
  rw [convertSparc, hput, ← hquarter]
  generalize ((word <<< 2) - ip) &&& 0x01ffffff = value at hsmall
  rw [UInt32.toNat_or, UInt32.toNat_shiftRight, UInt32.toNat_xor, UInt32.toNat_sub,
    Nat.shiftRight_eq_div_pow]
  show ((2 ^ 32 - 2 ^ 24 + value.toNat) % 2 ^ 32 ^^^ 255 * 2 ^ 24) / 2 ^ 2 ||| 1 * 2 ^ 30 = _
  rw [xor_upper]
  by_cases hsign : value.toNat < 2 ^ 24
  · have hupper : (2 ^ 32 - 2 ^ 24 + value.toNat) % 2 ^ 32 / 2 ^ 24 = 255 := by omega
    have hvalue : ((255 ^^^ 255) * 2 ^ 24 + (2 ^ 32 - 2 ^ 24 + value.toNat) % 2 ^ 32 % 2 ^ 24) / 2 ^ 2
        = value.toNat / 4 := by
      rw [Nat.xor_self]
      omega
    rw [hupper, hvalue, Nat.or_comm, or_eq_add (by omega), if_pos (by omega)]
    omega
  · have hupper : (2 ^ 32 - 2 ^ 24 + value.toNat) % 2 ^ 32 / 2 ^ 24 = 0 := by omega
    have hvalue : ((0 ^^^ 255) * 2 ^ 24 + (2 ^ 32 - 2 ^ 24 + value.toNat) % 2 ^ 32 % 2 ^ 24) / 2 ^ 2
        = 0x3f800000 + value.toNat / 4 := by
      rw [Nat.zero_xor]
      omega
    rw [hupper, hvalue, Nat.or_comm, or_eq_add (by omega), if_neg (by omega)]
    omega

/-- The test of the source on the first two bytes. -/
theorem isSparcCall_iff (a b c d : UInt8) :
    ((a = 0x40 ∧ b &&& 0xc0 = 0) ∨ (a = 0x7f ∧ b ≥ 0xc0)) ↔
      sparcTarget.Recognized (leValue [d, c, b, a]) := by
  have hb := b.toNat_lt
  have hc := c.toNat_lt
  have hd := d.toNat_lt
  have hlow : b &&& 0xc0 = 0 ↔ b.toNat < 64 := by
    rw [← UInt8.toNat_inj, UInt8.toNat_and]
    show b.toNat &&& (2 ^ 2 - 1) * 2 ^ 6 = 0 ↔ _
    rw [and_ones]
    omega
  have hhigh : b ≥ 0xc0 ↔ 192 ≤ b.toNat := Iff.rfl
  rw [hlow, hhigh, ← UInt8.toNat_inj, ← UInt8.toNat_inj]
  show (a.toNat = 64 ∧ _ ∨ a.toNat = 127 ∧ _) ↔
    leValue [d, c, b, a] / 2 ^ 22 = 256 ∨ leValue [d, c, b, a] / 2 ^ 22 = 511
  simp only [leValue]
  omega

/-! ### The filters -/

theorem fits_armCall : (belowOpcode 24 0xeb).Fits (littleEndian 4) := by
  intro v x _ hx _
  show 0xeb * 2 ^ 24 + x < 256 ^ 4
  have hx : x < 2 ^ 24 := hx
  omega

theorem fits_arm64Call : (belowOpcode 26 37).Fits (littleEndian 4) := by
  intro v x _ hx _
  show 37 * 2 ^ 26 + x < 256 ^ 4
  have hx : x < 2 ^ 26 := hx
  omega

theorem fits_arm64Page : adrpPage.Fits (littleEndian 4) := by
  intro v x hv hx _
  have htop : adrpPage.put x v / 2 ^ 31 = 1 := (adrpPage.recognized_put hv hx).1
  show adrpPage.put x v < 256 ^ 4
  omega

theorem fits_sparcCall : sparcTarget.Fits (bigEndian 4) := by
  intro v x _ hx _
  show (if x < 2 ^ 22 then 0x40000000 + x else 0x7f800000 + x) < 256 ^ 4
  have hx : x < 2 ^ 23 := hx
  split <;> omega

/-- The pointer of ARM is one word ahead. -/
def armOperands : List (Relocation UInt32 Nat) :=
  [⟨belowOpcode 24 0xeb, fun ip => (ip + 4).toNat / 2 ^ 2⟩]

def arm64Operands : List (Relocation UInt32 Nat) :=
  [⟨adrpPage, fun ip => ip.toNat / 2 ^ 12⟩, ⟨belowOpcode 26 37, fun ip => ip.toNat / 2 ^ 2⟩]

def sparcOperands : List (Relocation UInt32 Nat) :=
  [⟨sparcTarget, fun ip => (ip.toNat + 3) / 4⟩]

theorem fits_armOperands : ∀ r ∈ armOperands, r.operand.Fits (littleEndian 4) := by
  intro r hr
  obtain rfl := List.mem_singleton.mp hr
  exact fits_armCall

theorem fits_arm64Operands : ∀ r ∈ arm64Operands, r.operand.Fits (littleEndian 4) := by
  intro r hr
  rcases List.mem_cons.mp hr with rfl | hr
  · exact fits_arm64Page
  · obtain rfl := List.mem_singleton.mp hr
    exact fits_arm64Call

theorem fits_sparcOperands : ∀ r ∈ sparcOperands, r.operand.Fits (bigEndian 4) := by
  intro r hr
  obtain rfl := List.mem_singleton.mp hr
  exact fits_sparcCall

theorem independent_arm64Operands : Relocation.Independent arm64Operands := by
  have hpage : Operand.Apart adrpPage (belowOpcode 26 37) :=
    Operand.Apart.of_disjoint fun w hadrp hbl => not_adrp_of_bl hbl hadrp
  have hcall : Operand.Apart (belowOpcode 26 37) adrpPage :=
    Operand.Apart.of_disjoint fun w => not_adrp_of_bl
  exact List.pairwise_pair.mpr ⟨hpage, hcall⟩

def armRelocations : List (Relocation UInt32 Bytes) :=
  Relocation.written armOperands (littleEndian 4) fits_armOperands

def arm64Relocations : List (Relocation UInt32 Bytes) :=
  Relocation.written arm64Operands (littleEndian 4) fits_arm64Operands

def sparcRelocations : List (Relocation UInt32 Bytes) :=
  Relocation.written sparcOperands (bigEndian 4) fits_sparcOperands

section rounds

variable {done rest front : Bytes}

theorem readU32Le_done (hfront : front.length = 4) (hoffset : done.length + 4 < 2 ^ 64) :
    (readU32Le (done ++ (front ++ rest)) done.length).result = .ok (u32FromLe front) :=
  Metered.bind_eq_ok.mpr ⟨front, readSlice_done hfront hoffset, rfl⟩

theorem readU32Be_done (hfront : front.length = 4) (hoffset : done.length + 4 < 2 ^ 64) :
    (readU32Be (done ++ (front ++ rest)) done.length).result = .ok (u32FromBe front) :=
  Metered.bind_eq_ok.mpr ⟨front, readSlice_done hfront hoffset, rfl⟩

theorem writeWord_done {word : Bytes} (hfront : front.length = 4) (hword : word.length = 4)
    (hoffset : done.length + 4 < 2 ^ 64) :
    (writeWord (done ++ (front ++ rest)) done.length word).result = .ok (done ++ (word ++ rest)) :=
  writeSlice_done (hword.trans hfront.symm) (by rw [hfront]; exact hoffset)

/-- A byte of the four in front. -/
theorem byteAt_front {index : Nat} {byte : UInt8} (h : front[index]? = some byte)
    (detail : String) :
    (byteAt (done ++ (front ++ rest)) (done.length + index) detail).result = .ok byte :=
  byteAt_done (by
    obtain ⟨hlt, -⟩ := List.getElem?_eq_some_iff.mp h
    rw [List.getElem?_append_left hlt, h]) detail

end rounds

/-- Four bytes that are relocated as the number they hold. -/
theorem relocate_littleEndian {relocations : List (Relocation UInt32 Nat)}
    (h : ∀ r ∈ relocations, r.operand.Fits (littleEndian 4)) {ip value : UInt32} {front : Bytes}
    (hfront : front.length = 4)
    (hvalue : value.toNat = relocate relocations ip (u32FromLe front).toNat) :
    relocate (Relocation.written relocations (littleEndian 4) h) ip front = u32ToLe value := by
  rw [Relocation.relocate_written h ip hfront, u32ToLe_eq, hvalue, toNat_fromLe hfront]
  rfl

theorem relocate_bigEndian {relocations : List (Relocation UInt32 Nat)}
    (h : ∀ r ∈ relocations, r.operand.Fits (bigEndian 4)) {ip value : UInt32} {front : Bytes}
    (hfront : front.length = 4)
    (hvalue : value.toNat = relocate relocations ip (u32FromBe front).toNat) :
    relocate (Relocation.written relocations (bigEndian 4) h) ip front = u32ToBe value := by
  rw [Relocation.relocate_written h ip hfront, u32ToBe_eq_reverse, hvalue, toNat_fromBe hfront]
  rfl

theorem u32ToLe_fromLe {front : Bytes} (h : front.length = 4) : u32ToLe (u32FromLe front) = front := by
  rw [u32ToLe_eq, toNat_fromLe h, ← h, leBytes_leValue]

theorem u32ToBe_fromBe' {front : Bytes} (h : front.length = 4) :
    u32ToBe (u32FromBe front) = front := by
  rw [u32ToBe_eq_reverse, toNat_fromBe h, ← h, ← List.length_reverse, leBytes_leValue,
    List.reverse_reverse]

theorem relocates_arm : Relocates armWord armRelocations := by
  intro ip front done rest hfront hoffset
  obtain ⟨a, b, c, d, rfl⟩ := List.length_eq_four.mp hfront
  refine Metered.bind_eq_ok.mpr ⟨_, addOffset_ok (by omega) _, Metered.bind_eq_ok.mpr
    ⟨d, byteAt_front rfl _, ?_⟩⟩
  have hopcode : d = 0xeb ↔ (belowOpcode 24 0xeb).Recognized (u32FromLe [a, b, c, d]).toNat := by
    have ha := a.toNat_lt
    have hb := b.toNat_lt
    have hc := c.toNat_lt
    have hd := d.toNat_lt
    rw [toNat_fromLe hfront, ← UInt8.toNat_inj]
    show d.toNat = 235 ↔ leValue [a, b, c, d] / 2 ^ 24 = 235
    simp only [leValue]
    omega
  by_cases hd : d = 0xeb
  · have hshift : ((ip + 4) >>> 2).toNat = (ip + 4).toNat / 2 ^ 2 := by
      rw [UInt32.toNat_shiftRight, Nat.shiftRight_eq_div_pow]
      rfl
    have hvalue := toNat_belowOpcode (u32FromLe [a, b, c, d]) ((ip + 4) >>> 2) 0x00ffffff 0xeb000000
      24 0xeb (by decide) rfl rfl
    rw [hshift, ← Operand.move_of_recognized (hopcode.mp hd)] at hvalue
    rw [if_pos hd, armRelocations, relocate_littleEndian fits_armOperands hfront hvalue]
    exact Metered.bind_eq_ok.mpr
      ⟨_, readU32Le_done hfront hoffset, writeWord_done hfront rfl hoffset⟩
  · have hsame : (u32FromLe [a, b, c, d]).toNat
        = relocate armOperands ip (u32FromLe [a, b, c, d]).toNat :=
      (Operand.move_of_not (mt hopcode.mpr hd)).symm
    rw [if_neg hd, armRelocations, relocate_littleEndian fits_armOperands hfront hsame,
      u32ToLe_fromLe hfront]
    rfl

theorem relocates_arm64 : Relocates arm64Word arm64Relocations := by
  intro ip front done rest hfront hoffset
  rw [arm64Relocations, relocate_littleEndian fits_arm64Operands hfront
    (toNat_convertArm64 ip (u32FromLe front))]
  refine Metered.bind_eq_ok.mpr ⟨_, readU32Le_done hfront hoffset, ?_⟩
  cases hconvert : convertArm64 ip (u32FromLe front) with
  | some value => exact writeWord_done hfront rfl hoffset
  | none =>
      rw [Option.getD_none, u32ToLe_fromLe hfront]
      rfl

theorem relocates_sparc : Relocates sparcWord sparcRelocations := by
  intro ip front done rest hfront hoffset
  obtain ⟨a, b, c, d, rfl⟩ := List.length_eq_four.mp hfront
  have hfirst : (byteAt (done ++ ([a, b, c, d] ++ rest)) done.length
      "SPARC opcode is truncated").result = .ok a := by
    have h : [a, b, c, d][0]? = some a := rfl
    exact byteAt_front h _
  refine Metered.bind_eq_ok.mpr ⟨a, hfirst, Metered.bind_eq_ok.mpr ⟨_, addOffset_ok (by omega) _,
    Metered.bind_eq_ok.mpr ⟨b, byteAt_front rfl _, ?_⟩⟩⟩
  have hopcode := isSparcCall_iff a b c d
  have hword : (u32FromBe [a, b, c, d]).toNat = leValue [d, c, b, a] := toNat_fromBe hfront
  rw [← hword] at hopcode
  by_cases hcall : (a = 0x40 ∧ b &&& 0xc0 = 0) ∨ (a = 0x7f ∧ b ≥ 0xc0)
  · have hvalue := toNat_convertSparc ip (u32FromBe [a, b, c, d])
    rw [← Operand.move_of_recognized (hopcode.mp hcall)] at hvalue
    rw [if_pos hcall, sparcRelocations, relocate_bigEndian fits_sparcOperands hfront hvalue]
    exact Metered.bind_eq_ok.mpr
      ⟨_, readU32Be_done hfront hoffset, writeWord_done hfront rfl hoffset⟩
  · have hsame : (u32FromBe [a, b, c, d]).toNat
        = relocate sparcOperands ip (u32FromBe [a, b, c, d]).toNat :=
      (Operand.move_of_not (mt hopcode.mpr hcall)).symm
    rw [if_neg hcall, sparcRelocations, relocate_bigEndian fits_sparcOperands hfront hsame,
      u32ToBe_fromBe' hfront]
    rfl

end Filters

end Un7z
