/-
What the IA-64 filter moves.

A bundle of IA-64 has 128 bits: five for its template and three slots of 41.  The template
says which slots are for branches, and of a branch that is relative to the instruction
pointer the filter moves the target.  A slot begins in the middle of a byte, so the source
reads and writes six bytes around it; what is in these of other slots, and of the template,
is kept.  So the bundle is a number, and its slots are operands that are apart from one
another.
-/
import Un7z.Proofs.ThumbFilter

namespace Un7z

namespace CompatibilityFilters

open Filters
open Grammar (leBytes)
open Relocation (relocate)

/-! ### The branch of a slot -/

/-- An instruction from its parts: 13 bits, 20 bits of the target, 3 bits, its sign, and the rest. -/
def ia64Word (low target middle sign high : Nat) : Nat :=
  (((high * 2 + sign) * 8 + middle) * 2 ^ 20 + target) * 2 ^ 13 + low

theorem ia64Word_parts (low target middle sign high : Nat) (hlow : low < 2 ^ 13)
    (htarget : target < 2 ^ 20) (hmiddle : middle < 8) (hsign : sign < 2) :
    ia64Word low target middle sign high % 2 ^ 13 = low ∧
      ia64Word low target middle sign high / 2 ^ 13 % 2 ^ 20 = target ∧
      ia64Word low target middle sign high / 2 ^ 33 % 8 = middle ∧
      ia64Word low target middle sign high / 2 ^ 36 % 2 = sign ∧
      ia64Word low target middle sign high / 2 ^ 37 = high := by
  unfold ia64Word
  generalize hword :
    (((high * 2 + sign) * 8 + middle) * 2 ^ 20 + target) * 2 ^ 13 + low = word
  have h₁ : word / 2 ^ 13 = ((high * 2 + sign) * 8 + middle) * 2 ^ 20 + target := by omega
  have h₂ : word / 2 ^ 33 = (high * 2 + sign) * 8 + middle := by omega
  have h₃ : word / 2 ^ 36 = high * 2 + sign := by omega
  have h₄ : word / 2 ^ 37 = high := by omega
  omega

theorem ia64Word_of_parts (v : Nat) :
    ia64Word (v % 2 ^ 13) (v / 2 ^ 13 % 2 ^ 20) (v / 2 ^ 33 % 8) (v / 2 ^ 36 % 2) (v / 2 ^ 37) = v := by
  have h₁ : v / 2 ^ 33 = v / 2 ^ 13 / 2 ^ 20 := by omega
  have h₂ : v / 2 ^ 36 = v / 2 ^ 33 / 8 := by omega
  have h₃ : v / 2 ^ 37 = v / 2 ^ 36 / 2 := by omega
  unfold ia64Word
  omega

/-- The target of an IP-relative branch. -/
def ia64Target : Operand Nat where
  modulus := 2 ^ 21
  Recognized v := v / 2 ^ 37 % 16 = 5 ∧ v / 2 ^ 9 % 8 = 0
  decide _ := inferInstanceAs (Decidable (_ ∧ _))
  get v := v / 2 ^ 13 % 2 ^ 20 + v / 2 ^ 36 % 2 * 2 ^ 20
  put x v := ia64Word (v % 2 ^ 13) (x % 2 ^ 20) (v / 2 ^ 33 % 8) (x / 2 ^ 20) (v / 2 ^ 37)
  get_lt {v} _ := by omega
  recognized_put {v x} h hx := by
    obtain ⟨hlow, -, -, -, hhigh⟩ := ia64Word_parts (v % 2 ^ 13) (x % 2 ^ 20) (v / 2 ^ 33 % 8)
      (x / 2 ^ 20) (v / 2 ^ 37) (by omega) (by omega) (by omega) (by omega)
    have hkept : ia64Word (v % 2 ^ 13) (x % 2 ^ 20) (v / 2 ^ 33 % 8) (x / 2 ^ 20) (v / 2 ^ 37)
        / 2 ^ 9 % 8 = v / 2 ^ 9 % 8 := by omega
    rw [hhigh, hkept]
    exact h
  get_put {v x} _ hx := by
    obtain ⟨-, htarget, -, hsign, -⟩ := ia64Word_parts (v % 2 ^ 13) (x % 2 ^ 20) (v / 2 ^ 33 % 8)
      (x / 2 ^ 20) (v / 2 ^ 37) (by omega) (by omega) (by omega) (by omega)
    rw [htarget, hsign]
    exact Nat.mod_add_div' x _
  put_get {v} _ := by
    have hparts (target sign : Nat) (htarget : target < 2 ^ 20) :
        (target + sign * 2 ^ 20) % 2 ^ 20 = target ∧ (target + sign * 2 ^ 20) / 2 ^ 20 = sign := by
      omega
    obtain ⟨htarget, hsign⟩ := hparts (v / 2 ^ 13 % 2 ^ 20) (v / 2 ^ 36 % 2)
      (Nat.mod_lt _ (by decide))
    rw [htarget, hsign]
    exact ia64Word_of_parts v
  put_put {v x y} _ hx _ := by
    obtain ⟨hlow, -, hmiddle, -, hhigh⟩ := ia64Word_parts (v % 2 ^ 13) (x % 2 ^ 20) (v / 2 ^ 33 % 8)
      (x / 2 ^ 20) (v / 2 ^ 37) (by omega) (by omega) (by omega) (by omega)
    rw [hlow, hmiddle, hhigh]

/-- It lies in the 41 bits of a slot. -/
theorem within_ia64Target : ia64Target.Within 41 where
  recognized v := by
    show v / 2 ^ 37 % 16 = 5 ∧ v / 2 ^ 9 % 8 = 0 ↔
      v % 2 ^ 41 / 2 ^ 37 % 16 = 5 ∧ v % 2 ^ 41 / 2 ^ 9 % 8 = 0
    omega
  get v := by
    show v / 2 ^ 13 % 2 ^ 20 + v / 2 ^ 36 % 2 * 2 ^ 20
      = v % 2 ^ 41 / 2 ^ 13 % 2 ^ 20 + v % 2 ^ 41 / 2 ^ 36 % 2 * 2 ^ 20
    omega
  put x v := by
    have hlow : v % 2 ^ 41 % 2 ^ 13 = v % 2 ^ 13 := by omega
    have hmiddle : v % 2 ^ 41 / 2 ^ 33 % 8 = v / 2 ^ 33 % 8 := by omega
    have hhigh : v % 2 ^ 41 / 2 ^ 37 + v / 2 ^ 41 * 16 = v / 2 ^ 37 := by omega
    show ia64Word _ _ _ _ _ = ia64Word _ _ _ _ _ + _
    rw [hlow, hmiddle, ← hhigh]
    unfold ia64Word
    omega
  put_lt {x v} _ hx hv := by
    have hx : x < 2 ^ 21 := hx
    show ia64Word _ _ _ _ _ < _
    unfold ia64Word
    omega

/-! ### The slots of a bundle -/

/-- The template of a bundle says that the slot is for branches. -/
def ia64Selected (slot v : Nat) : Prop :=
  ∃ mask, ia64BranchTable[v % 2 ^ 5]? = some mask ∧ mask &&& UInt8.ofNat (2 ^ slot) ≠ 0

instance (slot v : Nat) : Decidable (ia64Selected slot v) :=
  decidable_of_iff ((ia64BranchTable[v % 2 ^ 5]?.any fun mask => mask &&& UInt8.ofNat (2 ^ slot) ≠ 0)
    = true) (by rw [Option.any_eq_true]; simp [ia64Selected])

/-- The template has the five lowest bits, and the slots follow. -/
def ia64Bit (slot : Nat) : Nat := 5 + 41 * slot

theorem ia64Selected_put {slot slot' x v : Nat} :
    ia64Selected slot ((ia64Target.above (ia64Bit slot')).put x v) ↔ ia64Selected slot v := by
  have hle : 5 ≤ ia64Bit slot' := Nat.le_add_right 5 _
  unfold ia64Selected
  rw [Operand.above_put_mod hle]

def ia64Slot (slot : Nat) : Operand Nat :=
  (ia64Target.above (ia64Bit slot)).given (ia64Selected slot) fun _ _ => ia64Selected_put

/-- What is taken away is the pointer in bundles, rounded up. -/
def ia64Operands : List (Relocation UInt32 Nat) :=
  [⟨ia64Slot 2, fun ip => (ip.toNat + 15) / 2 ^ 4⟩, ⟨ia64Slot 1, fun ip => (ip.toNat + 15) / 2 ^ 4⟩,
   ⟨ia64Slot 0, fun ip => (ip.toNat + 15) / 2 ^ 4⟩]

theorem apart_ia64Slot {slot slot' : Nat} (h : slot < slot') :
    Operand.Apart (ia64Slot slot) (ia64Slot slot') ∧
      Operand.Apart (ia64Slot slot') (ia64Slot slot) := by
  have hle : ia64Bit slot + 41 ≤ ia64Bit slot' := by
    unfold ia64Bit
    omega
  obtain ⟨hup, hdown⟩ := Operand.apart_above within_ia64Target hle
  exact ⟨hup.given fun _ _ => ia64Selected_put, hdown.given fun _ _ => ia64Selected_put⟩

theorem independent_ia64Operands : Relocation.Independent ia64Operands := by
  have h₀₁ := apart_ia64Slot (show 0 < 1 by decide)
  have h₀₂ := apart_ia64Slot (show 0 < 2 by decide)
  have h₁₂ := apart_ia64Slot (show 1 < 2 by decide)
  refine List.pairwise_cons.mpr ⟨fun r hr => ?_, List.pairwise_pair.mpr ⟨h₀₁.2, h₀₁.1⟩⟩
  rcases List.mem_cons.mp hr with rfl | hr
  · exact ⟨h₁₂.2, h₁₂.1⟩
  · obtain rfl := List.mem_singleton.mp hr
    exact ⟨h₀₂.2, h₀₂.1⟩

theorem fits_ia64Slot {slot : Nat} (h : slot < 3) : (ia64Slot slot).Fits (littleEndian 16) := by
  intro v x hv hx hlt
  have hle : ia64Bit slot + 41 ≤ 128 := by
    unfold ia64Bit
    omega
  have hdiv := Operand.above_put_div within_ia64Target hle hv.2 hx
  have hlt : v < 2 ^ 128 := hlt
  rw [Nat.div_eq_of_lt hlt, Nat.div_eq_zero_iff] at hdiv
  exact hdiv.resolve_left (by decide)

theorem fits_ia64Operands : ∀ r ∈ ia64Operands, r.operand.Fits (littleEndian 16) := by
  intro r hr
  rcases List.mem_cons.mp hr with rfl | hr
  · exact fits_ia64Slot (by decide)
  rcases List.mem_cons.mp hr with rfl | hr
  · exact fits_ia64Slot (by decide)
  · obtain rfl := List.mem_singleton.mp hr
    exact fits_ia64Slot (by decide)

def ia64Relocations : List (Relocation UInt32 Bytes) :=
  Relocation.written ia64Operands (littleEndian 16) fits_ia64Operands

/-! ### The instruction word of the source -/

section convert

variable {instruction normalized : UInt64}

theorem toNat_bits64 (word shift mask : UInt64) (width : Nat) (hshift : shift.toNat < 64)
    (hmask : mask.toNat = 2 ^ width - 1) :
    ((word >>> shift) &&& mask).toNat = word.toNat / 2 ^ shift.toNat % 2 ^ width := by
  rw [UInt64.toNat_and, hmask, Nat.and_two_pow_sub_one_eq_mod, UInt64.toNat_shiftRight,
    Nat.shiftRight_eq_div_pow, Nat.mod_eq_of_lt hshift]

theorem isIa64Branch_iff (normalized : UInt64) :
    (normalized >>> 37) &&& 0x0f = 5 ∧ (normalized >>> 9) &&& 7 = 0 ↔
      ia64Target.Recognized normalized.toNat := by
  rw [← UInt64.toNat_inj, ← UInt64.toNat_inj, toNat_bits64 normalized 37 0x0f 4 (by decide) rfl,
    toNat_bits64 normalized 9 7 3 (by decide) rfl]
  rfl

/-- The parts of an instruction do not overlap. -/
theorem or_target {low target middle sign : Nat} (high : Nat) (hlow : low < 2 ^ 13)
    (htarget : target < 2 ^ 20) (hmiddle : middle < 2 ^ 3) (hsign : sign < 2) :
    (((high * 2 ^ 37 ||| middle * 2 ^ 33) ||| low) ||| target * 2 ^ 13) ||| sign * 2 ^ 36
      = ia64Word low target middle sign high := by
  have h₁ : target * 2 ^ 13 ||| low = target * 2 ^ 13 + low := or_eq_add hlow target
  have h₂ : middle * 2 ^ 33 ||| (target * 2 ^ 13 + low) = middle * 2 ^ 33 + (target * 2 ^ 13 + low) :=
    or_eq_add (by omega) middle
  have h₃ : sign * 2 ^ 36 ||| (middle * 2 ^ 33 + (target * 2 ^ 13 + low))
      = sign * 2 ^ 36 + (middle * 2 ^ 33 + (target * 2 ^ 13 + low)) := or_eq_add (by omega) sign
  have h₄ : high * 2 ^ 37 ||| (sign * 2 ^ 36 + (middle * 2 ^ 33 + (target * 2 ^ 13 + low)))
      = high * 2 ^ 37 + (sign * 2 ^ 36 + (middle * 2 ^ 33 + (target * 2 ^ 13 + low))) :=
    or_eq_add (by omega) high
  have hsort (a b c d e : Nat) :
      (((a ||| b) ||| c) ||| d) ||| e = a ||| (e ||| (b ||| (d ||| c))) := by ac_rfl
  rw [hsort, h₁, h₂, h₃, h₄, ia64Word]
  omega

/-- The bits of an instruction that are not its target. -/
theorem toNat_cleared (normalized : UInt64) :
    (normalized &&& ~~~((0x008fffff : UInt64) <<< 13)).toNat
      = (normalized.toNat / 2 ^ 37 * 2 ^ 37 ||| normalized.toNat / 2 ^ 33 % 2 ^ 3 * 2 ^ 33)
          ||| normalized.toNat % 2 ^ 13 := by
  have hlt := normalized.toNat_lt
  have hmask : (~~~((0x008fffff : UInt64) <<< 13)).toNat
      = ((2 ^ 27 - 1) * 2 ^ 37 ||| (2 ^ 3 - 1) * 2 ^ 33) ||| (2 ^ 13 - 1) := by decide
  have hupper : normalized.toNat &&& (2 ^ 27 - 1) * 2 ^ 37 = normalized.toNat / 2 ^ 37 * 2 ^ 37 := by
    rw [and_ones, Nat.mod_eq_of_lt (by omega)]
  rw [UInt64.toNat_and, hmask, Nat.and_or_distrib_left, Nat.and_or_distrib_left, hupper, and_ones,
    Nat.and_two_pow_sub_one_eq_mod]

/-- The target with the pointer taken away. -/
theorem toNat_destination (normalized : UInt64) (position : UInt32) :
    (((((normalized >>> 13) &&& 0x000fffff).toUInt32 ||| ((normalized >>> 36) &&& 1).toUInt32 <<< 20)
      <<< 4 - position) >>> 4).toNat % 2 ^ 21
      = ia64Target.moved ((position.toNat + 15) / 2 ^ 4) normalized.toNat := by
  have hposition := position.toNat_lt
  have hlow : ((normalized >>> 13) &&& 0x000fffff).toUInt32.toNat
      = normalized.toNat / 2 ^ 13 % 2 ^ 20 := by
    rw [UInt64.toNat_toUInt32, toNat_bits64 normalized 13 0x000fffff 20 (by decide) rfl]
    show normalized.toNat / 2 ^ 13 % 2 ^ 20 % 2 ^ 32 = _
    omega
  have hsign : (((normalized >>> 36) &&& 1).toUInt32 <<< 20).toNat
      = normalized.toNat / 2 ^ 36 % 2 * 2 ^ 20 := by
    rw [UInt32.toNat_shiftLeft, UInt64.toNat_toUInt32,
      toNat_bits64 normalized 36 1 1 (by decide) rfl, Nat.shiftLeft_eq]
    show normalized.toNat / 2 ^ 36 % 2 ^ 1 % 2 ^ 32 * 2 ^ 20 % 2 ^ 32 = _
    omega
  have hsource : ((((normalized >>> 13) &&& 0x000fffff).toUInt32
      ||| ((normalized >>> 36) &&& 1).toUInt32 <<< 20) <<< 4).toNat
      = 16 * ia64Target.get normalized.toNat := by
    rw [UInt32.toNat_shiftLeft, UInt32.toNat_or, hlow, hsign, Nat.or_comm,
      or_eq_add (Nat.mod_lt _ (by decide)), Nat.shiftLeft_eq]
    show (normalized.toNat / 2 ^ 36 % 2 * 2 ^ 20 + normalized.toNat / 2 ^ 13 % 2 ^ 20) * 2 ^ 4 % 2 ^ 32
      = 16 * (normalized.toNat / 2 ^ 13 % 2 ^ 20 + normalized.toNat / 2 ^ 36 % 2 * 2 ^ 20)
    omega
  have hget : ia64Target.get normalized.toNat < 2 ^ 21 := by
    show normalized.toNat / 2 ^ 13 % 2 ^ 20 + normalized.toNat / 2 ^ 36 % 2 * 2 ^ 20 < 2 ^ 21
    omega
  rw [UInt32.toNat_shiftRight, UInt32.toNat_sub, hsource, Nat.shiftRight_eq_div_pow, Operand.moved]
  show (2 ^ 32 - position.toNat + 16 * ia64Target.get normalized.toNat) % 2 ^ 32 / 2 ^ 4 % 2 ^ 21
    = (_ + (2 ^ 21 - _ % 2 ^ 21)) % 2 ^ 21
  omega

/-- The instruction with another target. -/
theorem toNat_rewritten (normalized : UInt64) {destination : UInt32} {y : Nat}
    (h : destination.toNat % 2 ^ 21 = y) :
    (((normalized &&& ~~~((0x008fffff : UInt64) <<< 13))
        ||| (destination &&& 0x000fffff).toUInt64 <<< 13)
      ||| (destination &&& 0x00100000).toUInt64 <<< 16).toNat = ia64Target.put y normalized.toNat := by
  have htarget : ((destination &&& 0x000fffff).toUInt64 <<< 13).toNat = y % 2 ^ 20 * 2 ^ 13 := by
    rw [UInt64.toNat_shiftLeft, UInt32.toNat_toUInt64, UInt32.toNat_and, Nat.shiftLeft_eq]
    show (destination.toNat &&& (2 ^ 20 - 1)) * 2 ^ 13 % 2 ^ 64 = _
    rw [Nat.and_two_pow_sub_one_eq_mod]
    omega
  have hsign : ((destination &&& 0x00100000).toUInt64 <<< 16).toNat = y / 2 ^ 20 * 2 ^ 36 := by
    rw [UInt64.toNat_shiftLeft, UInt32.toNat_toUInt64, UInt32.toNat_and, Nat.shiftLeft_eq]
    show (destination.toNat &&& (2 ^ 1 - 1) * 2 ^ 20) * 2 ^ 16 % 2 ^ 64 = _
    rw [and_ones]
    omega
  rw [UInt64.toNat_or, UInt64.toNat_or, toNat_cleared, htarget, hsign]
  exact or_target _ (Nat.mod_lt _ (by decide)) (Nat.mod_lt _ (by decide)) (Nat.mod_lt _ (by decide))
    (by omega)

/-- What the filter makes of a word of six bytes, and of one it does not rewrite. -/
theorem toNat_convertIa64 (start low : UInt32) {bit : Nat} (hbit : bit < 8)
    (hinstruction : instruction.toNat < 2 ^ 48) :
    ((convertIa64 start low instruction bit).getD instruction).toNat
      = (ia64Target.above bit).move (((start + low).toNat + 15) / 2 ^ 4) instruction.toNat := by
  have hshift : (UInt64.ofNat bit).toNat = bit := UInt64.toNat_ofNat_of_lt' (by
    simp only [UInt64.size]
    omega)
  have hnormalized : (instruction >>> UInt64.ofNat bit).toNat = instruction.toNat / 2 ^ bit := by
    rw [UInt64.toNat_shiftRight, hshift, Nat.mod_eq_of_lt (by omega), Nat.shiftRight_eq_div_pow]
  have htest := isIa64Branch_iff (instruction >>> UInt64.ofNat bit)
  rw [hnormalized] at htest
  rw [Operand.move_above]
  by_cases hbranch : ia64Target.Recognized (instruction.toNat / 2 ^ bit)
  · have hmask : ∀ bit < 8, ((1 : UInt64) <<< UInt64.ofNat bit - 1).toNat = 2 ^ bit - 1 := by decide
    have hpow : ∀ bit < 8, 0 < 2 ^ bit ∧ 2 ^ bit ≤ 128 := by decide
    obtain ⟨hpos, hle⟩ := hpow bit hbit
    have hmoved := toNat_destination (instruction >>> UInt64.ofNat bit) (start + low)
    have hword := toNat_rewritten (instruction >>> UInt64.ofNat bit) hmoved
    have hsmall : instruction.toNat / 2 ^ bit < 2 ^ 48 :=
      Nat.lt_of_le_of_lt (Nat.div_le_self _ _) hinstruction
    rw [hnormalized] at hmoved hword
    have hput := within_ia64Target.put_div hbranch (Operand.moved_lt hbranch)
      (x := ia64Target.moved (((start + low).toNat + 15) / 2 ^ 4) (instruction.toNat / 2 ^ bit))
    rw [convertIa64, if_pos (htest.mpr hbranch), Operand.move_of_recognized hbranch]
    generalize ia64Target.put _ _ = written at hword hput ⊢
    have hwritten : written * 2 ^ bit < 2 ^ 64 :=
      Nat.lt_of_le_of_lt (Nat.mul_le_mul_left _ hle) (by omega)
    refine (UInt64.toNat_or _ _).trans ?_
    rw [UInt64.toNat_and, hmask bit hbit, Nat.and_two_pow_sub_one_eq_mod, UInt64.toNat_shiftLeft,
      hword, hshift, Nat.mod_eq_of_lt (show bit < 64 by omega), Nat.shiftLeft_eq,
      Nat.mod_eq_of_lt hwritten, Nat.or_comm, or_eq_add (Nat.mod_lt _ hpos), Nat.add_comm]
  · rw [convertIa64, if_neg (mt htest.mp hbranch), Operand.move_of_not hbranch]
    exact (Nat.mod_add_div' _ _).symm

end convert

/-! ### Bundles -/

theorem leValue_append (front rest : Bytes) :
    leValue (front ++ rest) = leValue front + 256 ^ front.length * leValue rest := by
  induction front with
  | nil => simp [leValue]
  | cons byte front ih =>
      rw [List.cons_append, leValue, leValue, ih, List.length_cons, Nat.pow_succ', Nat.mul_add,
        Nat.mul_assoc, Nat.add_assoc]

/-- A slot lies in six of the bytes, from some bit of the first of these on. -/
theorem move_window (done rest : Bytes) {word : Bytes} {bit : Nat} (hword : word.length = 6)
    (hbit : bit < 8) (amount : Nat) :
    (ia64Target.above (8 * done.length + bit)).move amount (leValue (done ++ (word ++ rest)))
      = leValue (done ++ (leBytes 6 ((ia64Target.above bit).move amount (leValue word)) ++ rest)) := by
  have hwithin := within_ia64Target.above bit
  have hlt := leValue_lt word
  rw [hword] at hlt
  have hpow : 256 ^ done.length = 2 ^ (8 * done.length) := by rw [Nat.pow_mul]
  have hmoved : (ia64Target.above bit).move amount (leValue word) < 2 ^ 48 :=
    hwithin.move_lt (by omega) hlt
  have hlow := leValue_lt done
  rw [hpow] at hlow
  have hvalue (word : Bytes) (hword : word.length = 6) :
      leValue (done ++ (word ++ rest))
        = leValue done + (leValue word + leValue rest * 2 ^ 48) * 2 ^ (8 * done.length) := by
    rw [leValue_append, leValue_append, hpow, hword, Nat.mul_comm (2 ^ _), Nat.mul_comm (256 ^ 6)]
    rfl
  rw [hvalue word hword, hvalue _ (length_leBytes 6 _), ← Operand.move_above_above,
    Operand.move_above, Nat.add_mul_mod_self_right, Nat.mod_eq_of_lt hlow,
    Nat.add_mul_div_right _ _ (Nat.two_pow_pos _), Nat.div_eq_of_lt hlow, Nat.zero_add,
    hwithin.move_add_mul (by omega), leValue_leBytes,
    Nat.mod_eq_of_lt (show _ < 256 ^ 6 from hmoved)]

section bundles

variable (start : UInt32) {done front : Bytes} (rest : Bytes) {branchMask : UInt8} {slot : Nat}

theorem u48_toLe (value : UInt64) :
    [value.toUInt8, (value >>> 8).toUInt8, (value >>> 16).toUInt8, (value >>> 24).toUInt8,
      (value >>> 32).toUInt8, (value >>> 40).toUInt8] = leBytes 6 value.toNat := by
  have hbyte (shift : UInt64) (hshift : shift.toNat < 64) :
      (value >>> shift).toUInt8 = UInt8.ofNat (value.toNat / 2 ^ shift.toNat % 256) := by
    refine UInt8.toNat_inj.mp ?_
    rw [UInt64.toNat_toUInt8, UInt64.toNat_shiftRight, Nat.mod_eq_of_lt hshift,
      Nat.shiftRight_eq_div_pow, UInt8.toNat_ofNat_of_lt' (Nat.mod_lt _ (by decide))]
  have hlow : value.toUInt8 = UInt8.ofNat (value.toNat % 256) := by
    refine UInt8.toNat_inj.mp ?_
    rw [UInt64.toNat_toUInt8, UInt8.toNat_ofNat_of_lt' (Nat.mod_lt _ (by decide))]
  rw [hlow, hbyte 8 (by decide), hbyte 16 (by decide), hbyte 24 (by decide), hbyte 32 (by decide),
    hbyte 40 (by decide)]
  simp only [leBytes, Nat.div_div_eq_div_mul]
  rfl

/-- A slot of the bundle in front is rewritten, or not. -/
theorem ia64Slots_cons (slots : List Nat) (hslot : slot < 3) (hfront : front.length = 16)
    (hlen : done.length + 16 < 2 ^ 64)
    (hmask : ia64BranchTable[leValue front % 2 ^ 5]? = some branchMask) :
    (ia64Slots start done.length branchMask (slot :: slots) (ia64Bit slot)
        (done ++ (front ++ rest))).result
      = (ia64Slots start done.length branchMask slots (ia64Bit (slot + 1))
        (done ++ (leBytes 16 ((ia64Slot slot).move
          (((start + UInt32.ofNat done.length).toNat + 15) / 2 ^ 4) (leValue front)) ++ rest))).result := by
  have hnext : checkedAdd 32 (ia64Bit slot) 41 = some (ia64Bit (slot + 1)) :=
    checkedAdd_of_lt (show ia64Bit slot + 41 < 2 ^ 32 by unfold ia64Bit; omega)
  have hselected : checkedShl 8 1 slot = some (2 ^ slot) := by
    rw [checkedShl_of_lt (by omega), Nat.one_shiftLeft, Nat.mod_eq_of_lt]
    exact Nat.pow_lt_pow_right (by decide) (by omega)
  have hiff : ia64Selected slot (leValue front) ↔ ¬ branchMask &&& UInt8.ofNat (2 ^ slot) = 0 := by
    unfold ia64Selected
    rw [hmask]
    simp
  rw [ia64Slots, Metered.result_bind_ok (show (checkpoint 1 : Work Unit).result = .ok () from rfl),
    Metered.result_bind_ok (orFormat_eq_ok.mpr hselected), ia64Slot, Operand.move_given]
  by_cases hC : ia64Selected slot (leValue front)
  · -- the six bytes that the slot lies in
    have hbit : ia64Bit slot ≤ 87 := by
      unfold ia64Bit
      omega
    have hbyte : ia64Bit slot >>> 3 = ia64Bit slot / 8 := Nat.shiftRight_eq_div_pow _ 3
    have hrest : ia64Bit slot &&& 7 = ia64Bit slot % 8 := Nat.and_two_pow_sub_one_eq_mod _ 3
    obtain ⟨before, word, after, hbefore, hword, rfl⟩ : ∃ before word after : Bytes,
        before.length = ia64Bit slot / 8 ∧ word.length = 6 ∧ front = before ++ (word ++ after) := by
      refine ⟨front.take (ia64Bit slot / 8), (front.drop (ia64Bit slot / 8)).take 6,
        (front.drop (ia64Bit slot / 8)).drop 6, ?_, ?_, ?_⟩
      · rw [List.length_take]
        omega
      · rw [List.length_take, List.length_drop]
        omega
      · rw [List.take_append_drop, List.take_append_drop]
    have hsplit : ia64Bit slot = 8 * before.length + ia64Bit slot % 8 := by omega
    have hoffset : (addOffset done.length (ia64Bit slot >>> 3) "IA64 instruction offset overflows").result
        = .ok (done ++ before).length := by
      rw [hbyte, List.length_append, hbefore]
      exact addOffset_ok (by omega) _
    have hbytes : done ++ (before ++ (word ++ after) ++ rest)
        = (done ++ before) ++ (word ++ (after ++ rest)) := by
      simp only [List.append_assoc]
    have hbound : (done ++ before).length + 6 < 2 ^ 64 := by
      rw [List.length_append]
      omega
    have hread : (readU48Le ((done ++ before) ++ (word ++ (after ++ rest))) (done ++ before).length).result
        = .ok (UInt64.ofNat (leValue word)) :=
      Metered.bind_eq_ok.mpr ⟨word, readSlice_done hword hbound, rfl⟩
    have hvalue := leValue_lt word
    rw [hword] at hvalue
    have hinstruction : (UInt64.ofNat (leValue word)).toNat = leValue word :=
      UInt64.toNat_ofNat_of_lt' (Nat.lt_trans hvalue (by decide))
    have hconvert := toNat_convertIa64 start (UInt32.ofNat done.length)
      (Nat.mod_lt (ia64Bit slot) (by decide))
      (show (UInt64.ofNat (leValue word)).toNat < 2 ^ 48 by rw [hinstruction]; exact hvalue)
    have hwindow := move_window before after hword (Nat.mod_lt (ia64Bit slot) (by decide))
      (((start + UInt32.ofNat done.length).toNat + 15) / 2 ^ 4)
    rw [hinstruction] at hconvert
    rw [← hsplit, ← hconvert] at hwindow
    rw [if_pos hC, hwindow, if_neg (hiff.mp hC), Metered.result_bind_ok hoffset, hbytes,
      Metered.result_bind_ok hread, Metered.result_bind_ok (lowU32Offset_eq _), hrest]
    have hback (word : Bytes) (hword : word.length = 6) :
        done ++ (leBytes 16 (leValue (before ++ (word ++ after))) ++ rest)
          = (done ++ before) ++ (word ++ (after ++ rest)) := by
      have hlength : (before ++ (word ++ after)).length = 16 := by
        simp only [List.length_append] at hfront ⊢
        omega
      rw [← hlength, leBytes_leValue]
      simp only [List.append_assoc]
    rw [hback _ (length_leBytes 6 _)]
    cases convertIa64 start (UInt32.ofNat done.length) (UInt64.ofNat (leValue word))
        (ia64Bit slot % 8) with
    | none =>
        rw [Option.getD_none, hinstruction, ← hword, leBytes_leValue]
        exact Metered.result_bind_ok (orFormat_eq_ok.mpr hnext)
    | some converted =>
        have hwrite : (writeU48Le ((done ++ before) ++ (word ++ (after ++ rest)))
            (done ++ before).length converted).result
            = .ok ((done ++ before) ++ (leBytes 6 converted.toNat ++ (after ++ rest))) := by
          rw [writeU48Le, u48_toLe]
          exact writeSlice_done ((length_leBytes 6 _).trans hword.symm) (by rw [hword]; exact hbound)
        exact (Metered.result_bind_ok hwrite).trans
          (Metered.result_bind_ok (orFormat_eq_ok.mpr hnext))
  · rw [if_pos (not_not.mp (mt hiff.mpr hC)), if_neg hC, ← hfront, leBytes_leValue,
      Metered.result_bind_ok (orFormat_eq_ok.mpr hnext)]

/-- The template is kept. -/
theorem ia64Slot_move_mod (slot amount v : Nat) : (ia64Slot slot).move amount v % 2 ^ 5 = v % 2 ^ 5 := by
  have hle : 5 ≤ ia64Bit slot := Nat.le_add_right 5 _
  by_cases hv : (ia64Slot slot).Recognized v
  · rw [Operand.move_of_recognized hv]
    exact Operand.above_put_mod hle
  · rw [Operand.move_of_not hv]

/-- A bundle is relocated, slot after slot. -/
theorem ia64Slots_bundle (hfront : front.length = 16) (hlen : done.length + 16 < 2 ^ 64)
    (hmask : ia64BranchTable[leValue front % 2 ^ 5]? = some branchMask) :
    (ia64Slots start done.length branchMask [0, 1, 2] 5 (done ++ (front ++ rest))).result
      = .ok (done ++ (relocate ia64Relocations (start + UInt32.ofNat done.length) front ++ rest)) := by
  have hstep (slot : Nat) (hslot : slot < 3) (slots : List Nat) (v : Nat) (hv : v < 256 ^ 16)
      (hkept : v % 2 ^ 5 = leValue front % 2 ^ 5) :
      (ia64Slots start done.length branchMask (slot :: slots) (ia64Bit slot)
          (done ++ (leBytes 16 v ++ rest))).result
        = (ia64Slots start done.length branchMask slots (ia64Bit (slot + 1))
          (done ++ (leBytes 16 ((ia64Slot slot).move
            (((start + UInt32.ofNat done.length).toNat + 15) / 2 ^ 4) v) ++ rest))).result := by
    have hvalue : leValue (leBytes 16 v) = v := by rw [leValue_leBytes, Nat.mod_eq_of_lt hv]
    have h := ia64Slots_cons start rest slots hslot (length_leBytes 16 v) hlen
      (by rw [hvalue, hkept]; exact hmask)
    rwa [hvalue] at h
  have hvalue := leValue_lt front
  have hsame : leBytes 16 (leValue front) = front := hfront ▸ leBytes_leValue front
  rw [hfront] at hvalue
  have h₀ := Operand.Fits.move_lt (fits_ia64Slot (show 0 < 3 by decide)) hvalue
    (((start + UInt32.ofNat done.length).toNat + 15) / 2 ^ 4)
  have h₁ := Operand.Fits.move_lt (fits_ia64Slot (show 1 < 3 by decide)) h₀
    (((start + UInt32.ofNat done.length).toNat + 15) / 2 ^ 4)
  have hfirst := hstep 0 (by decide) [1, 2] _ hvalue rfl
  have hsecond := hstep 1 (by decide) [2] _ h₀ (ia64Slot_move_mod 0 _ _)
  have hthird := hstep 2 (by decide) [] _ h₁
    ((ia64Slot_move_mod 1 _ _).trans (ia64Slot_move_mod 0 _ _))
  rw [hsame] at hfirst
  rw [ia64Relocations, Relocation.relocate_written fits_ia64Operands _ hfront]
  exact hfirst.trans (hsecond.trans hthird)

end bundles

def ia64Gait : Gait UInt32 UInt8 := relocating (fun _ => 16) ia64Relocations

theorem keeps_ia64Relocations : Keeps 16 ia64Relocations := fun ip _ hfront =>
  Relocation.whole_relocate fits_ia64Operands ip hfront

theorem strides_ia64Gait {ip : UInt32} {rest : Bytes} :
    ia64Gait.Strides ip rest ↔ 16 ≤ rest.length :=
  and_iff_right (Nat.succ_pos 15)

theorem ia64Bundles_walk (start : UInt32) {n : Nat} (hlen : n < 2 ^ 64) (fuel : Nat) :
    ∀ done rest : Bytes, done.length + rest.length = n → 16 ∣ done.length → rest.length < fuel →
      (ia64Bundles start (n / 16 * 16) fuel done.length (done ++ rest)).result
        = .ok (done ++ ia64Gait.walk (start + UInt32.ofNat done.length) rest) := by
  induction fuel with
  | zero => intro done rest _ _ hfuel; exact absurd hfuel (Nat.not_lt_zero _)
  | succ fuel ih =>
      intro done rest hn hdone hfuel
      rw [ia64Bundles]
      by_cases hrest : 16 ≤ rest.length
      · obtain ⟨front, rest, rfl, hfront⟩ : ∃ front tail, rest = front ++ tail ∧ front.length = 16 :=
          ⟨rest.take 16, rest.drop 16, (List.take_append_drop _ _).symm, by
            rw [List.length_take]
            omega⟩
        rw [List.length_append, hfront] at hn hfuel
        obtain ⟨first, tail, rfl⟩ : ∃ first tail, front = first :: tail :=
          List.exists_cons_of_length_pos (by omega)
        have hfirst : (byteAt (done ++ (first :: tail ++ rest)) done.length
            "IA64 bundle is truncated").result = .ok first := by
          have hzero : (first :: tail)[0]? = some first := rfl
          exact byteAt_front hzero _
        have htemplate : (first &&& 0x1f).toNat = leValue (first :: tail) % 2 ^ 5 := by
          rw [UInt8.toNat_and, leValue]
          show first.toNat &&& (2 ^ 5 - 1) = _
          rw [Nat.and_two_pow_sub_one_eq_mod]
          omega
        obtain ⟨mask, hmask⟩ : ∃ mask, ia64BranchTable[leValue (first :: tail) % 2 ^ 5]? = some mask :=
          ⟨_, List.getElem?_eq_getElem (Nat.mod_lt _ (by decide))⟩
        have hoffset : done.length + 16 < 2 ^ 64 := by omega
        have hslots := ia64Slots_bundle start rest hfront hoffset hmask
        have hlength := keeps_ia64Relocations (start + UInt32.ofNat done.length) _ hfront
        have hnext := ih (done ++ relocate ia64Relocations (start + UInt32.ofNat done.length)
          (first :: tail)) rest (by rw [List.length_append, hlength]; omega)
          (by rw [List.length_append, hlength]; omega) (by omega)
        rw [List.length_append, hlength, List.append_assoc, List.append_assoc, UInt32.ofNat_add,
          ← UInt32.add_assoc] at hnext
        have hwalk : ia64Gait.walk (start + UInt32.ofNat done.length) (first :: tail ++ rest)
            = relocate ia64Relocations (start + UInt32.ofNat done.length) (first :: tail)
              ++ ia64Gait.walk (start + UInt32.ofNat done.length + UInt32.ofNat 16) rest := by
          have hpos : 0 < (first :: tail).length := Nat.succ_pos _
          have hcut : ia64Gait.cut (start + UInt32.ofNat done.length) (first :: tail ++ rest)
              = (first :: tail).length := hfront.symm
          rw [Gait.walk_append hpos hcut]
          show _ ++ ia64Gait.walk (_ + UInt32.ofNat (first :: tail).length) _ = _
          rw [hfront]
          rfl
        rw [if_pos (by omega), hwalk]
        refine Metered.bind_eq_ok.mpr ⟨(), rfl, Metered.bind_eq_ok.mpr ⟨first, hfirst,
          Metered.bind_eq_ok.mpr ⟨mask, ?_, Metered.bind_eq_ok.mpr
            ⟨_, hslots, Metered.bind_eq_ok.mpr ⟨_, addOffset_ok hoffset _, hnext⟩⟩⟩⟩⟩
        rw [htemplate]
        exact orFormat_eq_ok.mpr hmask
      · rw [if_neg (by omega), Gait.walk_of_not (mt strides_ia64Gait.mp hrest)]
        rfl

/-- The filter walks over its input, from the start position on. -/
theorem decodeIa64_walk {properties : Bytes} {start : UInt32}
    (hstart : (startingPosition properties).result = .ok start) {bytes : Bytes}
    (hlen : bytes.length < 2 ^ 64) :
    (decodeIa64 properties bytes).result = .ok (ia64Gait.walk start bytes) := by
  have hmul : checkedMul 64 (bytes.length / 16) 16 = some (bytes.length / 16 * 16) :=
    checkedMul_of_lt (by omega)
  have hloop := ia64Bundles_walk start hlen (bytes.length + 1) [] bytes (Nat.zero_add _)
    (Nat.dvd_zero _) (Nat.lt_succ_self _)
  have hzero : start + UInt32.ofNat (List.length (α := UInt8) []) = start := UInt32.add_zero start
  rw [List.nil_append, List.nil_append, hzero] at hloop
  exact Metered.bind_eq_ok.mpr ⟨start, hstart, Metered.bind_eq_ok.mpr
    ⟨_, orFormat_eq_ok.mpr hmul, hloop⟩⟩

end CompatibilityFilters

end Un7z
