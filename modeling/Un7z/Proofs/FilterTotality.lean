/-
The in-place filters deliver.

A filter fails when an index is out of range, when a word does not fit the type it is
converted to, or when the arithmetic on an offset leaves a `usize`.  Each of these is a
step of its own in the source, so there is one rule for each, and a filter is gone
through step by step with them: `Delivers m P` says that `m` returns, and returns a value
in `P`.  What the loops add is that a round keeps the length and goes forward.

The x86 filter is left out here: it converts its position to 32 bits, and that can fail.
-/
import Un7z.Filters

namespace Un7z

namespace Filters

/-- The computation returns a value, and the value is in `P`. -/
def Delivers {α : Type} (m : Work α) (P : α → Prop) : Prop := m.Ensures P fun _ => False

/-- The filter returns as many bytes as it is given. -/
def KeepsLength (n : Nat) (bytes : Bytes) : Prop := bytes.length = n

section rules

variable {α β : Type} {m : Work α} {P Q : α → Prop}

theorem Delivers.bind {f : α → Work β} {R : β → Prop} (h : Delivers m P)
    (hf : ∀ a, P a → Delivers (f a) R) : Delivers (m >>= f) R :=
  Metered.Ensures.bind h hf

theorem delivers_of_ok {a : α} (h : m.result = .ok a) (ha : P a) : Delivers m P :=
  Metered.ensures_of_ok h ha

theorem delivers_pure {a : α} (h : P a) : Delivers (pure a) P := delivers_of_ok rfl h

theorem delivers_iff : Delivers m P ↔ ∃ a, m.result = .ok a ∧ P a :=
  ⟨fun h => Metered.Ensures.exists_ok h fun _ => id, fun ⟨_, h, ha⟩ => delivers_of_ok h ha⟩

/-- What is known to return is out of the way. -/
theorem delivers_bind_iff {f : α → Work β} {R : β → Prop} {a : α} (h : m.result = .ok a) :
    Delivers (m >>= f) R ↔ Delivers (f a) R := by
  rw [Delivers, Delivers, Metered.Ensures, Metered.Ensures, Metered.result_bind_ok h]

theorem delivers_ite {c : Prop} [Decidable c] {m' : Work α} (h : c → Delivers m P)
    (h' : ¬ c → Delivers m' P) : Delivers (if c then m else m') P := by
  by_cases hc : c
  · rw [if_pos hc]
    exact h hc
  · rw [if_neg hc]
    exact h' hc

theorem delivers_checkpoint (units : Nat) : Delivers (checkpoint units) fun _ => True :=
  delivers_of_ok rfl trivial

theorem delivers_orFormat {value : Option α} {detail : String} {a : α} (h : value = some a)
    (ha : P a) : Delivers (orFormat value detail) P :=
  delivers_of_ok (orFormat_eq_ok.mpr h) ha

end rules

/-! ### One rule for each step that can fail -/

theorem delivers_byteAt {bytes : Bytes} {index : Nat} (h : index < bytes.length) (detail : String) :
    Delivers (byteAt bytes index detail) fun byte => bytes[index]? = some byte :=
  delivers_orFormat (List.getElem?_eq_getElem h) (List.getElem?_eq_getElem h)

theorem delivers_addOffset {offset amount : Nat} (h : offset + amount < 2 ^ 64)
    (detail : String) : Delivers (addOffset offset amount detail) (· = offset + amount) :=
  delivers_orFormat (checkedAdd_of_lt h) rfl

theorem delivers_readSlice {o t : String} {length offset : Nat} {bytes : Bytes}
    (h : offset + length ≤ bytes.length) (hlen : bytes.length < 2 ^ 64) :
    Delivers (readSlice o t length bytes offset) (· = (bytes.drop offset).take length) := by
  refine (delivers_orFormat (checkedAdd_of_lt (show offset + length < 2 ^ 64 by omega)) rfl :
    Delivers _ (· = offset + length)).bind ?_
  rintro stop rfl
  rw [if_pos h]
  exact delivers_pure rfl

theorem delivers_writeSlice {o t : String} {offset : Nat} {bytes word : Bytes}
    (h : offset + word.length ≤ bytes.length) (hlen : bytes.length < 2 ^ 64) :
    Delivers (writeSlice o t bytes offset word)
      (· = bytes.take offset ++ word ++ bytes.drop (offset + word.length)) := by
  refine (delivers_orFormat (checkedAdd_of_lt (show offset + word.length < 2 ^ 64 by omega)) rfl :
    Delivers _ (· = offset + word.length)).bind ?_
  rintro stop rfl
  rw [if_pos h]
  exact delivers_pure rfl

theorem length_written {offset : Nat} {bytes word : Bytes}
    (h : offset + word.length ≤ bytes.length) :
    (bytes.take offset ++ word ++ bytes.drop (offset + word.length)).length = bytes.length := by
  simp only [List.length_append, List.length_take, List.length_drop]
  omega

theorem Delivers.mono {α : Type} {m : Work α} {P Q : α → Prop} (h : Delivers m P)
    (hPQ : ∀ a, P a → Q a) : Delivers m Q :=
  Metered.Ensures.mono h hPQ fun _ => id

/-- A word that is written over part of the bytes leaves as many of them. -/
theorem delivers_overwrite {o t : String} {offset n : Nat} {bytes word : Bytes}
    (hn : bytes.length = n) (h : offset + word.length ≤ n) (hlen : n < 2 ^ 64) :
    Delivers (writeSlice o t bytes offset word) (KeepsLength n) := by
  subst hn
  refine (delivers_writeSlice h hlen).mono ?_
  rintro _ rfl
  exact length_written h

theorem delivers_wordToByte {word : UInt32} (h : word < 256) (detail : String) :
    Delivers (wordToByte word detail) fun _ => True := by
  unfold wordToByte
  rw [if_pos h]
  exact delivers_pure trivial

theorem delivers_startingPosition {properties : Bytes}
    (h : properties = [] ∨ properties.length = 4) :
    Delivers (startingPosition properties) fun _ => True := by
  unfold startingPosition
  rcases h with rfl | h
  · exact delivers_pure trivial
  · have hne : properties.isEmpty = false := by
      cases properties with
      | nil => exact absurd h (by decide)
      | cons byte rest => rfl
    rw [if_neg (by simp [hne]), if_pos h]
    exact delivers_pure trivial

/-! ### Delta -/

theorem delivers_deltaFrom (distance : Nat) (hdistance : distance ≤ 256) :
    ∀ (bytes history : Bytes) (position : UInt8), history.length = 256 →
      Delivers (deltaFrom distance history position bytes) (KeepsLength bytes.length) := by
  intro bytes
  induction bytes with
  | nil => intro history position _; exact delivers_pure rfl
  | cons byte rest ih =>
      intro history position hhistory
      have hposition : position.toNat &&& 255 < 256 := Nat.lt_succ_of_le Nat.and_le_right
      have hlt : distance + position.toNat < 2 ^ 64 := by
        have := position.toNat_lt
        omega
      refine (delivers_checkpoint 1).bind fun _ _ => ?_
      refine (delivers_orFormat (checkedAdd_of_lt hlt) rfl : Delivers _ (· = _)).bind ?_
      rintro sum rfl
      refine (delivers_byteAt ?_ _).bind fun previous _ => ?_
      · rw [hhistory]
        exact Nat.lt_succ_of_le Nat.and_le_right
      rw [if_pos (by rw [hhistory]; exact hposition)]
      refine (ih _ _ (by rw [List.length_set, hhistory])).bind fun rest' hrest => ?_
      exact delivers_pure (congrArg (· + 1) hrest)

theorem delivers_decodeDelta {properties : Bytes} (h : properties.length = 1) (bytes : Bytes) :
    Delivers (decodeDelta properties bytes) (KeepsLength bytes.length) := by
  obtain ⟨property, rfl⟩ := List.length_eq_one_iff.mp h
  have hlt := property.toNat_lt
  refine (delivers_orFormat (checkedAdd_of_lt (show property.toNat + 1 < 2 ^ 64 by omega)) rfl :
    Delivers _ (· = property.toNat + 1)).bind ?_
  rintro distance rfl
  exact delivers_deltaFrom _ (by omega) _ _ _ List.length_replicate

/-! ### Filters that go from word to word -/

/-- The rule of the loop: a body that keeps the length where there is a whole word. -/
theorem delivers_wordsFrom {overflows : String} {body : UInt32 → Nat → InPlace} {n : Nat}
    (hbody : ∀ (ip : UInt32) (offset : Nat) (bytes : Bytes), bytes.length = n → offset + 4 ≤ n →
      Delivers (body ip offset bytes) (KeepsLength n)) :
    ∀ (fuel : Nat) (ip : UInt32) (offset : Nat) (bytes : Bytes), bytes.length = n →
      n - offset < fuel → Delivers (wordsFrom overflows body fuel ip offset bytes) (KeepsLength n) := by
  intro fuel
  induction fuel with
  | zero => intro ip offset bytes _ hfuel; exact absurd hfuel (by omega)
  | succ fuel ih =>
      intro ip offset bytes hn hfuel
      refine delivers_ite (fun hguard => ?_) fun _ => delivers_pure hn
      obtain ⟨hlt, hle⟩ : offset + 4 < 2 ^ 64 ∧ offset + 4 ≤ n := by
        unfold checkedAdd at hguard
        by_cases hlt : offset + 4 < 2 ^ 64
        · rw [if_pos hlt, hn] at hguard
          exact ⟨hlt, by simpa using hguard⟩
        · rw [if_neg hlt] at hguard
          exact absurd hguard (by simp)
      refine (delivers_checkpoint 4).bind fun _ _ => ?_
      refine (hbody ip offset bytes hn hle).bind fun bytes' hbytes' => ?_
      refine (delivers_addOffset hlt _).bind ?_
      rintro next rfl
      exact ih _ _ _ hbytes' (by omega)

section words

variable {ip : UInt32} {offset n : Nat} {bytes : Bytes}

theorem delivers_readU32Le (hn : bytes.length = n) (h : offset + 4 ≤ n) (hlen : n < 2 ^ 64) :
    Delivers (readU32Le bytes offset) fun _ => True := by
  subst hn
  exact (delivers_readSlice h hlen).bind fun _ _ => delivers_pure trivial

theorem delivers_readU32Be (hn : bytes.length = n) (h : offset + 4 ≤ n) (hlen : n < 2 ^ 64) :
    Delivers (readU32Be bytes offset) fun _ => True := by
  subst hn
  exact (delivers_readSlice h hlen).bind fun _ _ => delivers_pure trivial

variable (hlen : n < 2 ^ 64) (hn : bytes.length = n) (h : offset + 4 ≤ n)

include hlen hn h

theorem delivers_ppcWord : Delivers (ppcWord ip offset bytes) (KeepsLength n) := by
  refine (delivers_byteAt (by omega) _).bind fun first _ => ?_
  refine (delivers_addOffset (by omega) _).bind ?_
  rintro index rfl
  refine (delivers_byteAt (by omega) _).bind fun fourth _ => ?_
  refine (delivers_readU32Be hn h hlen).bind fun value _ => ?_
  exact delivers_ite (fun _ => delivers_overwrite hn h hlen) fun _ => delivers_pure hn

theorem delivers_armWord : Delivers (armWord ip offset bytes) (KeepsLength n) := by
  refine (delivers_addOffset (by omega) _).bind ?_
  rintro index rfl
  refine (delivers_byteAt (by omega) _).bind fun opcode _ => ?_
  refine delivers_ite (fun _ => ?_) fun _ => delivers_pure hn
  refine (delivers_readU32Le hn h hlen).bind fun value _ => ?_
  exact delivers_overwrite hn h hlen

theorem delivers_arm64Word : Delivers (arm64Word ip offset bytes) (KeepsLength n) := by
  refine (delivers_readU32Le hn h hlen).bind fun original _ => ?_
  cases convertArm64 ip original with
  | none => exact delivers_pure hn
  | some value => exact delivers_overwrite hn h hlen

theorem delivers_sparcWord : Delivers (sparcWord ip offset bytes) (KeepsLength n) := by
  refine (delivers_byteAt (by omega) _).bind fun first _ => ?_
  refine (delivers_addOffset (by omega) _).bind ?_
  rintro index rfl
  refine (delivers_byteAt (by omega) _).bind fun second _ => ?_
  refine delivers_ite (fun _ => ?_) fun _ => delivers_pure hn
  refine (delivers_readU32Be hn h hlen).bind fun word _ => ?_
  exact delivers_overwrite hn h hlen

end words

/-- A filter whose properties are a start position, over the loop from word to word. -/
theorem delivers_words {properties bytes : Bytes} {overflows : String} {n : Nat}
    {body : UInt32 → Nat → InPlace} {first : UInt32 → UInt32}
    (hproperties : properties = [] ∨ properties.length = 4) (hn : bytes.length = n)
    (hbody : ∀ (ip : UInt32) (offset : Nat) (bytes : Bytes), bytes.length = n → offset + 4 ≤ n →
      Delivers (body ip offset bytes) (KeepsLength n)) :
    Delivers (do
      let start ← startingPosition properties
      wordsFrom overflows body (bytes.length + 1) (first start) 0 bytes) (KeepsLength n) := by
  refine (delivers_startingPosition hproperties).bind fun start _ => ?_
  exact delivers_wordsFrom hbody _ _ _ _ hn (by omega)

end Filters

namespace CompatibilityFilters

open Filters

/-! ### Byte swaps -/

theorem delivers_swapChunks (width : Nat) (pieces : List Bytes) :
    Delivers (swapChunks width pieces) (KeepsLength pieces.flatten.length) := by
  induction pieces with
  | nil => exact delivers_pure rfl
  | cons piece rest ih =>
      refine delivers_ite (fun _ => ?_) fun _ => delivers_pure rfl
      refine (delivers_checkpoint width).bind fun _ _ => ?_
      refine ih.bind fun rest' hrest => delivers_pure ?_
      have hlength : rest'.length = rest.flatten.length := hrest
      show (piece.reverse ++ rest').length = (piece ++ rest.flatten).length
      rw [List.length_append, List.length_append, List.length_reverse, hlength]

theorem delivers_decodeSwap {width : Nat} (hwidth : width = 2 ∨ width = 4) (bytes : Bytes) :
    Delivers (decodeSwap width [] bytes) (KeepsLength bytes.length) := by
  unfold decodeSwap
  rw [if_neg (by simp), if_neg (by omega)]
  have h := delivers_swapChunks width (chunks width bytes)
  rwa [flatten_chunks (by omega)] at h

/-! ### Loops over offsets -/

/-- The rule of the loop: a round keeps the length and goes forward. -/
theorem delivers_scanWhile {round : Nat → Bytes → Work (Bytes × Nat)} {scanEnd n : Nat}
    (hround : ∀ (offset : Nat) (bytes : Bytes), bytes.length = n → offset ≤ scanEnd →
      Delivers (round offset bytes) fun out => out.1.length = n ∧ offset < out.2) :
    ∀ (fuel offset : Nat) (bytes : Bytes), bytes.length = n → scanEnd + 1 - offset < fuel →
      Delivers (scanWhile round scanEnd fuel offset bytes) (KeepsLength n) := by
  intro fuel
  induction fuel with
  | zero => intro offset bytes _ hfuel; exact absurd hfuel (by omega)
  | succ fuel ih =>
      intro offset bytes hn hfuel
      refine delivers_ite (fun hle => ?_) fun _ => delivers_pure hn
      refine (hround offset bytes hn hle).bind fun out hout => ?_
      exact ih _ _ hout.1 (by omega)

section rounds

variable {start : UInt32} {offset n : Nat} {bytes : Bytes}

theorem delivers_lowU32Offset (offset : Nat) : Delivers (lowU32Offset offset) fun _ => True := by
  have hlt : offset &&& (2 ^ 32 - 1) < 2 ^ 32 := Nat.lt_succ_of_le Nat.and_le_right
  exact delivers_orFormat (by rw [tryFrom_of_lt hlt]; rfl) trivial

theorem and_lt_256 (word : UInt32) {mask : UInt32} (h : mask < 256) : word &&& mask < 256 := by
  rw [UInt32.lt_iff_toNat_lt] at h ⊢
  rw [UInt32.toNat_and]
  exact Nat.lt_of_le_of_lt Nat.and_le_right h

theorem or_lt_256 {a b : UInt32} (ha : a < 256) (hb : b < 256) : a ||| b < 256 := by
  rw [UInt32.lt_iff_toNat_lt] at ha hb ⊢
  rw [UInt32.toNat_or]
  exact Nat.or_lt_two_pow (n := 8) ha hb

variable (hlen : n < 2 ^ 64) (hn : bytes.length = n)

include hlen hn

/-! ### ARM Thumb -/

theorem delivers_convertArmThumb (h : offset + 4 ≤ n) (second fourth : UInt8) :
    Delivers (convertArmThumb start offset second fourth bytes) (KeepsLength n) := by
  refine (delivers_byteAt (by omega) _).bind fun first _ => ?_
  refine (delivers_addOffset (by omega) _).bind ?_
  rintro index rfl
  refine (delivers_byteAt (by omega) _).bind fun third _ => ?_
  refine (delivers_lowU32Offset offset).bind fun low _ => ?_
  refine (delivers_wordToByte (and_lt_256 _ (by decide)) _).bind fun byte₀ _ => ?_
  refine (delivers_wordToByte (and_lt_256 _ (by decide)) _).bind fun byte₁ _ => ?_
  refine (delivers_wordToByte (and_lt_256 _ (by decide)) _).bind fun byte₂ _ => ?_
  refine (delivers_wordToByte (and_lt_256 _ (by decide)) _).bind fun byte₃ _ => ?_
  exact delivers_overwrite hn h hlen

theorem delivers_armThumbRound (h : offset + 4 ≤ n) :
    Delivers (armThumbRound start offset bytes) fun out => out.1.length = n ∧ offset < out.2 := by
  refine (delivers_checkpoint 2).bind fun _ _ => ?_
  refine (delivers_addOffset (by omega) _).bind ?_
  rintro index rfl
  refine (delivers_byteAt (by omega) _).bind fun second _ => ?_
  refine (delivers_addOffset (by omega) _).bind ?_
  rintro index rfl
  refine (delivers_byteAt (by omega) _).bind fun fourth _ => ?_
  refine delivers_ite (fun _ => ?_) fun _ => ?_
  · refine (delivers_convertArmThumb hlen hn h second fourth).bind fun bytes' hbytes' => ?_
    refine (delivers_addOffset (by omega) _).bind ?_
    rintro next rfl
    refine (delivers_addOffset (by omega) _).bind ?_
    rintro next rfl
    exact delivers_pure ⟨hbytes', by show offset < offset + 2 + 2; omega⟩
  · refine (delivers_addOffset (by omega) _).bind ?_
    rintro next rfl
    exact delivers_pure ⟨hn, by show offset < offset + 2; omega⟩

/-! ### RISC-V -/

theorem delivers_convertJal (h : offset + 4 ≤ n) (first second : UInt8) :
    Delivers (convertJal start offset first second bytes) (KeepsLength n) := by
  refine (delivers_addOffset (by omega) _).bind ?_
  rintro index rfl
  refine (delivers_byteAt (by omega) _).bind fun third _ => ?_
  refine (delivers_addOffset (by omega) _).bind ?_
  rintro index rfl
  refine (delivers_byteAt (by omega) _).bind fun fourth _ => ?_
  refine (delivers_lowU32Offset offset).bind fun low _ => ?_
  refine (delivers_wordToByte (and_lt_256 _ (by decide)) _).bind fun byte₁ _ => ?_
  refine (delivers_wordToByte (or_lt_256 (or_lt_256 (and_lt_256 _ (by decide))
    (and_lt_256 _ (by decide))) (and_lt_256 _ (by decide))) _).bind fun byte₂ _ => ?_
  refine (delivers_wordToByte (or_lt_256 (and_lt_256 _ (by decide))
    (and_lt_256 _ (by decide))) _).bind fun byte₃ _ => ?_
  exact delivers_overwrite hn h hlen

theorem delivers_readWordLe (h : offset + 4 ≤ n) :
    Delivers (CompatibilityFilters.readU32Le bytes offset) fun _ => True := by
  subst hn
  exact (delivers_readSlice h hlen).bind fun _ _ => delivers_pure trivial

theorem delivers_readWordBe (h : offset + 4 ≤ n) :
    Delivers (CompatibilityFilters.readU32Be bytes offset) fun _ => True := by
  subst hn
  exact (delivers_readSlice h hlen).bind fun _ _ => delivers_pure trivial

theorem delivers_writePair (h : offset + 8 ≤ n) (instruction second : UInt32) :
    Delivers (writePair offset instruction second bytes) fun out =>
      out.1.length = n ∧ offset < out.2 := by
  refine (delivers_overwrite hn (by simp [u32ToLe]; omega) hlen).bind fun bytes₁ hbytes₁ => ?_
  refine (delivers_addOffset (by omega) _).bind ?_
  rintro index rfl
  refine (delivers_overwrite hbytes₁ (by simp [u32ToLe]; omega) hlen).bind fun bytes₂ hbytes₂ => ?_
  refine (delivers_addOffset (by omega) _).bind ?_
  rintro next rfl
  exact delivers_pure ⟨hbytes₂, by show offset < offset + 8; omega⟩

/-- Going forward past bytes that stay as they are. -/
theorem delivers_pass {amount : Nat} (hamount : 0 < amount) (h : offset + amount ≤ n)
    (detail : String) :
    Delivers (do
      let offset ← addOffset offset amount detail
      pure (bytes, offset)) fun out => out.1.length = n ∧ offset < out.2 := by
  refine (delivers_addOffset (by omega) _).bind ?_
  rintro next rfl
  exact delivers_pure ⟨hn, by show offset < offset + amount; omega⟩

theorem delivers_convertAuipc (h : offset + 8 ≤ n) :
    Delivers (convertAuipc start offset bytes) fun out => out.1.length = n ∧ offset < out.2 := by
  refine (delivers_readWordLe hlen hn (by omega)).bind fun instruction _ => ?_
  refine delivers_ite (fun _ => ?_) fun _ => ?_
  · refine (delivers_addOffset (by omega) _).bind ?_
    rintro index rfl
    refine (delivers_readWordLe hlen hn (by omega)).bind fun second _ => ?_
    exact delivers_ite (fun _ => delivers_pass hlen hn (by decide) (by omega) _)
      fun _ => delivers_writePair hlen hn h _ _
  · refine delivers_ite (fun _ => delivers_pass hlen hn (by decide) (by omega) _) fun _ => ?_
    refine (delivers_addOffset (by omega) _).bind ?_
    rintro index rfl
    refine (delivers_lowU32Offset offset).bind fun low _ => ?_
    refine (delivers_readWordBe hlen hn (by omega)).bind fun word _ => ?_
    exact delivers_writePair hlen hn h _ _

theorem delivers_riscvRound (h : offset + 8 ≤ n) :
    Delivers (riscvRound start offset bytes) fun out => out.1.length = n ∧ offset < out.2 := by
  refine (delivers_checkpoint 2).bind fun _ _ => ?_
  refine (delivers_byteAt (by omega) _).bind fun first _ => ?_
  refine delivers_ite (fun _ => ?_) fun _ => ?_
  · refine (delivers_addOffset (by omega) _).bind ?_
    rintro index rfl
    refine (delivers_byteAt (by omega) _).bind fun second _ => ?_
    refine delivers_ite (fun _ => ?_) fun _ => delivers_pass hlen hn (by decide) (by omega) _
    refine (delivers_convertJal hlen hn (by omega) first second).bind fun bytes' hbytes' => ?_
    exact delivers_pass hlen hbytes' (by decide) (by omega) _
  · exact delivers_ite (fun _ => delivers_convertAuipc hlen hn h)
      fun _ => delivers_pass hlen hn (by decide) (by omega) _

/-! ### IA-64 -/

/-- The three slots end at bit 128 of the bundle, so each six-byte word lies in the bundle. -/
theorem delivers_ia64Slots (h : offset + 16 ≤ n) (branchMask : UInt8) :
    ∀ (slots : List Nat) (bitPosition : Nat) (bytes : Bytes), bytes.length = n →
      (∀ slot ∈ slots, slot < 8) → bitPosition + 41 * slots.length ≤ 128 →
      Delivers (ia64Slots start offset branchMask slots bitPosition bytes) (KeepsLength n) := by
  intro slots
  induction slots with
  | nil => intro bitPosition bytes hn _ _; exact delivers_pure hn
  | cons slot slots ih =>
      intro bitPosition bytes hn hslots hbits
      rw [List.length_cons] at hbits
      have hshift : bitPosition >>> 3 ≤ 10 := by
        rw [Nat.shiftRight_eq_div_pow]
        omega
      have hnext : checkedAdd 32 bitPosition 41 = some (bitPosition + 41) :=
        checkedAdd_of_lt (by omega)
      have hrest : ∀ bytes' : Bytes, bytes'.length = n → Delivers (do
          let bitPosition ← orFormat (checkedAdd 32 bitPosition 41) "IA64 bit position overflows"
          ia64Slots start offset branchMask slots bitPosition bytes') (KeepsLength n) := by
        intro bytes' hbytes'
        refine (delivers_orFormat hnext rfl : Delivers _ (· = bitPosition + 41)).bind ?_
        rintro _ rfl
        exact ih _ _ hbytes' (fun s hs => hslots s (List.mem_cons_of_mem _ hs)) (by omega)
      refine (delivers_checkpoint 1).bind fun _ _ => ?_
      refine (delivers_orFormat (checkedShl_of_lt (hslots slot (by simp))) trivial :
        Delivers _ fun _ => True).bind fun selected _ => ?_
      refine delivers_ite (fun _ => hrest bytes hn) fun _ => ?_
      refine (delivers_addOffset (by omega) _).bind ?_
      rintro instructionOffset rfl
      have hread : Delivers (readU48Le bytes (offset + bitPosition >>> 3)) fun _ => True := by
        subst hn
        exact (delivers_readSlice (by omega) hlen).bind fun _ _ => delivers_pure trivial
      refine hread.bind fun instruction _ => ?_
      refine (delivers_lowU32Offset offset).bind fun low _ => ?_
      cases convertIa64 start low instruction (bitPosition &&& 7) with
      | none => exact hrest bytes hn
      | some converted =>
          refine (delivers_overwrite hn (by simp; omega) hlen).bind fun bytes' hbytes' => ?_
          exact hrest bytes' hbytes'

end rounds

theorem length_ia64BranchTable : ia64BranchTable.length = 32 := rfl

theorem delivers_ia64Bundles {start : UInt32} {processBytes n : Nat} (hlen : n < 2 ^ 64)
    (hprocess : processBytes ≤ n) (hbundles : 16 ∣ processBytes) :
    ∀ (fuel offset : Nat) (bytes : Bytes), bytes.length = n → 16 ∣ offset →
      processBytes - offset < fuel →
      Delivers (ia64Bundles start processBytes fuel offset bytes) (KeepsLength n) := by
  intro fuel
  induction fuel with
  | zero => intro offset bytes _ _ hfuel; exact absurd hfuel (by omega)
  | succ fuel ih =>
      intro offset bytes hn hoffset hfuel
      refine delivers_ite (fun hlt => ?_) fun _ => delivers_pure hn
      have hle : offset + 16 ≤ n := by omega
      refine (delivers_checkpoint 16).bind fun _ _ => ?_
      refine (delivers_byteAt (by omega) _).bind fun first _ => ?_
      have htemplate : (first &&& 0x1f).toNat < ia64BranchTable.length := by
        rw [length_ia64BranchTable, UInt8.toNat_and]
        exact Nat.lt_succ_of_le Nat.and_le_right
      refine (delivers_orFormat (List.getElem?_eq_getElem htemplate) trivial :
        Delivers _ fun _ => True).bind fun branchMask _ => ?_
      refine (delivers_ia64Slots hlen hn hle branchMask [0, 1, 2] 5 bytes hn (by decide)
        (by decide)).bind fun bytes' hbytes' => ?_
      refine (delivers_addOffset (by omega) _).bind ?_
      rintro next rfl
      exact ih _ _ hbytes' ((Nat.dvd_add_right hoffset).mpr (by decide)) (by omega)

/-! ### Whole filters -/

variable {properties bytes : Bytes}

theorem delivers_decodeIa64 (h : properties = [] ∨ properties.length = 4)
    (hlen : bytes.length < 2 ^ 64) :
    Delivers (decodeIa64 properties bytes) (KeepsLength bytes.length) := by
  refine (delivers_startingPosition h).bind fun start _ => ?_
  refine (delivers_orFormat (checkedMul_of_lt (show bytes.length / 16 * 16 < 2 ^ 64 by omega)) rfl :
    Delivers _ (· = bytes.length / 16 * 16)).bind ?_
  rintro processBytes rfl
  exact delivers_ia64Bundles hlen (by omega) (Nat.dvd_mul_left _ _) _ _ _ rfl (Nat.dvd_zero _)
    (by omega)

theorem delivers_decodeArmThumb (h : properties = [] ∨ properties.length = 4)
    (hlen : bytes.length < 2 ^ 64) :
    Delivers (decodeArmThumb properties bytes) (KeepsLength bytes.length) := by
  refine delivers_ite (fun _ => delivers_pure rfl) fun hlong => ?_
  refine (delivers_startingPosition h).bind fun start _ => ?_
  refine (delivers_orFormat (checkedSub_of_le (show 4 ≤ bytes.length by omega)) rfl :
    Delivers _ (· = bytes.length - 4)).bind ?_
  rintro scanEnd rfl
  refine delivers_scanWhile (fun offset bytes' hn hle => ?_) _ _ _ rfl (by omega)
  exact delivers_armThumbRound hlen hn (by omega)

theorem delivers_decodeRiscv (h : properties = [] ∨ properties.length = 4)
    (hlen : bytes.length < 2 ^ 64) :
    Delivers (decodeRiscv properties bytes) (KeepsLength bytes.length) := by
  refine delivers_ite (fun _ => delivers_pure rfl) fun hlong => ?_
  refine (delivers_startingPosition h).bind fun start _ => ?_
  refine (delivers_orFormat (checkedSub_of_le (show 8 ≤ bytes.length by omega)) rfl :
    Delivers _ (· = bytes.length - 8)).bind ?_
  rintro scanEnd rfl
  refine delivers_scanWhile (fun offset bytes' hn hle => ?_) _ _ _ rfl (by omega)
  exact delivers_riscvRound hlen hn (by omega)

end CompatibilityFilters

end Un7z
