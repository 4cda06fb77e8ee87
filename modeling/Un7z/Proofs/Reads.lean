/-
What the primitive reads read.

A `BoundedReader` is a cursor over bytes, and these are the rules for its primitives:
`readBytes` reads the word in front of it, whatever it is, and the fixed-width values
are read from their little-endian words.  The variable-width integer is the one with
content.  Its first byte holds one leading one for each byte that follows, and the high
bits of the value in what is left, so a value has a word for every width it fits:
`uintWord`.  The loop of `read_7z_uint` is followed with the invariant that after `i`
bytes it holds the value's low `i` bytes.
-/
import Mathlib.Data.Nat.Bitwise
import Mathlib.Tactic.Positivity
import Mathlib.Tactic.Ring
import Un7z.Lib.Cursor
import Un7z.Grammar

namespace Un7z

open Cursor (Decodes Starves Local Parses Valid rest)
open Grammar (leBytes uintLimit uintWord)

instance : Cursor BoundedReader UInt8 where
  rest := BoundedReader.remaining
  Valid reader := reader.bytes.length < 2 ^ 64

/-! ### Bytes -/

theorem readBytes_eq_ok {length : Nat} {reader next : BoundedReader} {bytes : Bytes} :
    (readBytes length reader).result = .ok (bytes, next) ↔
      reader.position + length < 2 ^ 64 ∧ reader.position + length ≤ reader.bytes.length ∧
        bytes = reader.remaining.take length ∧ next.bytes = reader.bytes ∧
          next.position = reader.position + length := by
  unfold readBytes
  by_cases hlt : reader.position + length < 2 ^ 64
  · by_cases hle : reader.position + length ≤ reader.bytes.length
    · rcases next with ⟨nextBytes, position, hposition⟩
      simp only [checkedAdd_of_lt hlt, dif_pos hle, Metered.result_pure, Except.ok.injEq,
        Prod.mk.injEq, BoundedReader.mk.injEq]
      constructor
      · rintro ⟨rfl, rfl, rfl⟩
        exact ⟨hlt, hle, rfl, rfl, rfl⟩
      · rintro ⟨-, -, rfl, rfl, rfl⟩
        exact ⟨rfl, rfl, rfl⟩
    · simp only [checkedAdd_of_lt hlt, dif_neg hle, result_formatErr]
      exact ⟨fun h => absurd h (by simp), fun h => absurd h.2.1 hle⟩
  · have hnone : checkedAdd 64 reader.position length = none := if_neg hlt
    simp only [hnone, result_formatErr]
    exact ⟨fun h => absurd h (by simp), fun h => absurd h.1 hlt⟩

/-- A read that is refused leaves no other outcome. -/
theorem result_cases {α : Type} (r : Except Error α) : (∃ a, r = .ok a) ∨ ∃ e, r = .error e := by
  cases r with
  | ok a => exact Or.inl ⟨a, rfl⟩
  | error e => exact Or.inr ⟨e, rfl⟩

theorem decodes_readBytes (word : Bytes) : Decodes (readBytes word.length) word word := by
  intro reader tail hvalid hrest
  have hrest' : reader.remaining = word ++ tail := hrest
  have hlength : reader.position + word.length ≤ reader.bytes.length := by
    have h := congrArg List.length hrest'
    rw [BoundedReader.length_remaining, List.length_append] at h
    have hle := reader.position_le
    omega
  have hlt : reader.bytes.length < 2 ^ 64 := hvalid
  refine ⟨⟨reader.bytes, reader.position + word.length, hlength⟩, ?_, hvalid, ?_⟩
  · exact readBytes_eq_ok.mpr ⟨by omega, hlength, by rw [hrest', List.take_left], rfl, rfl⟩
  · show reader.bytes.drop (reader.position + word.length) = tail
    have hdrop : (reader.bytes.drop reader.position).drop word.length = tail := by
      rw [show reader.bytes.drop reader.position = word ++ tail from hrest', List.drop_left]
    rwa [List.drop_drop] at hdrop

theorem local_readBytes (length : Nat) : Local (readBytes length) := by
  intro reader bytes next hvalid h
  obtain ⟨-, hle, rfl, hbytes, hposition⟩ := readBytes_eq_ok.mp h
  have hremaining : (reader.remaining.take length).length = length := by
    rw [List.length_take, BoundedReader.length_remaining]
    omega
  have hdec := decodes_readBytes (reader.remaining.take length)
  rw [hremaining] at hdec
  refine ⟨show next.bytes.length < 2 ^ 64 from hbytes ▸ hvalid,
    reader.remaining.take length, ?_, hdec, ?_⟩
  · have hnext : next.remaining = reader.remaining.drop length := by
      rw [BoundedReader.remaining, BoundedReader.remaining, hbytes, hposition, List.drop_drop]
    show reader.remaining = reader.remaining.take length ++ next.remaining
    rw [hnext, List.take_append_drop]
  · intro short _ hpre hne
    rcases result_cases (readBytes length short).result with ⟨⟨a, short'⟩, hok⟩ | herr
    · obtain ⟨-, hle', -⟩ := readBytes_eq_ok.mp hok
      have hlen : (rest short : Bytes).length = short.bytes.length - short.position :=
        short.length_remaining
      have heq : rest short = reader.remaining.take length :=
        hpre.eq_of_length_le (by rw [hremaining, hlen]; omega)
      exact absurd heq hne
    · exact herr

theorem decodes_readU8 (byte : UInt8) : Decodes readU8 [byte] byte := by
  unfold readU8
  exact (decodes_readBytes [byte]).bind (w := []) (Decodes.pure byte)

theorem local_readU8 : Local readU8 := by
  refine (local_readBytes 1).bind fun bytes => ?_
  split
  · exact Local.pure _
  · exact Local.lift _

/-! ### Little-endian words -/

@[simp] theorem length_leBytes (width : Nat) : ∀ value, (leBytes width value).length = width := by
  induction width with
  | zero => intro value; rfl
  | succ width ih => intro value; simp [leBytes, ih]

theorem leValue_leBytes (width : Nat) :
    ∀ value, leValue (leBytes width value) = value % 256 ^ width := by
  induction width with
  | zero => intro value; simp [leBytes, leValue, Nat.mod_one]
  | succ width ih =>
      intro value
      have hbyte : (UInt8.ofNat (value % 256)).toNat = value % 256 := by
        simp [UInt8.toNat_ofNat']
      rw [leBytes, leValue, hbyte, ih, Nat.pow_succ']
      exact (Nat.mod_mul).symm

theorem leBytes_leValue (bytes : Bytes) : leBytes bytes.length (leValue bytes) = bytes := by
  induction bytes with
  | nil => rfl
  | cons byte rest ih =>
      have hbyte := byte.toNat_lt
      rw [List.length_cons, leBytes, leValue, show (byte.toNat + 256 * leValue rest) % 256
        = byte.toNat by omega, show (byte.toNat + 256 * leValue rest) / 256 = leValue rest by omega,
        ih, UInt8.ofNat_toNat]

/-- A word of so many bytes holds a value. -/
theorem exists_leBytes {width : Nat} {bytes : Bytes} (h : bytes.length = width) :
    ∃ value < 256 ^ width, bytes = leBytes width value :=
  ⟨leValue bytes, h ▸ leValue_lt bytes, h ▸ (leBytes_leValue bytes).symm⟩

theorem decodes_readU32Le (value : UInt32) :
    Decodes readU32Le (leBytes 4 value.toNat) value := by
  have hvalue : UInt32.ofNat (leValue (leBytes 4 value.toNat)) = value := by
    rw [leValue_leBytes, Nat.mod_eq_of_lt (by exact value.toNat_lt), UInt32.ofNat_toNat]
  have h := (decodes_readBytes (leBytes 4 value.toNat)).bind
    (f := fun bytes => if bytes.length = 4 then
        (pure (UInt32.ofNat (leValue bytes)) : Reads UInt32)
      else liftM (formatErr "truncated little-endian u32" : Work UInt32))
    (by rw [if_pos (length_leBytes 4 _), hvalue]; exact Decodes.pure value)
  rw [List.append_nil, length_leBytes] at h
  exact h

theorem local_readU32Le : Local readU32Le :=
  (local_readBytes 4).bind fun _ => Local.ite (Local.pure _) (Local.lift _)

/-! ### Integers of variable width -/

/-- The high bits fit in what the leading ones leave of the first byte. -/
theorem high_lt {width value : Nat} (hwidth : width ≤ 8) (h : value < uintLimit width) :
    value / 256 ^ width < 2 ^ (7 - width) ∧ (width = 8 → value / 256 ^ width = 0) := by
  rcases Nat.lt_or_eq_of_le hwidth with hlt | rfl
  · refine ⟨?_, fun h8 => absurd h8 (Nat.ne_of_lt hlt)⟩
    rw [uintLimit, if_pos hlt] at h
    have hpow : 2 ^ (7 * width + 7) = 2 ^ (7 - width) * 256 ^ width := by
      rw [show (256 : Nat) = 2 ^ 8 from rfl, ← Nat.pow_mul, ← Nat.pow_add]
      congr 1
      omega
    rw [hpow] at h
    exact Nat.div_lt_of_lt_mul (by rwa [Nat.mul_comm])
  · have hzero : value / 256 ^ 8 = 0 := Nat.div_eq_of_lt h
    exact ⟨by omega, fun _ => hzero⟩

/-- The leading ones are ones: each asks for one more byte. -/
theorem leading_one {width high i : Nat} (hwidth : width ≤ 8) (hi : i < width)
    (hhigh : high < 2 ^ (7 - width)) : (256 - 2 ^ (8 - width) + high) &&& (0x80 >>> i) ≠ 0 := by
  have hall : ∀ w < 9, ∀ i < w, ∀ high < 2 ^ (7 - w),
      (256 - 2 ^ (8 - w) + high) &&& (0x80 >>> i) ≠ 0 := by decide
  exact hall width (by omega) i hi high hhigh

/-- The first zero after them ends the count, and the bits below it are the high bits. -/
theorem leading_zero {width high : Nat} (hwidth : width < 8) (hhigh : high < 2 ^ (7 - width)) :
    (256 - 2 ^ (8 - width) + high) &&& (0x80 >>> width) = 0 ∧
      (256 - 2 ^ (8 - width) + high) &&& (0x80 >>> width - 1) = high := by
  have hall : ∀ w < 8, ∀ high < 2 ^ (7 - w),
      (256 - 2 ^ (8 - w) + high) &&& (0x80 >>> w) = 0 ∧
        (256 - 2 ^ (8 - w) + high) &&& (0x80 >>> w - 1) = high := by decide
  exact hall width hwidth high hhigh

/-- One more byte of the value. -/
theorem or_next_byte (value i : Nat) :
    value % 256 ^ i ||| (value / 256 ^ i % 256) <<< (8 * i) = value % 256 ^ (i + 1) := by
  have hpow : (256 : Nat) ^ i = 2 ^ (8 * i) := by
    rw [Nat.pow_mul]
  have hlt : value % 256 ^ i < 2 ^ (8 * i) := hpow ▸ Nat.mod_lt _ (by positivity)
  rw [Nat.or_comm, ← Nat.shiftLeft_add_eq_or_of_lt hlt, Nat.shiftLeft_eq, Nat.pow_succ,
    Nat.mod_mul, ← hpow]
  ring

/-- The high bits complete the value. -/
theorem or_high (value i : Nat) :
    value % 256 ^ i ||| (value / 256 ^ i) <<< (8 * i) = value := by
  have hpow : (256 : Nat) ^ i = 2 ^ (8 * i) := by
    rw [Nat.pow_mul]
  have hlt : value % 256 ^ i < 2 ^ (8 * i) := hpow ▸ Nat.mod_lt _ (by positivity)
  rw [Nat.or_comm, ← Nat.shiftLeft_add_eq_or_of_lt hlt, Nat.shiftLeft_eq, ← hpow]
  exact Nat.div_add_mod' value (256 ^ i)

/-- The shifts that are left after `i` bytes. -/
def shiftsFrom (i : Nat) : List Nat := (List.range' i (8 - i)).map (8 * ·)

theorem shiftsFrom_of_lt {i : Nat} (h : i < 8) : shiftsFrom i = 8 * i :: shiftsFrom (i + 1) := by
  rw [shiftsFrom, show 8 - i = 8 - (i + 1) + 1 by omega, List.range'_succ, List.map_cons]
  rfl

/--
The loop of `read_7z_uint` with `left` bytes to go.

Induction on `left`: as long as there are bytes to go the mask meets a leading one,
and then either the value is complete or its high bits are in the first byte.
-/
theorem decodes_read7zUintFrom {width value : Nat} (hwidth : width ≤ 8)
    (hvalue : value < uintLimit width) (left : Nat) :
    ∀ i, i + left = width →
      Decodes (read7zUintFrom (256 - 2 ^ (8 - width) + value / 256 ^ width) (shiftsFrom i)
        (0x80 >>> i) (value % 256 ^ i)) (leBytes left (value / 256 ^ i)) value := by
  obtain ⟨hhigh, hfull⟩ := high_lt hwidth hvalue
  induction left with
  | zero =>
      intro i hi
      obtain rfl : i = width := by omega
      rcases Nat.lt_or_eq_of_le hwidth with hlt | rfl
      · obtain ⟨hmask, hlow⟩ := leading_zero hlt hhigh
        have hone : checkedSub (0x80 >>> i) 1 = some (0x80 >>> i - 1) := by
          refine checkedSub_of_le ?_
          have hall : ∀ w < 8, 1 ≤ 0x80 >>> w := by decide
          exact hall i hlt
        rw [shiftsFrom_of_lt hlt, read7zUintFrom, if_pos hmask, hone]
        simp only [hlow, or_high]
        exact Decodes.pure value
      · have hlt : value < 256 ^ 8 := hvalue
        show Decodes (pure (value % 256 ^ 8)) [] value
        rw [Nat.mod_eq_of_lt hlt]
        exact Decodes.pure value
  | succ left ih =>
      intro i hi
      have hmask := leading_one hwidth (show i < width by omega) hhigh
      rw [shiftsFrom_of_lt (by omega), read7zUintFrom, if_neg hmask]
      have hbyte : (UInt8.ofNat (value / 256 ^ i % 256)).toNat = value / 256 ^ i % 256 := by
        simp [UInt8.toNat_ofNat']
      refine (decodes_readU8 _).bind (w := leBytes left (value / 256 ^ i / 256)) ?_
      rw [hbyte, or_next_byte, Nat.div_div_eq_div_mul, ← Nat.pow_succ, ← Nat.shiftRight_add]
      exact ih (i + 1) (by omega)

theorem parses_read7zUint (value : Nat) : Parses read7zUint (Grammar.uint value) value := by
  rintro word ⟨width, hwidth, hvalue, rfl⟩
  obtain ⟨hhigh, hfull⟩ := high_lt hwidth hvalue
  have hfirst : (UInt8.ofNat (256 - 2 ^ (8 - width) + value / 256 ^ width)).toNat
      = 256 - 2 ^ (8 - width) + value / 256 ^ width := by
    have hlt : 256 - 2 ^ (8 - width) + value / 256 ^ width < 256 := by
      have hall : ∀ w < 9, 2 ^ (7 - w) ≤ 2 ^ (8 - w) ∧ 2 ^ (8 - w) ≤ 256 := by decide
      obtain ⟨hle, hle'⟩ := hall width (by omega)
      omega
    rw [UInt8.toNat_ofNat', Nat.mod_eq_of_lt hlt]
  have hloop := decodes_read7zUintFrom hwidth hvalue width 0 (Nat.zero_add _)
  rw [Nat.pow_zero, Nat.div_one, Nat.mod_one] at hloop
  refine (decodes_readU8 _).bind (w := leBytes width value) ?_
  rw [hfirst]
  exact hloop

theorem local_read7zUintFrom (first : Nat) (shifts : List Nat) :
    ∀ mask value, Local (read7zUintFrom first shifts mask value) := by
  induction shifts with
  | nil => intro mask value; exact Local.pure value
  | cons shift shifts ih =>
      intro mask value
      rw [read7zUintFrom]
      refine Local.ite ?_ (local_readU8.bind fun byte => ih _ _)
      split
      · exact Local.pure _
      · exact Local.lift _

theorem local_read7zUint : Local read7zUint :=
  local_readU8.bind fun first => local_read7zUintFrom first.toNat _ _ _

/-- The leading ones of a byte, and the bits below the first zero. -/
theorem exists_leading_ones (first : UInt8) : ∃ width ≤ 8, ∃ high < 2 ^ (7 - width),
    first.toNat = 256 - 2 ^ (8 - width) + high := by
  have hall : ∀ b < 256, ∃ width < 9, ∃ high < 2 ^ (7 - width), b = 256 - 2 ^ (8 - width) + high := by
    decide +kernel
  obtain ⟨width, hwidth, high, hhigh, hfirst⟩ := hall first.toNat first.toNat_lt
  exact ⟨width, Nat.le_of_lt_succ hwidth, high, hhigh, hfirst⟩

theorem leBytes_add_mul (width high : Nat) : ∀ low,
    leBytes width (low + high * 256 ^ width) = leBytes width low := by
  induction width with
  | zero => intro low; rfl
  | succ width ih =>
      intro low
      have hsum : low + high * 256 ^ (width + 1) = low + 256 * (high * 256 ^ width) := by
        rw [Nat.pow_succ, ← Nat.mul_assoc, Nat.mul_comm 256]
      rw [leBytes, leBytes, hsum, Nat.add_mul_mod_self_left, Nat.add_mul_div_left _ _ (by decide), ih]

theorem uintLimit_le {width : Nat} (hwidth : width ≤ 8) : uintLimit width ≤ 2 ^ 64 := by
  unfold uintLimit
  split
  · exact Nat.pow_le_pow_right (by decide) (by omega)
  · exact Nat.le_refl _

/-- A first byte says how many bytes follow, and with any that many it is a word for a value. -/
theorem exists_uint (first : UInt8) : ∃ width ≤ 8, ∀ body : Bytes, body.length = width →
    ∃ value < 2 ^ 64, first :: body ∈ Grammar.uint value := by
  obtain ⟨width, hwidth, high, hhigh, hfirst⟩ := exists_leading_ones first
  refine ⟨width, hwidth, fun body hbody => ?_⟩
  have hlow : leValue body < 256 ^ width := hbody ▸ leValue_lt body
  have hpos : 0 < 256 ^ width := Nat.pow_pos (by decide)
  have hdiv : (leValue body + high * 256 ^ width) / 256 ^ width = high := by
    rw [Nat.add_mul_div_right _ _ hpos, Nat.div_eq_of_lt hlow, Nat.zero_add]
  have hlimit : leValue body + high * 256 ^ width < uintLimit width := by
    have hle : (high + 1) * 256 ^ width ≤ 2 ^ (7 - width) * 256 ^ width :=
      Nat.mul_le_mul_right _ hhigh
    rw [Nat.succ_mul] at hle
    rcases Nat.lt_or_eq_of_le hwidth with hlt | rfl
    · have hpow : 2 ^ (7 - width) * 256 ^ width = 2 ^ (7 * width + 7) := by
        rw [show (256 : Nat) = 2 ^ 8 from rfl, ← Nat.pow_mul, ← Nat.pow_add]
        congr 1
        omega
      rw [uintLimit, if_pos hlt]
      omega
    · have hzero : high = 0 := Nat.lt_one_iff.mp hhigh
      rw [hzero, Nat.zero_mul, Nat.add_zero]
      exact hlow
  refine ⟨_, Nat.lt_of_lt_of_le hlimit (uintLimit_le hwidth), width, hwidth, hlimit, ?_⟩
  rw [uintWord, hdiv, ← hfirst, UInt8.ofNat_toNat, leBytes_add_mul]
  exact congrArg (first :: ·) (hbody ▸ leBytes_leValue body).symm

/-- Bytes begin with a word for a value, or are cut off from one. -/
theorem uint_or_cut (bytes : Bytes) :
    (∃ value < 2 ^ 64, ∃ word ∈ Grammar.uint value, ∃ tail, bytes = word ++ tail) ∨
      ∃ value, ∃ word ∈ Grammar.uint value, bytes <+: word ∧ bytes ≠ word := by
  cases bytes with
  | nil =>
      obtain ⟨width, -, hword⟩ := exists_uint 0
      obtain ⟨value, -, hmem⟩ := hword (List.replicate width 0) List.length_replicate
      exact Or.inr ⟨value, _, hmem, List.nil_prefix, List.cons_ne_nil _ _ ∘ Eq.symm⟩
  | cons first bytes =>
      obtain ⟨width, -, hword⟩ := exists_uint first
      by_cases hlong : width ≤ bytes.length
      · obtain ⟨value, hvalue, hmem⟩ := hword (bytes.take width) (List.length_take_of_le hlong)
        refine Or.inl ⟨value, hvalue, _, hmem, bytes.drop width, ?_⟩
        rw [List.cons_append, List.take_append_drop]
      · have hbody : (bytes ++ List.replicate (width - bytes.length) 0).length = width := by
          rw [List.length_append, List.length_replicate]
          omega
        obtain ⟨value, -, hmem⟩ := hword _ hbody
        refine Or.inr ⟨value, _, hmem, ?_, fun heq => ?_⟩
        · exact ⟨List.replicate (width - bytes.length) 0, rfl⟩
        · have hlength := congrArg List.length (List.cons.inj heq).2
          rw [hbody] at hlength
          omega

/-- Where less than a word is left the reader fails. -/
theorem starves_read7zUint {value : Nat} {word : Bytes} (hword : word ∈ Grammar.uint value)
    (hlength : word.length < 2 ^ 64) : Starves read7zUint word := by
  have hvalid : Valid (BoundedReader.new word) := hlength
  obtain ⟨reader, hrun, -, hrest⟩ :=
    parses_read7zUint value word hword (BoundedReader.new word) [] hvalid (List.append_nil word).symm
  exact (local_read7zUint.complete hvalid hrun hrest).1

theorem length_uint_le {value : Nat} {word : Bytes} (hword : word ∈ Grammar.uint value) :
    word.length ≤ 9 := by
  obtain ⟨width, hwidth, -, rfl⟩ := hword
  rw [uintWord, List.length_cons, length_leBytes]
  omega

/-- Every 64-bit value has a word of each width that holds it; the reader reads each of them and
what follows is left, it fails on what is cut off, and it accepts nothing else. -/
theorem read7zUint_words :
    (∀ value < 2 ^ 64, ∃ word, word ∈ Grammar.uint value) ∧
    (∀ value, ∀ word ∈ Grammar.uint value, ∀ tail, ∀ reader : BoundedReader, reader.bytes.length < 2 ^ 64 →
      reader.remaining = word ++ tail → ∃ next, (read7zUint reader).result = .ok (value, next) ∧
        next.remaining = tail) ∧
    (∀ value, ∀ word ∈ Grammar.uint value, ∀ reader : BoundedReader, reader.bytes.length < 2 ^ 64 →
      reader.remaining <+: word → reader.remaining ≠ word →
        ∃ error, (read7zUint reader).result = .error error) ∧
    ∀ reader : BoundedReader, reader.bytes.length < 2 ^ 64 → ∀ value next,
      (read7zUint reader).result = .ok (value, next) → value < 2 ^ 64 ∧
        ∃ word ∈ Grammar.uint value, reader.remaining = word ++ next.remaining := by
  have hreads : ∀ value, ∀ word ∈ Grammar.uint value, ∀ tail, ∀ reader : BoundedReader,
      reader.bytes.length < 2 ^ 64 → reader.remaining = word ++ tail →
      ∃ next, (read7zUint reader).result = .ok (value, next) ∧ next.remaining = tail := by
    intro value word hword tail reader hlength hremaining
    obtain ⟨next, hrun, -, hnext⟩ := parses_read7zUint value word hword reader tail hlength hremaining
    exact ⟨next, hrun, hnext⟩
  have hcut : ∀ value, ∀ word ∈ Grammar.uint value, ∀ reader : BoundedReader,
      reader.bytes.length < 2 ^ 64 → reader.remaining <+: word → reader.remaining ≠ word →
      ∃ error, (read7zUint reader).result = .error error := by
    intro value word hword reader hlength hpre hne
    have hshort := length_uint_le hword
    exact starves_read7zUint hword (by omega) reader hlength hpre hne
  refine ⟨fun value hvalue => ⟨uintWord 8 value, 8, Nat.le_refl _, hvalue, rfl⟩, hreads, hcut,
    fun reader hlength value next hrun => ?_⟩
  rcases uint_or_cut reader.remaining with ⟨value', hvalue, word, hword, tail, hbytes⟩ |
    ⟨value', word, hword, hpre, hne⟩
  · obtain ⟨next', hrun', hnext⟩ := hreads value' word hword tail reader hlength hbytes
    obtain ⟨rfl, rfl⟩ := Prod.mk.inj (Except.ok.inj (hrun.symm.trans hrun'))
    exact ⟨hvalue, word, hword, by rw [hnext]; exact hbytes⟩
  · obtain ⟨error, herror⟩ := hcut value' word hword reader hlength hpre hne
    exact absurd (hrun.symm.trans herror) (by simp)

/-- A check that is passed. -/
theorem admitted_eq_ok {α : Type} {c : Prop} [Decidable c] {detail : String} {p : Reads α}
    {reader next : BoundedReader} {a : α} :
    ((if c then liftM (formatErr detail : Work α) else p : Reads α) reader).result
      = .ok (a, next) ↔ ¬ c ∧ (p reader).result = .ok (a, next) := by
  by_cases h : c
  · rw [if_pos h]
    exact iff_of_false (fun hc => absurd (Cursor.lift_eq_ok.mp hc).1 (by simp)) fun hc => hc.1 h
  · rw [if_neg h]
    exact ⟨fun hc => ⟨h, hc⟩, fun hc => hc.2⟩

end Un7z
