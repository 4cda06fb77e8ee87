/-
Canonical prefix codes.

A canonical code is given by the lengths of its codewords alone: the codewords of one
length are consecutive numbers, in the order of their symbols, and they start where twice
the end of the shorter ones is.  A length of zero means that the symbol has no codeword.

A decoder reads a codeword bit by bit and asks after each bit whether the number it has so
far is below the end of the codewords of that length.  `end_le_prefix` says that it is not
while there are bits to come, and `number_lt_end` that it is when there are none.  What it
has then is the place of the symbol in the order of the codewords, places are told apart
(`index_injective`), and each is that of a symbol (`exists_index`).

For the same reason no codeword begins with another (`codeword_prefix_free`).  The strings
of one length that begin with a codeword are the numbers below the end of that length
(`taken_eq`), so that a code either leaves room or is oversubscribed.
-/
import Mathlib.Algebra.GroupWithZero.Nat
import Un7z.Lib.BitString

namespace CanonicalCode

open BitString (msb)

variable (lengths : List Nat)

/-- The length of the codeword of a symbol. -/
def length (symbol : Nat) : Nat := lengths.getD symbol 0

/-- How many codewords have this length. -/
def count (length : Nat) : Nat := if length = 0 then 0 else lengths.count length

/-- The first codeword of a length, as a number. -/
def first : Nat → Nat
  | 0 => 0
  | length + 1 => 2 * (first length + count lengths length)

/-- How many codewords are shorter. -/
def below : Nat → Nat
  | 0 => 0
  | length + 1 => below length + count lengths length

/-- How many symbols of the same length stand in front of a symbol. -/
def rank (symbol : Nat) : Nat := (lengths.take symbol).count (length lengths symbol)

/-- The codeword of a symbol, as a number. -/
def number (symbol : Nat) : Nat := first lengths (length lengths symbol) + rank lengths symbol

def codeword (symbol : Nat) : List Bool := msb (length lengths symbol) (number lengths symbol)

/-- The place of a symbol in the order of the codewords. -/
def index (symbol : Nat) : Nat := below lengths (length lengths symbol) + rank lengths symbol

/-- The codewords up to a length are not more than there can be. -/
def Fits (limit : Nat) : Prop := ∀ length ≤ limit, first lengths length + count lengths length ≤ 2 ^ length

variable {lengths}

theorem getElem?_of_length_ne_zero {symbol : Nat} (h : length lengths symbol ≠ 0) :
    symbol < lengths.length ∧ lengths[symbol]? = some (length lengths symbol) := by
  by_cases hlt : symbol < lengths.length
  · refine ⟨hlt, ?_⟩
    rw [length, List.getD_eq_getElem?_getD, List.getElem?_eq_getElem hlt, Option.getD_some]
  · rw [length, List.getD_eq_getElem?_getD, List.getElem?_eq_none (Nat.not_lt.mp hlt)] at h
    exact absurd rfl h

theorem count_cons (head length : Nat) (rest : List Nat) : count (head :: rest) length
    = (if head = length ∧ head ≠ 0 then 1 else 0) + count rest length := by
  unfold count
  by_cases hzero : length = 0
  · rw [if_pos hzero, if_pos hzero, if_neg (by omega)]
  · rw [if_neg hzero, if_neg hzero, List.count_cons]
    by_cases hhead : head = length
    · rw [if_pos (by simpa using hhead), if_pos ⟨hhead, by omega⟩, Nat.add_comm]
    · rw [if_neg (by simpa using hhead), if_neg (fun h => hhead h.1), Nat.zero_add]
      rfl

theorem count_nil (length : Nat) : count [] length = 0 := by
  unfold count
  split <;> rfl

theorem count_append (a b : List Nat) (length : Nat) :
    count (a ++ b) length = count a length + count b length := by
  unfold count
  split
  · rfl
  · exact List.count_append

/-- A symbol counts for those of its length that come behind it. -/
theorem rank_lt_count_take {symbol stop : Nat} (h : length lengths symbol ≠ 0)
    (hstop : symbol < stop) :
    rank lengths symbol < (lengths.take stop).count (length lengths symbol) := by
  obtain ⟨hlt, hget⟩ := getElem?_of_length_ne_zero h
  have hnext : lengths.take (symbol + 1) = lengths.take symbol ++ [length lengths symbol] := by
    rw [List.take_add_one, hget]
    rfl
  have hprefix : lengths.take (symbol + 1) <+: lengths.take stop :=
    List.take_prefix_take_left (by omega)
  have hle := hprefix.sublist.count_le (length lengths symbol)
  rw [hnext, List.count_append, List.count_singleton_self] at hle
  exact hle

theorem rank_lt_count {symbol : Nat} (h : length lengths symbol ≠ 0) :
    rank lengths symbol < count lengths (length lengths symbol) := by
  obtain ⟨hlt, -⟩ := getElem?_of_length_ne_zero h
  rw [count, if_neg h]
  have hrank := rank_lt_count_take h hlt
  rwa [List.take_length] at hrank

theorem below_mono {a b : Nat} (h : a ≤ b) : below lengths a ≤ below lengths b := by
  induction h with
  | refl => exact Nat.le_refl _
  | step _ ih => exact Nat.le_trans ih (Nat.le_add_right _ _)

/-- The codewords of a length, and the longer ones. -/
theorem countP_le (length : Nat) : lengths.countP (length ≤ ·)
    = lengths.count length + lengths.countP (length + 1 ≤ ·) := by
  induction lengths with
  | nil => rfl
  | cons head rest ih =>
      rw [List.countP_cons, List.countP_cons, List.count_cons, ih]
      simp only [decide_eq_true_eq, beq_iff_eq]
      by_cases hle : length ≤ head
      · by_cases heq : head = length
        · rw [if_pos hle, if_pos heq, if_neg (by omega)]
          omega
        · rw [if_pos hle, if_neg heq, if_pos (by omega)]
          omega
      · rw [if_neg hle, if_neg (by omega), if_neg (by omega)]
        omega

/-- There are not more codewords than symbols. -/
theorem below_le_length (limit : Nat) : below lengths limit ≤ lengths.length := by
  suffices h : below lengths limit + lengths.countP (limit ≤ ·) ≤ lengths.length by omega
  induction limit with
  | zero =>
      rw [below, Nat.zero_add]
      exact List.countP_le_length
  | succ limit ih =>
      rw [countP_le] at ih
      rw [below, count]
      split
      · omega
      · omega

/-- A place is below the end of its length. -/
theorem index_lt {symbol limit : Nat} (h : length lengths symbol ≠ 0)
    (hlimit : length lengths symbol < limit) : index lengths symbol < below lengths limit := by
  have hrank := rank_lt_count h
  have hnext : below lengths (length lengths symbol + 1) ≤ below lengths limit := below_mono hlimit
  rw [below] at hnext
  unfold index
  omega

theorem index_injective {a b : Nat} (ha : length lengths a ≠ 0) (hb : length lengths b ≠ 0)
    (h : index lengths a = index lengths b) : a = b := by
  rcases Nat.lt_trichotomy (length lengths a) (length lengths b) with hlt | heq | hlt
  · have hindex := index_lt ha hlt
    unfold index at h hindex
    omega
  · rcases Nat.lt_trichotomy a b with hab | rfl | hab
    · have hrank := rank_lt_count_take ha hab
      unfold index rank at h
      rw [rank, heq] at hrank
      rw [heq] at h
      omega
    · rfl
    · have hrank := rank_lt_count_take hb hab
      unfold index rank at h
      rw [rank, ← heq] at hrank
      rw [heq] at h
      rw [← heq] at h
      omega
  · have hindex := index_lt hb hlt
    unfold index at h hindex
    omega

/-- The codewords of a length end where those of any greater length have not begun. -/
theorem end_mul_le_first {short long : Nat} (h : short < long) :
    (first lengths short + count lengths short) * 2 ^ (long - short) ≤ first lengths long := by
  induction h with
  | refl =>
      rw [show short.succ - short = 1 by omega, Nat.pow_one, Nat.mul_comm]
      exact Nat.le_refl _
  | @step long hlong ih =>
      have hlong : short + 1 ≤ long := hlong
      have hpow : 2 ^ (long + 1 - short) = 2 ^ (long - short) * 2 := by
        rw [← Nat.pow_succ]
        congr 1
        omega
      rw [hpow, ← Nat.mul_assoc, first]
      omega

/-- While there are bits to come, what has been read is no codeword. -/
theorem end_le_prefix {symbol short : Nat} (h : short < length lengths symbol) :
    first lengths short + count lengths short
      ≤ number lengths symbol / 2 ^ (length lengths symbol - short) := by
  rw [Nat.le_div_iff_mul_le (Nat.two_pow_pos _)]
  exact Nat.le_trans (end_mul_le_first h) (Nat.le_add_right _ _)

theorem number_lt_end {symbol : Nat} (h : length lengths symbol ≠ 0) :
    number lengths symbol
      < first lengths (length lengths symbol) + count lengths (length lengths symbol) :=
  Nat.add_lt_add_left (rank_lt_count h) _

theorem number_lt {symbol limit : Nat} (hfits : Fits lengths limit)
    (h : length lengths symbol ≠ 0) (hle : length lengths symbol ≤ limit) :
    number lengths symbol < 2 ^ length lengths symbol :=
  Nat.lt_of_lt_of_le (number_lt_end h) (hfits _ hle)

/-- The number that a prefix stands for, with its last bit. -/
theorem prefix_succ (number k : Nat) :
    number / 2 ^ k = number / 2 ^ (k + 1) * 2 + number / 2 ^ k % 2 := by
  rw [Nat.pow_succ, ← Nat.div_div_eq_div_mul]
  omega

/-- The copies of a value, counted from the front. -/
theorem exists_rank {value : Nat} {list : List Nat} : ∀ r < list.count value,
    ∃ place, list[place]? = some value ∧ (list.take place).count value = r := by
  induction list with
  | nil =>
      intro r hr
      exact absurd hr (Nat.not_lt_zero r)
  | cons head rest ih =>
      intro r hr
      rw [List.count_cons] at hr
      by_cases hhead : head = value
      · cases r with
        | zero => exact ⟨0, congrArg some hhead, rfl⟩
        | succ r =>
            rw [if_pos (beq_iff_eq.mpr hhead)] at hr
            obtain ⟨place, hplace, hrank⟩ := ih r (Nat.lt_of_succ_lt_succ hr)
            refine ⟨place + 1, hplace, ?_⟩
            rw [List.take_succ_cons, List.count_cons, hrank, if_pos (beq_iff_eq.mpr hhead)]
      · rw [if_neg (mt beq_iff_eq.mp hhead), Nat.add_zero] at hr
        obtain ⟨place, hplace, hrank⟩ := ih r hr
        refine ⟨place + 1, hplace, ?_⟩
        rw [List.take_succ_cons, List.count_cons, hrank, if_neg (mt beq_iff_eq.mp hhead),
          Nat.add_zero]

/-- Every place of a length is that of a symbol. -/
theorem exists_index {limit offset : Nat} (h : offset < count lengths limit) :
    ∃ symbol, length lengths symbol = limit ∧ limit ≠ 0 ∧
      index lengths symbol = below lengths limit + offset := by
  have hlimit : limit ≠ 0 := by
    rintro rfl
    exact Nat.not_lt_zero offset h
  rw [count, if_neg hlimit] at h
  obtain ⟨symbol, hget, hrank⟩ := exists_rank offset h
  have hlength : length lengths symbol = limit := by
    rw [length, List.getD_eq_getElem?_getD, hget, Option.getD_some]
  refine ⟨symbol, hlength, hlimit, ?_⟩
  rw [index, rank, hlength, hrank]

/-! ### The code is free of prefixes -/

/-- A codeword begins with another one only where it is that one. -/
theorem codeword_prefix_free {a b limit : Nat} (hfits : Fits lengths limit)
    (hlimit : ∀ symbol, length lengths symbol ≤ limit) (ha : length lengths a ≠ 0)
    (hb : length lengths b ≠ 0) (h : codeword lengths a <+: codeword lengths b) : a = b := by
  have hna := number_lt hfits ha (hlimit a)
  have hnb := number_lt hfits hb (hlimit b)
  obtain ⟨more, hmore⟩ : ∃ more, length lengths b = length lengths a + more := by
    have hle := h.length_le
    rw [codeword, codeword, BitString.length_msb, BitString.length_msb] at hle
    exact Nat.exists_eq_add_of_le hle
  have hnumber : number lengths a = number lengths b / 2 ^ more := by
    obtain ⟨tail, htail⟩ := h
    rw [codeword, codeword, hmore, BitString.msb_add] at htail
    refine BitString.msb_injective hna ?_ (List.append_inj htail (by simp)).1
    rw [hmore, Nat.pow_add, Nat.mul_comm] at hnb
    exact Nat.div_lt_of_lt_mul hnb
  rcases Nat.eq_zero_or_pos more with rfl | hpos
  · -- of one length: the numbers are the same, and so are the places
    rw [Nat.pow_zero, Nat.div_one, number, number, hmore, Nat.add_zero] at hnumber
    refine index_injective ha hb ?_
    rw [index, index, hmore, Nat.add_zero, Nat.add_left_cancel hnumber]
  · have hprefix := end_le_prefix (show length lengths a < length lengths b by omega)
    rw [hmore, Nat.add_sub_cancel_left, ← hnumber] at hprefix
    exact absurd (number_lt_end ha) (Nat.not_lt.mpr hprefix)

/-! ### The room that codewords take -/

/-- How many strings of so many bits begin with a codeword. -/
def taken (lengths : List Nat) (limit : Nat) : Nat :=
  (lengths.map fun length => if length ≠ 0 ∧ length ≤ limit then 2 ^ (limit - length) else 0).sum

/-- The codewords are more than there can be. -/
def Oversubscribed (lengths : List Nat) : Prop := ∃ limit, 2 ^ limit < taken lengths limit

/-- One more bit doubles what is taken, and codewords of that length come in addition. -/
theorem taken_succ (lengths : List Nat) (limit : Nat) :
    taken lengths (limit + 1) = 2 * taken lengths limit + count lengths (limit + 1) := by
  induction lengths with
  | nil => rw [count_nil]; rfl
  | cons head rest ih =>
      unfold taken at ih ⊢
      rw [List.map_cons, List.map_cons, List.sum_cons, List.sum_cons, ih, count_cons]
      by_cases hzero : head = 0
      · rw [if_neg (fun h => h.1 hzero), if_neg (fun h => h.1 hzero), if_neg (fun h => h.2 hzero)]
        omega
      · by_cases hle : head ≤ limit
        · have hpow : 2 ^ (limit + 1 - head) = 2 * 2 ^ (limit - head) := by
            rw [Nat.succ_sub hle, Nat.pow_succ, Nat.mul_comm]
          rw [if_pos ⟨hzero, by omega⟩, if_pos ⟨hzero, hle⟩, if_neg (by omega), hpow]
          omega
        · by_cases hlast : head = limit + 1
          · rw [if_pos ⟨hzero, by omega⟩, if_neg (fun h => hle h.2), if_pos ⟨hlast, hzero⟩, hlast,
              Nat.sub_self, Nat.pow_zero]
            omega
          · rw [if_neg (by omega), if_neg (fun h => hle h.2), if_neg (fun h => hlast h.1)]
            omega

/-- What is taken are the numbers below the end of a length. -/
theorem taken_eq (lengths : List Nat) (limit : Nat) :
    taken lengths limit = first lengths limit + count lengths limit := by
  induction limit with
  | zero =>
      have hnone : taken lengths 0 = 0 := by
        refine List.sum_eq_zero_iff_forall_eq_nat.mpr fun value hvalue => ?_
        obtain ⟨length, -, rfl⟩ := List.mem_map.mp hvalue
        exact if_neg (by omega)
      rw [hnone]
      rfl
  | succ limit ih => rw [taken_succ, ih, first]

/-- A code that leaves room up to its longest codewords leaves room for all. -/
theorem not_oversubscribed {limit : Nat} (hfits : Fits lengths limit)
    (hlimit : ∀ length ∈ lengths, length ≤ limit) : ¬ Oversubscribed lengths := by
  have hall (longer : Nat) : taken lengths (limit + longer) ≤ 2 ^ (limit + longer) := by
    induction longer with
    | zero => exact taken_eq lengths limit ▸ hfits limit (Nat.le_refl _)
    | succ longer ih =>
        have hnone : count lengths (limit + longer + 1) = 0 := by
          rw [count, if_neg (Nat.succ_ne_zero _), List.count_eq_zero]
          intro hmem
          have hle := hlimit _ hmem
          omega
        rw [← Nat.add_assoc, taken_succ, hnone, Nat.pow_succ]
        omega
  rintro ⟨short, hshort⟩
  rcases Nat.le_total short limit with hle | hle
  · rw [taken_eq] at hshort
    exact absurd hshort (Nat.not_lt.mpr (hfits short hle))
  · obtain ⟨longer, rfl⟩ := Nat.exists_eq_add_of_le hle
    exact absurd hshort (Nat.not_lt.mpr (hall longer))

end CanonicalCode
