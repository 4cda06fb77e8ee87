/-
Words in a memory of bytes.

A memory is a list of bytes, and a word of `n` bytes at an address is the number they are
the digits of, the lowest first.  A word that is written is read back, and nothing changes
apart from its own bytes; every statement about what a program leaves alone comes down to
`get_putWord_of_apart`.
-/
import Mathlib.Algebra.Group.Nat.Defs
import Mathlib.Data.List.Basic

namespace ByteMemory

variable {m m' : List UInt8} {n k a b x value : Nat}

/-- The byte at an address. -/
def get (m : List UInt8) (x : Nat) : UInt8 := m[x]?.getD 0

theorem getElem?_eq (h : x < m.length) : m[x]? = some (get m x) := by
  rw [get, List.getElem?_eq_getElem h, Option.getD_some]

theorem get_set (h : a < m.length) (byte : UInt8) :
    get (m.set a byte) x = if x = a then byte else get m x := by
  by_cases hx : x = a
  · rw [if_pos hx, hx, get, List.getElem?_set_self h, Option.getD_some]
  · rw [if_neg hx, get, List.getElem?_set_ne (Ne.symm hx), get]

/-- The word of `n` bytes at an address. -/
def word : Nat → List UInt8 → Nat → Nat
  | 0, _, _ => 0
  | n + 1, m, a => (get m a).toNat + 256 * word n m (a + 1)

/-- The memory with a word of `n` bytes written. -/
def putWord : Nat → List UInt8 → Nat → Nat → List UInt8
  | 0, m, _, _ => m
  | n + 1, m, a, value => putWord n (m.set a (UInt8.ofNat (value % 256))) (a + 1) (value / 256)

theorem word_lt (n : Nat) (m : List UInt8) (a : Nat) : word n m a < 256 ^ n := by
  induction n generalizing a with
  | zero => exact Nat.one_pos
  | succ n ih =>
      have hbyte : (get m a).toNat < 256 := UInt8.toNat_lt _
      have hrest := ih (a + 1)
      rw [word, Nat.pow_succ]
      omega

@[simp] theorem length_putWord : (putWord n m a value).length = m.length := by
  induction n generalizing m a value with
  | zero => rfl
  | succ n ih => rw [putWord, ih, List.length_set]

/-- A word is what its bytes are, wherever they are. -/
theorem word_moved (h : ∀ i < n, get m' (b + i) = get m (a + i)) : word n m' b = word n m a := by
  induction n generalizing a b with
  | zero => rfl
  | succ n ih =>
      have hfirst : get m' b = get m a := h 0 (Nat.succ_pos n)
      have hrest : word n m' (b + 1) = word n m (a + 1) := ih fun i hi => by
        rw [Nat.add_assoc, Nat.add_assoc]
        exact h (1 + i) (by omega)
      rw [word, word, hfirst, hrest]

theorem word_congr (h : ∀ x, a ≤ x → x < a + n → get m' x = get m x) :
    word n m' a = word n m a := word_moved fun i hi => h (a + i) (Nat.le_add_right _ _) (by omega)

/-- A word of bytes that are zero. -/
theorem word_eq_zero (h : ∀ x, a ≤ x → x < a + n → get m x = 0) : word n m a = 0 := by
  induction n generalizing a with
  | zero => rfl
  | succ n ih =>
      rw [word, h a (Nat.le_refl _) (by omega), ih fun x hle hlt => h x (by omega) (by omega),
        UInt8.toNat_zero]

theorem get_putWord_of_apart (hfit : a + n ≤ m.length) (h : x < a ∨ a + n ≤ x) :
    get (putWord n m a value) x = get m x := by
  induction n generalizing m a value with
  | zero => rfl
  | succ n ih =>
      rw [putWord, ih (by rw [List.length_set]; omega) (by omega), get_set (by omega),
        if_neg (by omega)]

theorem word_putWord_of_apart (hfit : a + n ≤ m.length) (h : b + k ≤ a ∨ a + n ≤ b) :
    word k (putWord n m a value) b = word k m b :=
  word_congr fun _ hle hlt => get_putWord_of_apart hfit (by omega)

theorem word_putWord (hfit : a + n ≤ m.length) (hvalue : value < 256 ^ n) :
    word n (putWord n m a value) a = value := by
  induction n generalizing m a value with
  | zero =>
      rw [Nat.pow_zero] at hvalue
      exact (Nat.lt_one_iff.mp hvalue).symm
  | succ n ih =>
      have hdigit : value % 256 < 256 := Nat.mod_lt _ (by decide)
      have hrest : value / 256 < 256 ^ n := by
        rw [Nat.pow_succ] at hvalue
        omega
      have hfirst : get (putWord n (m.set a (UInt8.ofNat (value % 256))) (a + 1) (value / 256)) a
          = UInt8.ofNat (value % 256) := by
        rw [get_putWord_of_apart (by rw [List.length_set]; omega) (by omega), get_set (by omega),
          if_pos rfl]
      rw [putWord, word, hfirst, ih (by rw [List.length_set]; omega) hrest, UInt8.toNat_ofNat']
      omega

end ByteMemory
