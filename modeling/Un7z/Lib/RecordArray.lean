/-
Arrays of records in a memory of bytes.

A record takes a fixed number of bytes, and what it is depends on them alone (`RecordLayout`).
`Holds m a records` says that the records lie one behind the other from an address on.  A
change of the memory that stays `Within` some bytes leaves every record that lies elsewhere,
so an array is followed through a program by saying which of its records a step replaces.
-/
import Un7z.Lib.ByteMemory

namespace ByteMemory

variable {ρ : Type} {m m' m'' : List UInt8} {a b n k : Nat}

/-- Nothing outside of some bytes has changed. -/
structure Within (a n : Nat) (m m' : List UInt8) : Prop where
  length : m'.length = m.length
  same : ∀ x, x < a ∨ a + n ≤ x → get m' x = get m x

namespace Within

theorem refl (a n : Nat) (m : List UInt8) : Within a n m m := ⟨rfl, fun _ _ => rfl⟩

theorem trans (h : Within a n m m') (h' : Within a n m' m'') : Within a n m m'' :=
  ⟨h'.length.trans h.length, fun x hx => (h'.same x hx).trans (h.same x hx)⟩

theorem mono (h : Within a n m m') (hle : b ≤ a) (hend : a + n ≤ b + k) : Within b k m m' :=
  ⟨h.length, fun x hx => h.same x (by omega)⟩

theorem set (h : a < m.length) (byte : UInt8) : Within a 1 m (m.set a byte) := by
  refine ⟨List.length_set, fun x hx => ?_⟩
  rw [get_set h, if_neg (by omega)]

theorem putWord (h : a + n ≤ m.length) (value : Nat) : Within a n m (putWord n m a value) :=
  ⟨length_putWord, fun _ hx => get_putWord_of_apart h hx⟩

/-- A word that lies elsewhere. -/
theorem word_eq (h : Within a n m m') (hapart : b + k ≤ a ∨ a + n ≤ b) : word k m' b = word k m b :=
  word_congr fun x hle hlt => h.same x (by omega)

end Within

/-- A kind of record, and how it is read. -/
structure RecordLayout (ρ : Type) where
  size : Nat
  read : List UInt8 → Nat → ρ
  moved : ∀ m m' a b, (∀ i < size, get m' (b + i) = get m (a + i)) → read m' b = read m a

/-- The records lie one behind the other. -/
def Holds (layout : RecordLayout ρ) (m : List UInt8) : Nat → List ρ → Prop
  | _, [] => True
  | a, record :: rest => layout.read m a = record ∧ Holds layout m (a + layout.size) rest

variable {layout : RecordLayout ρ} {records left right : List ρ} {record record' : ρ}

theorem holds_append : Holds layout m a (left ++ right) ↔
    Holds layout m a left ∧ Holds layout m (a + layout.size * left.length) right := by
  induction left generalizing a with
  | nil => exact (iff_of_eq (true_and _)).symm
  | cons record left ih =>
      have hbehind : a + layout.size + layout.size * left.length
          = a + layout.size * (record :: left).length := by
        rw [List.length_cons, Nat.mul_succ]
        omega
      rw [List.cons_append, Holds, Holds, ih, hbehind, and_assoc]

/-- The record behind some others. -/
theorem Holds.read_eq (h : Holds layout m a (left ++ record :: right)) :
    layout.read m (a + layout.size * left.length) = record := (holds_append.mp h).2.1

/-- An array is what its bytes are, wherever it lies. -/
theorem Holds.moved (h : Holds layout m a records)
    (hsame : ∀ i < layout.size * records.length, get m' (b + i) = get m (a + i)) :
    Holds layout m' b records := by
  induction records generalizing a b with
  | nil => trivial
  | cons record rest ih =>
      rw [List.length_cons, Nat.mul_succ] at hsame
      refine ⟨(layout.moved m m' a b fun i hi => hsame i (by omega)).trans h.1, ih h.2 fun i hi => ?_⟩
      rw [Nat.add_assoc, Nat.add_assoc]
      exact hsame (layout.size + i) (by omega)

theorem Holds.of_within (h : Holds layout m a records) (hwithin : Within b n m m')
    (hapart : a + layout.size * records.length ≤ b ∨ b + n ≤ a) : Holds layout m' a records :=
  h.moved fun i hi => hwithin.same (a + i) (by omega)

/-- Some records are replaced by as many others. -/
theorem Holds.replace {old new : List ρ} (h : Holds layout m a (left ++ (old ++ right)))
    (hwithin : Within (a + layout.size * left.length) (layout.size * old.length) m m')
    (hlength : new.length = old.length)
    (hnew : Holds layout m' (a + layout.size * left.length) new) :
    Holds layout m' a (left ++ (new ++ right)) := by
  obtain ⟨hleft, hrest⟩ := holds_append.mp h
  obtain ⟨-, hright⟩ := holds_append.mp hrest
  refine holds_append.mpr ⟨hleft.of_within hwithin (Or.inl (Nat.le_refl _)),
    holds_append.mpr ⟨hnew, ?_⟩⟩
  rw [hlength]
  exact hright.of_within hwithin (Or.inr (Nat.le_refl _))

/-- One record is. -/
theorem Holds.set (h : Holds layout m a (left ++ record :: right))
    (hwithin : Within (a + layout.size * left.length) layout.size m m')
    (hrecord : layout.read m' (a + layout.size * left.length) = record') :
    Holds layout m' a (left ++ record' :: right) := by
  have hone : layout.size * [record].length = layout.size := Nat.mul_one _
  exact @Holds.replace ρ m m' a layout left right [record] [record'] h (hone.symm ▸ hwithin) rfl
    ⟨hrecord, trivial⟩

end ByteMemory
