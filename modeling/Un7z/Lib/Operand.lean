/-
Operands that are moved.

A branch filter rewrites one field of the words it recognises and nothing else.  An
`Operand` is such a field: on recognised words it can be read and written, the way a lens
is, and writing it leaves the word recognised.  `move` subtracts an amount from the field,
modulo what the field can hold.  It is then a bijection on all words, whatever the amount:
it recognises the same words before and after, and adding the amount back undoes it.

A word with several fields that are apart from one another is relocated by moving each.
-/
import Mathlib.Algebra.Group.Nat.Defs
import Mathlib.Data.List.Pairwise
import Mathlib.Logic.Function.Basic

/-- A field of the words that are recognised, with values below `modulus`. -/
structure Operand (W : Type) where
  modulus : Nat
  Recognized : W → Prop
  decide : DecidablePred Recognized
  get : W → Nat
  put : Nat → W → W
  get_lt : ∀ {w}, Recognized w → get w < modulus
  recognized_put : ∀ {w x}, Recognized w → x < modulus → Recognized (put x w)
  get_put : ∀ {w x}, Recognized w → x < modulus → get (put x w) = x
  put_get : ∀ {w}, Recognized w → put (get w) w = w
  put_put : ∀ {w x y}, Recognized w → x < modulus → y < modulus → put y (put x w) = put y w

namespace Operand

variable {W : Type} (o : Operand W)

instance : DecidablePred o.Recognized := o.decide

/-- The field with an amount taken away. -/
def moved (amount : Nat) (w : W) : Nat := (o.get w + (o.modulus - amount % o.modulus)) % o.modulus

/-- Take an amount away from the field of a word that is recognised. -/
def move (amount : Nat) (w : W) : W := if o.Recognized w then o.put (o.moved amount w) w else w

variable {o} {w w' : W} {amount : Nat}

theorem modulus_pos (h : o.Recognized w) : 0 < o.modulus := Nat.lt_of_le_of_lt (Nat.zero_le _) (o.get_lt h)

theorem moved_lt (h : o.Recognized w) : o.moved amount w < o.modulus := Nat.mod_lt _ (modulus_pos h)

theorem move_of_recognized (h : o.Recognized w) : o.move amount w = o.put (o.moved amount w) w :=
  if_pos h

theorem move_of_not (h : ¬ o.Recognized w) : o.move amount w = w := if_neg h

/-- The same words are recognised before and after. -/
@[simp] theorem recognized_move : o.Recognized (o.move amount w) ↔ o.Recognized w := by
  by_cases h : o.Recognized w
  · rw [move_of_recognized h]
    exact iff_of_true (o.recognized_put h (moved_lt h)) h
  · rw [move_of_not h]

theorem get_move (h : o.Recognized w) : o.get (o.move amount w) = o.moved amount w := by
  rw [move_of_recognized h, o.get_put h (moved_lt h)]

/-- Writing to the field of a moved word is writing to the field of the word. -/
theorem put_move {x : Nat} (h : o.Recognized w) (hx : x < o.modulus) :
    o.put x (o.move amount w) = o.put x w := by
  rw [move_of_recognized h, o.put_put h (moved_lt h) hx]

/-- What is taken away can be given back. -/
theorem moved_move {m : Nat} (h : o.Recognized w) (hm : (amount + m) % o.modulus = 0) :
    o.moved m (o.move amount w) = o.get w := by
  have hpos := modulus_pos h
  have hget := o.get_lt h
  have hsum : (amount % o.modulus + m % o.modulus) % o.modulus = 0 := by rw [← Nat.add_mod, hm]
  have hamount := Nat.mod_lt amount hpos
  have hback := Nat.mod_lt m hpos
  unfold moved
  rw [get_move h, moved, Nat.mod_add_mod]
  -- both amounts together are nothing or one whole turn
  obtain ⟨k, hk⟩ := Nat.dvd_of_mod_eq_zero hsum
  have hturn : k = 0 ∨ k = 1 := by
    rcases k with _ | _ | k
    · exact Or.inl rfl
    · exact Or.inr rfl
    · have htwo : o.modulus * 2 ≤ o.modulus * (k + 1 + 1) := Nat.mul_le_mul_left _ (by omega)
      omega
  rcases hturn with rfl | rfl
  · rw [Nat.mul_zero] at hk
    rw [show o.get w + (o.modulus - amount % o.modulus) + (o.modulus - m % o.modulus)
      = o.get w + o.modulus + o.modulus by omega, Nat.add_mod_right, Nat.add_mod_right,
      Nat.mod_eq_of_lt hget]
  · rw [Nat.mul_one] at hk
    rw [show o.get w + (o.modulus - amount % o.modulus) + (o.modulus - m % o.modulus)
      = o.get w + o.modulus by omega, Nat.add_mod_right, Nat.mod_eq_of_lt hget]

theorem move_move {m : Nat} (hm : (amount + m) % o.modulus = 0) (w : W) :
    o.move m (o.move amount w) = w := by
  by_cases h : o.Recognized w
  · rw [move_of_recognized (recognized_move.mpr h), moved_move h hm, put_move h (o.get_lt h),
      o.put_get h]
  · rw [move_of_not (mt recognized_move.mp h), move_of_not h]

/-- What has to be taken away to give an amount back. -/
theorem add_back (h : o.Recognized w) (amount : Nat) :
    (amount + (o.modulus - amount % o.modulus)) % o.modulus = 0 := by
  have hlt := Nat.mod_lt amount (modulus_pos h)
  rw [← Nat.mod_add_mod, Nat.add_sub_of_le (Nat.le_of_lt hlt), Nat.mod_self]

theorem move_injective (amount : Nat) : Function.Injective (o.move amount) := by
  have hback : ∀ w, o.move (o.modulus - amount % o.modulus) (o.move amount w) = w := by
    intro w
    by_cases h : o.Recognized w
    · exact move_move (add_back h amount) w
    · rw [move_of_not h, move_of_not h]
  exact Function.LeftInverse.injective hback

/-! ### Operands apart from one another -/

/-- Writing to the one operand does not show in the other. -/
structure Apart (o p : Operand W) : Prop where
  recognized : ∀ {w x}, o.Recognized w → x < o.modulus →
    (p.Recognized (o.put x w) ↔ p.Recognized w)
  get : ∀ {w x}, o.Recognized w → x < o.modulus → p.Recognized w → p.get (o.put x w) = p.get w

namespace Apart

variable {p : Operand W}

/-- No word has both operands. -/
theorem of_disjoint (h : ∀ w, o.Recognized w → ¬ p.Recognized w) : Apart o p where
  recognized hw hx := iff_of_false (h _ (o.recognized_put hw hx)) (h _ hw)
  get hw _ hp := absurd hp (h _ hw)

theorem recognized_move (h : Apart o p) : p.Recognized (o.move amount w) ↔ p.Recognized w := by
  by_cases hw : o.Recognized w
  · rw [move_of_recognized hw]
    exact h.recognized hw (moved_lt hw)
  · rw [move_of_not hw]

theorem get_move (h : Apart o p) (hp : p.Recognized w) : p.get (o.move amount w) = p.get w := by
  by_cases hw : o.Recognized w
  · rw [move_of_recognized hw]
    exact h.get hw (moved_lt hw) hp
  · rw [move_of_not hw]

theorem moved_move {m : Nat} (h : Apart o p) (hp : p.Recognized w) :
    p.moved m (o.move amount w) = p.moved m w := by
  rw [moved, h.get_move hp, moved]

end Apart

end Operand

/-- An operand, and what is taken away from it in a state. -/
structure Relocation (σ W : Type) where
  operand : Operand W
  amount : σ → Nat

namespace Relocation

open Operand

variable {σ W : Type}

/-- Move the operands of a word, the last one first. -/
def relocate (relocations : List (Relocation σ W)) (s : σ) (w : W) : W :=
  relocations.foldr (fun r w => r.operand.move (r.amount s) w) w

/-- The operands are apart from one another. -/
def Independent (relocations : List (Relocation σ W)) : Prop :=
  relocations.Pairwise fun r r' => Apart r.operand r'.operand ∧ Apart r'.operand r.operand

variable {relocations : List (Relocation σ W)} {r : Relocation σ W}

@[simp] theorem relocate_nil (s : σ) (w : W) : relocate [] s w = w := rfl

@[simp] theorem relocate_cons (s : σ) (w : W) :
    relocate (r :: relocations) s w = r.operand.move (r.amount s) (relocate relocations s w) := rfl

theorem relocate_injective (s : σ) : Function.Injective (relocate relocations s) := by
  induction relocations with
  | nil => exact Function.injective_id
  | cons r relocations ih => exact (move_injective (r.amount s)).comp ih

/-- An operand apart from all that are moved is not moved. -/
theorem relocate_apart {p : Operand W} (h : ∀ r ∈ relocations, Apart r.operand p) (s : σ) (w : W) :
    (p.Recognized (relocate relocations s w) ↔ p.Recognized w) ∧
      (p.Recognized w → p.get (relocate relocations s w) = p.get w) := by
  induction relocations with
  | nil => exact ⟨Iff.rfl, fun _ => rfl⟩
  | cons r relocations ih =>
      obtain ⟨hrecognized, hget⟩ := ih fun r' hr' => h r' (List.mem_cons_of_mem _ hr')
      have hr := h r (List.mem_cons_self ..)
      refine ⟨hr.recognized_move.trans hrecognized, fun hp => ?_⟩
      rw [relocate_cons, hr.get_move (hrecognized.mpr hp), hget hp]

/-- Each operand is recognised where it was, and moved by its amount. -/
theorem relocate_moves (h : Independent relocations) (hr : r ∈ relocations) (s : σ) (w : W) :
    (r.operand.Recognized (relocate relocations s w) ↔ r.operand.Recognized w) ∧
      (r.operand.Recognized w →
        r.operand.get (relocate relocations s w) = r.operand.moved (r.amount s) w) := by
  induction relocations with
  | nil => exact absurd hr List.not_mem_nil
  | cons head relocations ih =>
      obtain ⟨hhead, htail⟩ := List.pairwise_cons.mp h
      rcases List.mem_cons.mp hr with rfl | hmem
      · obtain ⟨hrecognized, hget⟩ := relocate_apart (fun r' hr' => (hhead r' hr').2) s w
        refine ⟨Operand.recognized_move.trans hrecognized, fun hw => ?_⟩
        rw [relocate_cons, Operand.get_move (hrecognized.mpr hw), moved, hget hw, moved]
      · obtain ⟨hrecognized, hget⟩ := ih htail hmem
        have hapart := (hhead r hmem).1
        refine ⟨hapart.recognized_move.trans hrecognized, fun hw => ?_⟩
        rw [relocate_cons, hapart.get_move (hrecognized.mpr hw), hget hw]

/-- A word without any of the operands stays as it is. -/
theorem relocate_of_none {w : W} (h : ∀ r ∈ relocations, ¬ r.operand.Recognized w) (s : σ) :
    relocate relocations s w = w := by
  induction relocations with
  | nil => rfl
  | cons r relocations ih =>
      rw [relocate_cons, ih fun r' hr' => h r' (List.mem_cons_of_mem _ hr'),
        move_of_not (h r (List.mem_cons_self ..))]

end Relocation

/-! ### Operands among other bits -/

namespace Operand

/-- An operand of the words that meet a condition, which writing to it does not affect. -/
def given {W : Type} (o : Operand W) (C : W → Prop) [DecidablePred C]
    (h : ∀ {w x}, o.Recognized w → x < o.modulus → (C (o.put x w) ↔ C w)) : Operand W where
  modulus := o.modulus
  Recognized w := C w ∧ o.Recognized w
  decide w := inferInstanceAs (Decidable (C w ∧ o.Recognized w))
  get := o.get
  put := o.put
  get_lt hw := o.get_lt hw.2
  recognized_put hw hx := ⟨(h hw.2 hx).mpr hw.1, o.recognized_put hw.2 hx⟩
  get_put hw hx := o.get_put hw.2 hx
  put_get hw := o.put_get hw.2
  put_put hw hx hy := o.put_put hw.2 hx hy

section given

variable {W : Type} {o : Operand W} {C : W → Prop} [DecidablePred C]
  {h : ∀ {w x}, o.Recognized w → x < o.modulus → (C (o.put x w) ↔ C w)}

theorem move_given (amount : Nat) (w : W) :
    (o.given C h).move amount w = if C w then o.move amount w else w := by
  by_cases hC : C w
  · rw [if_pos hC]
    by_cases hw : o.Recognized w
    · rw [move_of_recognized hw, move_of_recognized (o := o.given C h) ⟨hC, hw⟩]
      rfl
    · rw [move_of_not hw, move_of_not (o := o.given C h) fun hboth => hw hboth.2]
  · rw [if_neg hC, move_of_not (o := o.given C h) fun hboth => hC hboth.1]

theorem Apart.given {p : Operand W} {D : W → Prop} [DecidablePred D]
    {h' : ∀ {w x}, p.Recognized w → x < p.modulus → (D (p.put x w) ↔ D w)} (hapart : Apart o p)
    (hD : ∀ {w x}, o.Recognized w → x < o.modulus → (D (o.put x w) ↔ D w)) :
    Apart (o.given C h) (p.given D h') where
  recognized hw hx := and_congr (hD hw.2 hx) (hapart.recognized hw.2 hx)
  get hw hx hp := hapart.get hw.2 hx hp.2

end given

/-- The operand lies in the low bits. -/
structure Within (o : Operand Nat) (bits : Nat) : Prop where
  recognized : ∀ v, o.Recognized v ↔ o.Recognized (v % 2 ^ bits)
  get : ∀ v, o.get v = o.get (v % 2 ^ bits)
  put : ∀ x v, o.put x v = o.put x (v % 2 ^ bits) + v / 2 ^ bits * 2 ^ bits
  put_lt : ∀ {x v}, o.Recognized v → x < o.modulus → v < 2 ^ bits → o.put x v < 2 ^ bits

namespace Within

variable {o : Operand Nat} {bits : Nat} (h : o.Within bits)

include h

theorem put_div {x v : Nat} (hv : o.Recognized v) (hx : x < o.modulus) :
    o.put x v / 2 ^ bits = v / 2 ^ bits := by
  have hpos := Nat.two_pow_pos bits
  have hlt := h.put_lt ((h.recognized v).mp hv) hx (Nat.mod_lt v hpos)
  rw [h.put, Nat.add_mul_div_right _ _ hpos, Nat.div_eq_of_lt hlt, Nat.zero_add]

/-- Moving leaves the upper bits where they are. -/
theorem move (amount v : Nat) :
    o.move amount v = o.move amount (v % 2 ^ bits) + v / 2 ^ bits * 2 ^ bits := by
  by_cases hv : o.Recognized v
  · have hlow := (h.recognized v).mp hv
    rw [move_of_recognized hv, move_of_recognized hlow, h.put, moved, moved, ← h.get]
  · rw [move_of_not hv, move_of_not (mt (h.recognized v).mpr hv)]
    exact (Nat.mod_add_div' v _).symm

/-- So it does not see what is put above. -/
theorem move_add_mul {upper : Nat} (hle : bits ≤ upper) (amount v high : Nat) :
    o.move amount (v + high * 2 ^ upper) = o.move amount v + high * 2 ^ upper := by
  have hsplit : high * 2 ^ upper = high * 2 ^ (upper - bits) * 2 ^ bits := by
    rw [Nat.mul_assoc, ← Nat.pow_add, Nat.sub_add_cancel hle]
  rw [h.move, h.move amount v, hsplit, Nat.add_mul_mod_self_right,
    Nat.add_mul_div_right _ _ (Nat.two_pow_pos bits), Nat.add_mul, Nat.add_assoc]

/-- Moving keeps a number as short as it is. -/
theorem move_lt {upper amount v : Nat} (hle : bits ≤ upper) (hv : v < 2 ^ upper) :
    o.move amount v < 2 ^ upper := by
  by_cases hw : o.Recognized v
  · have hpow : 2 ^ upper = 2 ^ (upper - bits) * 2 ^ bits := by
      rw [← Nat.pow_add, Nat.sub_add_cancel hle]
    have hdiv : o.move amount v / 2 ^ bits = v / 2 ^ bits := by
      rw [move_of_recognized hw, h.put_div hw (moved_lt hw)]
    rw [hpow, ← Nat.div_lt_iff_lt_mul (Nat.two_pow_pos bits)] at hv ⊢
    rwa [hdiv]
  · rwa [move_of_not hw]

end Within

/-- The operand of the bits from some bit on. -/
def above (o : Operand Nat) (bit : Nat) : Operand Nat where
  modulus := o.modulus
  Recognized v := o.Recognized (v / 2 ^ bit)
  decide v := inferInstanceAs (Decidable (o.Recognized (v / 2 ^ bit)))
  get v := o.get (v / 2 ^ bit)
  put x v := v % 2 ^ bit + o.put x (v / 2 ^ bit) * 2 ^ bit
  get_lt hv := o.get_lt hv
  recognized_put {v x} hv hx := by
    rw [Nat.add_mul_div_right _ _ (Nat.two_pow_pos bit),
      Nat.div_eq_of_lt (Nat.mod_lt v (Nat.two_pow_pos bit)), Nat.zero_add]
    exact o.recognized_put hv hx
  get_put {v x} hv hx := by
    rw [Nat.add_mul_div_right _ _ (Nat.two_pow_pos bit),
      Nat.div_eq_of_lt (Nat.mod_lt v (Nat.two_pow_pos bit)), Nat.zero_add, o.get_put hv hx]
  put_get {v} hv := by
    rw [o.put_get hv]
    exact Nat.mod_add_div' v _
  put_put {v x y} hv hx hy := by
    rw [Nat.add_mul_div_right _ _ (Nat.two_pow_pos bit),
      Nat.div_eq_of_lt (Nat.mod_lt v (Nat.two_pow_pos bit)), Nat.zero_add, o.put_put hv hx hy,
      Nat.add_mul_mod_self_right, Nat.mod_mod]

section above

variable {o : Operand Nat} {bit : Nat}

theorem move_above (amount v : Nat) :
    (o.above bit).move amount v = v % 2 ^ bit + o.move amount (v / 2 ^ bit) * 2 ^ bit := by
  by_cases hv : o.Recognized (v / 2 ^ bit)
  · rw [move_of_recognized hv, move_of_recognized (o := o.above bit) hv]
    rfl
  · rw [move_of_not hv, move_of_not (o := o.above bit) hv]
    exact (Nat.mod_add_div' v _).symm

/-- An operand above one that is above is above. -/
theorem move_above_above (amount v low : Nat) :
    ((o.above bit).above low).move amount v = (o.above (low + bit)).move amount v := by
  rw [move_above, move_above, move_above, Nat.div_div_eq_div_mul, ← Nat.pow_add, Nat.pow_add,
    Nat.mod_mul, Nat.add_mul, Nat.add_assoc, Nat.mul_comm (v / 2 ^ low % 2 ^ bit), Nat.mul_assoc,
    Nat.mul_comm (2 ^ bit)]

/-- What an operand lies in, it lies in above. -/
theorem Within.above {bits : Nat} (h : o.Within bits) (bit : Nat) :
    (o.above bit).Within (bit + bits) := by
  have hdiv (v : Nat) : v % 2 ^ (bit + bits) / 2 ^ bit = v / 2 ^ bit % 2 ^ bits := by
    rw [Nat.pow_add, Nat.mod_mul_right_div_self]
  have hmod (v : Nat) : v % 2 ^ (bit + bits) % 2 ^ bit = v % 2 ^ bit :=
    Nat.mod_mod_of_dvd v (Nat.pow_dvd_pow 2 (Nat.le_add_right bit bits))
  refine ⟨fun v => ?_, fun v => ?_, fun x v => ?_, fun {x v} hv hx hlt => ?_⟩
  · show o.Recognized _ ↔ o.Recognized _
    rw [hdiv, ← h.recognized]
  · show o.get _ = o.get _
    rw [hdiv, ← h.get]
  · show v % 2 ^ bit + o.put x _ * 2 ^ bit
      = v % 2 ^ (bit + bits) % 2 ^ bit + o.put x (_ / _) * 2 ^ bit + _
    rw [hdiv, hmod, h.put, Nat.add_mul, ← Nat.add_assoc, Nat.div_div_eq_div_mul, ← Nat.pow_add,
      Nat.mul_assoc, ← Nat.pow_add, Nat.add_comm bits bit]
  · have hput : o.put x (v / 2 ^ bit) < 2 ^ bits :=
      h.put_lt hv hx (Nat.div_lt_of_lt_mul (by rwa [← Nat.pow_add]))
    show v % 2 ^ bit + o.put x (v / 2 ^ bit) * 2 ^ bit < 2 ^ (bit + bits)
    rw [Nat.pow_add]
    calc v % 2 ^ bit + o.put x (v / 2 ^ bit) * 2 ^ bit
        < 2 ^ bit + o.put x (v / 2 ^ bit) * 2 ^ bit :=
          Nat.add_lt_add_right (Nat.mod_lt v (Nat.two_pow_pos bit)) _
      _ = 2 ^ bit * (o.put x (v / 2 ^ bit) + 1) := by rw [Nat.mul_succ, Nat.mul_comm, Nat.add_comm]
      _ ≤ 2 ^ bit * 2 ^ bits := Nat.mul_le_mul_left _ hput

/-- The bits below stay. -/
theorem above_put_mod {low x v : Nat} (hle : low ≤ bit) :
    (o.above bit).put x v % 2 ^ low = v % 2 ^ low := by
  have hdvd : 2 ^ low ∣ 2 ^ bit := Nat.pow_dvd_pow 2 hle
  show (v % 2 ^ bit + o.put x (v / 2 ^ bit) * 2 ^ bit) % 2 ^ low = _
  rw [Nat.add_mod, Nat.mod_mod_of_dvd _ hdvd,
    Nat.mod_eq_zero_of_dvd (Nat.dvd_mul_left_of_dvd hdvd _), Nat.add_zero, Nat.mod_mod]

variable {bits high : Nat}

/-- The bits above stay. -/
theorem above_put_div {x v : Nat} (h : o.Within bits) (hle : bit + bits ≤ high)
    (hv : (o.above bit).Recognized v) (hx : x < o.modulus) :
    (o.above bit).put x v / 2 ^ high = v / 2 ^ high := by
  obtain ⟨k, rfl⟩ := Nat.exists_eq_add_of_le hle
  have hdiv : (o.above bit).put x v / 2 ^ bit = o.put x (v / 2 ^ bit) := by
    show (v % 2 ^ bit + o.put x (v / 2 ^ bit) * 2 ^ bit) / 2 ^ bit = _
    rw [Nat.add_mul_div_right _ _ (Nat.two_pow_pos bit),
      Nat.div_eq_of_lt (Nat.mod_lt v (Nat.two_pow_pos bit)), Nat.zero_add]
  rw [Nat.pow_add, Nat.pow_add, ← Nat.div_div_eq_div_mul, ← Nat.div_div_eq_div_mul, hdiv,
    h.put_div hv hx, Nat.div_div_eq_div_mul v, Nat.div_div_eq_div_mul]

/-- Operands in bits apart are apart. -/
theorem apart_above (h : o.Within bits) (hle : bit + bits ≤ high) :
    Apart (o.above bit) (o.above high) ∧ Apart (o.above high) (o.above bit) := by
  have hup {v x : Nat} (hv : (o.above bit).Recognized v) (hx : x < o.modulus) :
      (o.above bit).put x v / 2 ^ high = v / 2 ^ high := above_put_div h hle hv hx
  have hdown {v x : Nat} : (o.above high).put x v / 2 ^ bit % 2 ^ bits = v / 2 ^ bit % 2 ^ bits := by
    rw [← Nat.mod_mul_right_div_self, ← Nat.pow_add, above_put_mod hle, Nat.pow_add,
      Nat.mod_mul_right_div_self]
  refine ⟨⟨fun hv hx => ?_, fun hv hx _ => ?_⟩, ⟨fun {v x} _ _ => ?_, fun {v x} _ _ _ => ?_⟩⟩
  · show o.Recognized (_ / _) ↔ o.Recognized _
    rw [hup hv hx]
  · show o.get (_ / _) = o.get _
    rw [hup hv hx]
  · show o.Recognized (_ / _) ↔ o.Recognized _
    rw [h.recognized, hdown, ← h.recognized]
  · show o.get (_ / _) = o.get _
    rw [h.get, hdown, ← h.get]

end above

end Operand

/-! ### Operands of encoded numbers -/

/-- A way to write the numbers below a bound. -/
structure Encoding (B : Type) where
  bound : Nat
  Whole : B → Prop
  decide : DecidablePred Whole
  read : B → Nat
  write : Nat → B
  read_lt : ∀ {b}, Whole b → read b < bound
  whole_write : ∀ v, Whole (write v)
  read_write : ∀ {v}, v < bound → read (write v) = v
  write_read : ∀ {b}, Whole b → write (read b) = b

namespace Operand

instance {B : Type} (e : Encoding B) : DecidablePred e.Whole := e.decide

/-- Writing to the operand of a number keeps it below the bound. -/
def Fits {B : Type} (o : Operand Nat) (e : Encoding B) : Prop :=
  ∀ v x, o.Recognized v → x < o.modulus → v < e.bound → o.put x v < e.bound

/-- An operand of the numbers, where they are written. -/
def through {B : Type} (o : Operand Nat) (e : Encoding B) (h : o.Fits e) : Operand B where
  modulus := o.modulus
  Recognized b := e.Whole b ∧ o.Recognized (e.read b)
  decide b := inferInstanceAs (Decidable (e.Whole b ∧ o.Recognized (e.read b)))
  get b := o.get (e.read b)
  put x b := e.write (o.put x (e.read b))
  get_lt hb := o.get_lt hb.2
  recognized_put hb hx := by
    refine ⟨e.whole_write _, ?_⟩
    rw [e.read_write (h _ _ hb.2 hx (e.read_lt hb.1))]
    exact o.recognized_put hb.2 hx
  get_put hb hx := by
    rw [e.read_write (h _ _ hb.2 hx (e.read_lt hb.1)), o.get_put hb.2 hx]
  put_get hb := by rw [o.put_get hb.2, e.write_read hb.1]
  put_put hb hx hy := by
    rw [e.read_write (h _ _ hb.2 hx (e.read_lt hb.1)), o.put_put hb.2 hx hy]

variable {B : Type} {o p : Operand Nat} {e : Encoding B} (ho : o.Fits e)

/-- Moving the operand where it is written is moving it. -/
theorem move_through {b : B} (hb : e.Whole b) (amount : Nat) :
    (o.through e ho).move amount b = e.write (o.move amount (e.read b)) := by
  by_cases h : o.Recognized (e.read b)
  · rw [move_of_recognized h, move_of_recognized (o := o.through e ho) ⟨hb, h⟩]
    rfl
  · rw [move_of_not h, move_of_not (o := o.through e ho) fun hw => h hw.2, e.write_read hb]

/-- What is whole stays whole. -/
theorem whole_move {b : B} (hb : e.Whole b) (amount : Nat) :
    e.Whole ((o.through e ho).move amount b) := by
  rw [move_through ho hb]
  exact e.whole_write _

theorem Apart.through (hp : p.Fits e) (h : Apart o p) :
    Apart (o.through e ho) (p.through e hp) where
  recognized hw hx := by
    show e.Whole (e.write _) ∧ p.Recognized (e.read (e.write _)) ↔ _
    rw [e.read_write (ho _ _ hw.2 hx (e.read_lt hw.1)), h.recognized hw.2 hx]
    exact and_congr (iff_of_true (e.whole_write _) hw.1) Iff.rfl
  get hw hx hpw := by
    show p.get (e.read (e.write _)) = _
    rw [e.read_write (ho _ _ hw.2 hx (e.read_lt hw.1)), h.get hw.2 hx hpw.2]
    rfl

include ho in
theorem Fits.move_lt {v : Nat} (hv : v < e.bound) (amount : Nat) : o.move amount v < e.bound := by
  by_cases h : o.Recognized v
  · rw [move_of_recognized h]
    exact ho _ _ h (moved_lt h) hv
  · rwa [move_of_not h]

end Operand

namespace Relocation

variable {σ B : Type} {e : Encoding B} {relocations : List (Relocation σ Nat)}

/-- Relocations of numbers, where these are written. -/
def written (relocations : List (Relocation σ Nat)) (e : Encoding B)
    (h : ∀ r ∈ relocations, r.operand.Fits e) : List (Relocation σ B) :=
  relocations.pmap (fun r hr => ⟨r.operand.through e hr, r.amount⟩) h

theorem relocate_lt (h : ∀ r ∈ relocations, r.operand.Fits e) (s : σ) {v : Nat} (hv : v < e.bound) :
    relocate relocations s v < e.bound := by
  induction relocations with
  | nil => exact hv
  | cons r relocations ih =>
      exact Operand.Fits.move_lt (h r (List.mem_cons_self ..))
        (ih fun r' hr' => h r' (List.mem_cons_of_mem _ hr')) _

/-- Relocating what is written is relocating the number. -/
theorem relocate_written (h : ∀ r ∈ relocations, r.operand.Fits e) (s : σ) {b : B}
    (hb : e.Whole b) : relocate (written relocations e h) s b
      = e.write (relocate relocations s (e.read b)) := by
  induction relocations with
  | nil => exact (e.write_read hb).symm
  | cons r relocations ih =>
      have htail : ∀ r' ∈ relocations, r'.operand.Fits e := fun r' hr' =>
        h r' (List.mem_cons_of_mem _ hr')
      have hr := h r (List.mem_cons_self ..)
      calc relocate (written (r :: relocations) e h) s b
          = (r.operand.through e hr).move (r.amount s) (relocate (written relocations e htail) s b) :=
            rfl
        _ = (r.operand.through e hr).move (r.amount s)
              (e.write (relocate relocations s (e.read b))) := by rw [ih htail]
        _ = e.write (r.operand.move (r.amount s) (relocate relocations s (e.read b))) := by
            rw [Operand.move_through hr (e.whole_write _),
              e.read_write (relocate_lt htail s (e.read_lt hb))]

theorem whole_relocate (h : ∀ r ∈ relocations, r.operand.Fits e) (s : σ) {b : B} (hb : e.Whole b) :
    e.Whole (relocate (written relocations e h) s b) := by
  rw [relocate_written h s hb]
  exact e.whole_write _

theorem independent_written (h : ∀ r ∈ relocations, r.operand.Fits e)
    (hindependent : Independent relocations) : Independent (written relocations e h) :=
  hindependent.pmap h fun _ hr _ hr' hapart =>
    ⟨hapart.1.through hr hr', hapart.2.through hr' hr⟩

end Relocation
