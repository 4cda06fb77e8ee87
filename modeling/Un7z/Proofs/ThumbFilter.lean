/-
What the ARM Thumb filter moves.

A `BL` of ARM Thumb is a pair of half words, and the filter looks for one at every half
word.  Where it finds one it passes both halves, so whether it looks at a half word is
decided by what stands before it; and it decides by a half word it does not take, which it
may rewrite later.  It is all the same: of the half word it decides by it looks at five
bits, and those are kept.  The distance is cut in four, and what is taken away from it is
the pointer in half words.
-/
import Un7z.Proofs.BranchWords

namespace Un7z

namespace CompatibilityFilters

open Filters
open Grammar (leBytes)
open Relocation (relocate)

/-! ### Loops over offsets -/

/-- What a round makes of the input, if it takes the stride of a walk. -/
def TakesStride (G : Gait UInt32 UInt8) (start : UInt32) (round : Nat → Bytes → Work (Bytes × Nat))
    (done rest : Bytes) : Prop :=
  let ip := start + UInt32.ofNat done.length
  G.Strides ip rest ∧ (round done.length (done ++ rest)).result
    = .ok (done ++ (G.act ip (G.front ip rest) ++ G.behind ip rest), done.length + G.cut ip rest)

/-- A loop whose rounds take the strides of a walk, as long as it goes on, is that walk. -/
theorem scanWhile_walk {round : Nat → Bytes → Work (Bytes × Nat)} {G : Gait UInt32 UInt8}
    {start : UInt32} {n scanEnd : Nat}
    (hlength : ∀ {ip rest}, G.Strides ip rest → (G.act ip (G.front ip rest)).length = G.cut ip rest)
    (hafter : ∀ {ip rest}, G.Strides ip rest → G.after ip rest = ip + UInt32.ofNat (G.cut ip rest))
    (hround : ∀ done rest : Bytes, done.length + rest.length = n → done.length ≤ scanEnd →
      TakesStride G start round done rest)
    (hstop : ∀ done rest : Bytes, done.length + rest.length = n → scanEnd < done.length →
      ¬ G.Strides (start + UInt32.ofNat done.length) rest) (fuel : Nat) :
    ∀ done rest : Bytes, done.length + rest.length = n → rest.length < fuel →
      (scanWhile round scanEnd fuel done.length (done ++ rest)).result
        = .ok (done ++ G.walk (start + UInt32.ofNat done.length) rest) := by
  induction fuel with
  | zero => intro done rest _ hfuel; exact absurd hfuel (Nat.not_lt_zero _)
  | succ fuel ih =>
      intro done rest hn hfuel
      rw [scanWhile]
      by_cases hle : done.length ≤ scanEnd
      · obtain ⟨hstrides, hresult⟩ := hround done rest hn hle
        have hcut := hstrides.1
        have hbehind := Gait.length_behind_lt hstrides
        have hact := hlength hstrides
        have hrest : (G.behind (start + UInt32.ofNat done.length) rest).length
            = rest.length - G.cut (start + UInt32.ofNat done.length) rest := List.length_drop
        have hle' := hstrides.2
        have hdone : (done ++ G.act (start + UInt32.ofNat done.length)
              (G.front (start + UInt32.ofNat done.length) rest)).length
            = done.length + G.cut (start + UInt32.ofNat done.length) rest := by
          rw [List.length_append, hact]
        have hnext := ih (done ++ G.act (start + UInt32.ofNat done.length)
          (G.front (start + UInt32.ofNat done.length) rest))
          (G.behind (start + UInt32.ofNat done.length) rest) (by omega) (by omega)
        rw [hdone, UInt32.ofNat_add, ← UInt32.add_assoc, ← hafter hstrides, List.append_assoc,
          List.append_assoc, ← Gait.walk_of_strides hstrides] at hnext
        rw [if_pos hle]
        exact Metered.bind_eq_ok.mpr ⟨_, hresult, hnext⟩
      · rw [if_neg hle, Gait.walk_of_not (hstop done rest hn (by omega))]
        rfl

theorem scanWhile_start {round : Nat → Bytes → Work (Bytes × Nat)} {G : Gait UInt32 UInt8}
    {start : UInt32} {bytes : Bytes} {scanEnd : Nat}
    (hlength : ∀ {ip rest}, G.Strides ip rest → (G.act ip (G.front ip rest)).length = G.cut ip rest)
    (hafter : ∀ {ip rest}, G.Strides ip rest → G.after ip rest = ip + UInt32.ofNat (G.cut ip rest))
    (hround : ∀ done rest : Bytes, done.length + rest.length = bytes.length →
      done.length ≤ scanEnd → TakesStride G start round done rest)
    (hstop : ∀ done rest : Bytes, done.length + rest.length = bytes.length →
      scanEnd < done.length → ¬ G.Strides (start + UInt32.ofNat done.length) rest) :
    (scanWhile round scanEnd (bytes.length + 1) 0 bytes).result = .ok (G.walk start bytes) := by
  have h := scanWhile_walk hlength hafter hround hstop (bytes.length + 1) [] bytes (Nat.zero_add _)
    (Nat.lt_succ_self _)
  have hzero : start + UInt32.ofNat (List.length (α := UInt8) []) = start := UInt32.add_zero start
  rwa [List.nil_append, List.nil_append, hzero] at h

theorem takesStride_of {G : Gait UInt32 UInt8} {start : UInt32}
    {round : Nat → Bytes → Work (Bytes × Nat)} {done front rest : Bytes} (hpos : 0 < front.length)
    (hcut : G.cut (start + UInt32.ofNat done.length) (front ++ rest) = front.length)
    (hround : (round done.length (done ++ (front ++ rest))).result
      = .ok (done ++ (G.act (start + UInt32.ofNat done.length) front ++ rest),
          done.length + front.length)) : TakesStride G start round done (front ++ rest) := by
  refine ⟨?_, ?_⟩
  · rw [Gait.Strides, hcut, List.length_append]
    omega
  · rw [Gait.front, Gait.behind, hcut, List.take_left, List.drop_left]
    exact hround

/-- A pair of half words from its bytes. -/
def thumbWord (a b c d : Nat) : Nat := ((d * 256 + c) * 256 + b) * 256 + a

theorem thumbWord_parts (a b c d : Nat) (ha : a < 256) (hb : b < 256) (hc : c < 256) :
    thumbWord a b c d % 256 = a ∧ thumbWord a b c d / 2 ^ 8 % 256 = b ∧
      thumbWord a b c d / 2 ^ 16 % 256 = c ∧ thumbWord a b c d / 2 ^ 24 = d := by
  unfold thumbWord
  omega

theorem thumbWord_of_parts (w : Nat) :
    thumbWord (w % 256) (w / 2 ^ 8 % 256) (w / 2 ^ 16 % 256) (w / 2 ^ 24) = w := by
  unfold thumbWord
  omega

/-- The distance of a `BL` from what the four bytes hold of it. -/
def thumbDistance (a b c d : Nat) : Nat := ((b * 256 + a) * 8 + d) * 256 + c

theorem thumbDistance_parts (a b c d : Nat) (ha : a < 256) (hc : c < 256) (hd : d < 8) :
    thumbDistance a b c d % 256 = c ∧ thumbDistance a b c d / 2 ^ 8 % 8 = d ∧
      thumbDistance a b c d / 2 ^ 11 % 256 = a ∧ thumbDistance a b c d / 2 ^ 19 = b := by
  unfold thumbDistance
  omega

theorem thumbDistance_of_parts (x : Nat) :
    thumbDistance (x / 2 ^ 11 % 256) (x / 2 ^ 19) (x % 256) (x / 2 ^ 8 % 8) = x := by
  have h₁ : x / 2 ^ 11 = x / 2 ^ 8 / 8 := by omega
  have h₂ : x / 2 ^ 19 = x / 2 ^ 11 / 256 := by omega
  unfold thumbDistance
  omega

/-- The distance of a `BL`, cut in four. -/
def thumbCall : Operand Nat where
  modulus := 2 ^ 22
  Recognized w := w / 2 ^ 8 % 256 / 8 = 30 ∧ w / 2 ^ 24 / 8 = 31
  decide _ := inferInstanceAs (Decidable (_ ∧ _))
  get w := thumbDistance (w % 256) (w / 2 ^ 8 % 256 % 8) (w / 2 ^ 16 % 256) (w / 2 ^ 24 % 8)
  put x _ := thumbWord (x / 2 ^ 11 % 256) (240 + x / 2 ^ 19) (x % 256) (248 + x / 2 ^ 8 % 8)
  get_lt {w} _ := by
    unfold thumbDistance
    omega
  recognized_put {w x} _ hx := by
    obtain ⟨-, hb, -, hd⟩ := thumbWord_parts (x / 2 ^ 11 % 256) (240 + x / 2 ^ 19) (x % 256)
      (248 + x / 2 ^ 8 % 8) (by omega) (by omega) (by omega)
    rw [hb, hd]
    omega
  get_put {w x} _ hx := by
    obtain ⟨ha, hb, hc, hd⟩ := thumbWord_parts (x / 2 ^ 11 % 256) (240 + x / 2 ^ 19) (x % 256)
      (248 + x / 2 ^ 8 % 8) (by omega) (by omega) (by omega)
    have hdistance := thumbDistance_of_parts x
    rw [ha, hb, hc, hd, show (240 + x / 2 ^ 19) % 8 = x / 2 ^ 19 by omega,
      show (248 + x / 2 ^ 8 % 8) % 8 = x / 2 ^ 8 % 8 by omega, hdistance]
  put_get {w} h := by
    obtain ⟨hsecond, hfourth⟩ := h
    obtain ⟨hc, hd, ha, hb⟩ := thumbDistance_parts (w % 256) (w / 2 ^ 8 % 256 % 8) (w / 2 ^ 16 % 256)
      (w / 2 ^ 24 % 8) (by omega) (by omega) (by omega)
    have hword := thumbWord_of_parts w
    rw [ha, hb, hc, hd, show 240 + w / 2 ^ 8 % 256 % 8 = w / 2 ^ 8 % 256 by omega,
      show 248 + w / 2 ^ 24 % 8 = w / 2 ^ 24 by omega, hword]
  put_put _ _ _ := rfl

theorem fits_thumbCall : thumbCall.Fits (littleEndian 4) := by
  intro v x _ hx _
  have hx : x < 2 ^ 22 := hx
  show thumbWord _ _ _ _ < 256 ^ 4
  unfold thumbWord
  omega

/-- The pointer of ARM Thumb is one word ahead, and what it leaves below a half word is dropped. -/
def thumbOperands : List (Relocation UInt32 Nat) :=
  [⟨thumbCall, fun ip => ((ip + 4).toNat + 1) / 2⟩]

theorem fits_thumbOperands : ∀ r ∈ thumbOperands, r.operand.Fits (littleEndian 4) := by
  intro r hr
  obtain rfl := List.mem_singleton.mp hr
  exact fits_thumbCall

def thumbRelocations : List (Relocation UInt32 Bytes) :=
  Relocation.written thumbOperands (littleEndian 4) fits_thumbOperands

/-- A pair of half words is taken in one stride, and what is none half a word at a time. -/
def thumbCut (rest : Bytes) : Nat :=
  if rest.length < 4 then 0 else if thumbCall.Recognized (leValue (rest.take 4)) then 4 else 2

theorem isThumbCall_iff (a b c d : UInt8) :
    b &&& 0xf8 = 0xf0 ∧ d &&& 0xf8 = 0xf8 ↔ thumbCall.Recognized (leValue [a, b, c, d]) := by
  have hmask (x : UInt8) : (x &&& 0xf8).toNat = x.toNat / 8 * 8 := by
    have := x.toNat_lt
    rw [UInt8.toNat_and]
    show x.toNat &&& (2 ^ 5 - 1) * 2 ^ 3 = _
    rw [and_ones]
    omega
  have ha := a.toNat_lt
  have hb := b.toNat_lt
  have hc := c.toNat_lt
  have hd := d.toNat_lt
  have hword : leValue [a, b, c, d] = thumbWord a.toNat b.toNat c.toNat d.toNat := by
    simp only [leValue, thumbWord]
    omega
  obtain ⟨-, hsecond, -, hfourth⟩ := thumbWord_parts a.toNat b.toNat c.toNat d.toNat ha hb hc
  rw [hword, ← UInt8.toNat_inj, ← UInt8.toNat_inj, hmask, hmask]
  show b.toNat / 8 * 8 = 240 ∧ d.toNat / 8 * 8 = 248 ↔
    thumbWord a.toNat b.toNat c.toNat d.toNat / 2 ^ 8 % 256 / 8 = 30 ∧
      thumbWord a.toNat b.toNat c.toNat d.toNat / 2 ^ 24 / 8 = 31
  rw [hsecond, hfourth]
  omega

theorem lowU32Offset_eq (offset : Nat) : (lowU32Offset offset).result = .ok (UInt32.ofNat offset) := by
  have hlt : offset &&& (2 ^ 32 - 1) < 2 ^ 32 := Nat.lt_succ_of_le Nat.and_le_right
  refine orFormat_eq_ok.mpr ?_
  rw [tryFrom_of_lt hlt, Option.map_some, Nat.and_two_pow_sub_one_eq_mod, Option.some.injEq,
    ← UInt32.toNat_inj, UInt32.toNat_ofNat', UInt32.toNat_ofNat', Nat.mod_mod]

theorem wordToByte_eq {word : UInt32} (h : word.toNat < 256) (detail : String) :
    (wordToByte word detail).result = .ok word.toUInt8 := by
  unfold wordToByte
  rw [if_pos (UInt32.lt_iff_toNat_lt.mpr h)]
  rfl

theorem leBytes_thumbWord (a b c d : Nat) (ha : a < 256) (hb : b < 256) (hc : c < 256)
    (hd : d < 256) : leBytes 4 (thumbWord a b c d)
      = [UInt8.ofNat a, UInt8.ofNat b, UInt8.ofNat c, UInt8.ofNat d] := by
  obtain ⟨h₁, h₂, h₃, h₄⟩ := thumbWord_parts a b c d ha hb hc
  have h₅ : thumbWord a b c d / 256 / 256 = thumbWord a b c d / 2 ^ 16 := Nat.div_div_eq_div_mul _ _ _
  have h₆ : thumbWord a b c d / 2 ^ 16 / 256 = thumbWord a b c d / 2 ^ 24 :=
    Nat.div_div_eq_div_mul _ _ _
  simp only [leBytes, h₅, h₆, h₁, h₃, h₄, Nat.mod_eq_of_lt hd]
  rw [show thumbWord a b c d / 256 % 256 = b from h₂]

/-- The bits of a word that end up in a byte. -/
theorem toNat_bits (word shift mask : UInt32) (width : Nat) (hshift : shift.toNat < 32)
    (hmask : mask.toNat = 2 ^ width - 1) :
    ((word >>> shift) &&& mask).toNat = word.toNat / 2 ^ shift.toNat % 2 ^ width := by
  rw [UInt32.toNat_and, hmask, Nat.and_two_pow_sub_one_eq_mod, UInt32.toNat_shiftRight,
    Nat.shiftRight_eq_div_pow, Nat.mod_eq_of_lt hshift]

/-- The byte that three bits and an opcode of five make. -/
theorem or_opcode (opcode : UInt8) (word : UInt32) (k : Nat) (hopcode : opcode.toNat = k * 2 ^ 3)
    (hk : k < 32) (hword : word.toNat < 8) :
    opcode ||| word.toUInt8 = UInt8.ofNat (k * 2 ^ 3 + word.toNat) := by
  refine UInt8.toNat_inj.mp ?_
  rw [UInt8.toNat_or, UInt32.toNat_toUInt8, hopcode, Nat.mod_eq_of_lt (by omega),
    or_eq_add (by omega), UInt8.toNat_ofNat_of_lt' (by simp only [UInt8.size]; omega)]

section convert

variable {start : UInt32} {done rest : Bytes} {a b c d : UInt8}

/-- The distance as the source reads it. -/
theorem toNat_thumbSource (a b c d : UInt8) :
    (((b &&& 7).toUInt32 <<< 19 ||| a.toUInt32 <<< 11 ||| (d &&& 7).toUInt32 <<< 8
      ||| c.toUInt32) <<< 1).toNat
      = 2 * thumbDistance a.toNat (b.toNat % 8) c.toNat (d.toNat % 8) := by
  have ha := a.toNat_lt
  have hc := c.toNat_lt
  have hlow (x : UInt8) : (x &&& 7).toUInt32.toNat = x.toNat % 8 := by
    rw [UInt8.toNat_toUInt32, UInt8.toNat_and]
    exact Nat.and_two_pow_sub_one_eq_mod _ 3
  have hb : ((b &&& 7).toUInt32 <<< 19).toNat = b.toNat % 8 * 2 ^ 8 * 2 ^ 11 := by
    rw [UInt32.toNat_shiftLeft, hlow, Nat.shiftLeft_eq]
    show b.toNat % 8 * 2 ^ 19 % 2 ^ 32 = _
    omega
  have ha' : (a.toUInt32 <<< 11).toNat = a.toNat * 2 ^ 11 := by
    rw [UInt32.toNat_shiftLeft, UInt8.toNat_toUInt32, Nat.shiftLeft_eq]
    show a.toNat * 2 ^ 11 % 2 ^ 32 = _
    omega
  have hd : ((d &&& 7).toUInt32 <<< 8).toNat = d.toNat % 8 * 2 ^ 8 := by
    rw [UInt32.toNat_shiftLeft, hlow, Nat.shiftLeft_eq]
    show d.toNat % 8 * 2 ^ 8 % 2 ^ 32 = _
    omega
  have hor : (b.toNat % 8 * 2 ^ 8 * 2 ^ 11 ||| a.toNat * 2 ^ 11) = (b.toNat % 8 * 256 + a.toNat) * 2 ^ 11 := by
    rw [← Nat.shiftLeft_eq _ 11, ← Nat.shiftLeft_eq _ 11, ← Nat.shiftLeft_or_distrib, or_eq_add ha,
      Nat.shiftLeft_eq]
    omega
  rw [UInt32.toNat_shiftLeft, UInt32.toNat_or, UInt32.toNat_or, UInt32.toNat_or, hb, ha', hd,
    UInt8.toNat_toUInt32, Nat.shiftLeft_eq, hor, or_eq_add (by omega)]
  rw [show (b.toNat % 8 * 256 + a.toNat) * 2 ^ 11 + d.toNat % 8 * 2 ^ 8
    = ((b.toNat % 8 * 256 + a.toNat) * 8 + d.toNat % 8) * 2 ^ 8 by omega, or_eq_add (by exact hc), thumbDistance]
  show _ * 2 ^ 1 % 2 ^ 32 = _
  omega

/-- The pair in front is rewritten. -/
theorem convertArmThumb_done (hoffset : done.length + 4 < 2 ^ 64)
    (h : thumbCall.Recognized (leValue [a, b, c, d])) :
    (convertArmThumb start done.length b d (done ++ ([a, b, c, d] ++ rest))).result
      = .ok (done ++ (relocate thumbRelocations (start + UInt32.ofNat done.length) [a, b, c, d]
          ++ rest)) := by
  have hfirst : (byteAt (done ++ ([a, b, c, d] ++ rest)) done.length
      "ARM Thumb instruction is truncated").result = .ok a := by
    have hzero : [a, b, c, d][0]? = some a := rfl
    exact byteAt_front hzero _
  -- the distance that is written back
  generalize hdestination : (((b &&& 7).toUInt32 <<< 19 ||| a.toUInt32 <<< 11
    ||| (d &&& 7).toUInt32 <<< 8 ||| c.toUInt32) <<< 1
      - (start + UInt32.ofNat done.length + 4)) >>> 1 = destination
  have hmoved : destination.toNat % 2 ^ 22 = thumbCall.moved
      (((start + UInt32.ofNat done.length + 4).toNat + 1) / 2) (leValue [a, b, c, d]) := by
    have hword : leValue [a, b, c, d] = thumbWord a.toNat b.toNat c.toNat d.toNat := by
      simp only [leValue, thumbWord]
      omega
    obtain ⟨h₁, h₂, h₃, h₄⟩ := thumbWord_parts a.toNat b.toNat c.toNat d.toNat a.toNat_lt b.toNat_lt
      c.toNat_lt
    have hget : thumbCall.get (leValue [a, b, c, d])
        = thumbDistance a.toNat (b.toNat % 8) c.toNat (d.toNat % 8) := by
      show thumbDistance _ _ _ _ = _
      rw [hword, h₁, h₂, h₃, h₄]
    have hlt := thumbCall.get_lt h
    have hposition := (start + UInt32.ofNat done.length + 4).toNat_lt
    rw [Operand.moved, hget, ← hdestination, UInt32.toNat_shiftRight, UInt32.toNat_sub,
      toNat_thumbSource, Nat.shiftRight_eq_div_pow]
    rw [hget] at hlt
    show (2 ^ 32 - (start + UInt32.ofNat done.length + 4).toNat
      + 2 * thumbDistance a.toNat (b.toNat % 8) c.toNat (d.toNat % 8)) % 2 ^ 32 / 2 ^ 1 % 2 ^ 22
      = (_ + (2 ^ 22 - _ % 2 ^ 22)) % 2 ^ 22
    have hlt : thumbDistance a.toNat (b.toNat % 8) c.toNat (d.toNat % 8) < 2 ^ 22 := hlt
    omega
  have h₀ := toNat_bits destination 11 0xff 8 (by decide) rfl
  have h₁ := toNat_bits destination 19 7 3 (by decide) rfl
  have h₂ : (destination &&& 0xff).toNat = destination.toNat % 2 ^ 8 := by
    rw [UInt32.toNat_and]
    exact Nat.and_two_pow_sub_one_eq_mod _ 8
  have h₃ := toNat_bits destination 8 7 3 (by decide) rfl
  have hbytes : [((destination >>> 11) &&& 0xff).toUInt8,
      (0xf0 : UInt8) ||| ((destination >>> 19) &&& 7).toUInt8, (destination &&& 0xff).toUInt8,
      (0xf8 : UInt8) ||| ((destination >>> 8) &&& 7).toUInt8]
      = relocate thumbRelocations (start + UInt32.ofNat done.length) [a, b, c, d] := by
    have hbyte (word : UInt32) : word.toUInt8 = UInt8.ofNat word.toNat := rfl
    have hmove : relocate thumbOperands (start + UInt32.ofNat done.length) (leValue [a, b, c, d])
        = thumbWord (destination.toNat / 2 ^ 11 % 2 ^ 8) (30 * 2 ^ 3 + destination.toNat / 2 ^ 19 % 2 ^ 3)
          (destination.toNat % 2 ^ 8) (31 * 2 ^ 3 + destination.toNat / 2 ^ 8 % 2 ^ 3) := by
      refine (Operand.move_of_recognized h).trans ?_
      show thumbWord _ _ _ _ = _
      rw [← hmoved]
      congr 1 <;> omega
    have hwhole : (littleEndian 4).Whole [a, b, c, d] := rfl
    rw [thumbRelocations, Relocation.relocate_written fits_thumbOperands _ hwhole]
    show _ = leBytes 4 (relocate thumbOperands _ (leValue [a, b, c, d]))
    rw [hmove, leBytes_thumbWord _ _ _ _ (by omega) (by omega) (by omega) (by omega),
      or_opcode 0xf0 _ 30 rfl (by decide) (by rw [h₁]; exact Nat.mod_lt _ (by decide)),
      or_opcode 0xf8 _ 31 rfl (by decide) (by rw [h₃]; exact Nat.mod_lt _ (by decide)),
      hbyte, hbyte, h₀, h₁, h₂, h₃]
    rfl
  rw [← hbytes]
  refine Metered.bind_eq_ok.mpr ⟨a, hfirst, Metered.bind_eq_ok.mpr
    ⟨_, addOffset_ok (by omega) _, Metered.bind_eq_ok.mpr ⟨c, byteAt_front rfl _,
      Metered.bind_eq_ok.mpr ⟨_, lowU32Offset_eq _, ?_⟩⟩⟩⟩
  simp only [hdestination]
  refine Metered.bind_eq_ok.mpr ⟨_, wordToByte_eq (by rw [h₀]; exact Nat.mod_lt _ (by decide)) _,
    Metered.bind_eq_ok.mpr ⟨_, wordToByte_eq (by rw [h₁]; exact Nat.lt_trans (Nat.mod_lt _ (by decide)) (by decide)) _,
    Metered.bind_eq_ok.mpr ⟨_, wordToByte_eq (by rw [h₂]; exact Nat.mod_lt _ (by decide)) _,
    Metered.bind_eq_ok.mpr ⟨_, wordToByte_eq (by rw [h₃]; exact Nat.lt_trans (Nat.mod_lt _ (by decide)) (by decide)) _, ?_⟩⟩⟩⟩
  have hfront : [a, b, c, d].length = 4 := rfl
  exact writeSlice_done rfl (by rw [hfront]; exact hoffset)

end convert

/-! ### The walk of ARM Thumb -/

def thumbGait : Gait UInt32 UInt8 := relocating thumbCut thumbRelocations

theorem four_cases (rest : Bytes) :
    rest.length < 4 ∨ ∃ a b c d tail, rest = a :: b :: c :: d :: tail := by
  rcases rest with _ | ⟨a, _ | ⟨b, _ | ⟨c, _ | ⟨d, tail⟩⟩⟩⟩
  · exact .inl (by decide)
  · exact .inl (by simp)
  · exact .inl (by simp)
  · exact .inl (by simp)
  · exact .inr ⟨a, b, c, d, tail, rfl⟩

/-- Half a word is not relocated. -/
theorem relocate_thumb_half (ip : UInt32) {front : Bytes} (h : front.length = 2) :
    relocate thumbRelocations ip front = front := by
  refine Relocation.relocate_of_none (fun r hr => ?_) ip
  obtain rfl := List.mem_singleton.mp hr
  exact fun hrecognized => absurd (h.symm.trans hrecognized.1) (by decide)

section walk

variable {ip : UInt32} {a b c d : UInt8} {tail : Bytes}

theorem thumbCut_of_short {rest : Bytes} (h : rest.length < 4) : thumbCut rest = 0 := by
  rw [thumbCut, if_pos h]

theorem thumbCut_of_call (h : thumbCall.Recognized (leValue [a, b, c, d])) :
    thumbCut (a :: b :: c :: d :: tail) = 4 := by
  rw [thumbCut, if_neg (by simp), if_pos (by exact h)]

theorem thumbCut_of_none (h : ¬ thumbCall.Recognized (leValue [a, b, c, d])) :
    thumbCut (a :: b :: c :: d :: tail) = 2 := by
  rw [thumbCut, if_neg (by simp), if_neg (by exact h)]

theorem length_act_thumb {rest : Bytes} (h : thumbGait.Strides ip rest) :
    (thumbGait.act ip (thumbGait.front ip rest)).length = thumbGait.cut ip rest := by
  have hfront := Gait.length_front h
  rcases four_cases rest with hshort | ⟨a, b, c, d, tail, rfl⟩
  · have hcut : thumbGait.cut ip rest = 0 := thumbCut_of_short hshort
    exact absurd h.1 (by rw [hcut]; decide)
  · by_cases hcall : thumbCall.Recognized (leValue [a, b, c, d])
    · have hcut : thumbGait.cut ip (a :: b :: c :: d :: tail) = 4 := thumbCut_of_call hcall
      rw [hcut] at hfront ⊢
      exact Relocation.whole_relocate fits_thumbOperands ip hfront
    · have hcut : thumbGait.cut ip (a :: b :: c :: d :: tail) = 2 := thumbCut_of_none hcall
      rw [hcut] at hfront ⊢
      exact (congrArg List.length (relocate_thumb_half ip hfront)).trans hfront

/-- A call is rewritten to a call. -/
theorem walk_call (ip : UInt32) (tail : Bytes) (h : thumbCall.Recognized (leValue [a, b, c, d])) :
    ∃ a' b' c' d', thumbCall.Recognized (leValue [a', b', c', d']) ∧
      thumbGait.walk ip (a :: b :: c :: d :: tail)
        = a' :: b' :: c' :: d' :: thumbGait.walk (ip + UInt32.ofNat 4) tail := by
  have hcut : thumbGait.cut ip ([a, b, c, d] ++ tail) = 4 := thumbCut_of_call h
  have hwhole : (littleEndian 4).Whole [a, b, c, d] := rfl
  have hact := Relocation.whole_relocate fits_thumbOperands ip hwhole
  obtain ⟨a', b', c', d', hbytes⟩ := List.length_eq_four.mp hact
  have hstill : (thumbCall.through (littleEndian 4) fits_thumbCall).Recognized [a', b', c', d'] := by
    rw [← hbytes]
    exact Operand.recognized_move.mpr ⟨hwhole, h⟩
  have hwalk := Gait.walk_append (List.length_pos_of_ne_nil (List.cons_ne_nil _ _)) hcut
  rw [show thumbGait.act ip [a, b, c, d] = [a', b', c', d'] from hbytes] at hwalk
  exact ⟨a', b', c', d', hstill.2, hwalk⟩

/-- Half a word that is none is passed. -/
theorem walk_half (h : ¬ thumbCall.Recognized (leValue [a, b, c, d])) :
    thumbGait.walk ip (a :: b :: c :: d :: tail)
      = a :: b :: thumbGait.walk (ip + UInt32.ofNat 2) (c :: d :: tail) := by
  have hcut : thumbGait.cut ip ([a, b] ++ c :: d :: tail) = 2 := thumbCut_of_none h
  have htwo : [a, b].length = 2 := rfl
  have hhalf : thumbGait.act ip [a, b] = [a, b] := relocate_thumb_half ip htwo
  have hwalk := Gait.walk_append (List.length_pos_of_ne_nil (List.cons_ne_nil _ _)) hcut
  rwa [hhalf] at hwalk

theorem walk_short {rest : Bytes} (h : rest.length < 4) : thumbGait.walk ip rest = rest :=
  Gait.walk_of_not fun hstrides => absurd hstrides.1 (by
    rw [show thumbGait.cut ip rest = 0 from thumbCut_of_short h]
    decide)

/-- The bits that say what a half word is are kept. -/
theorem thumbGait_keeps (ip : UInt32) (a b : UInt8) (tail : Bytes) :
    ∃ a' b' tail', thumbGait.walk ip (a :: b :: tail) = a' :: b' :: tail' ∧
      b' &&& 0xf8 = b &&& 0xf8 := by
  rcases four_cases (a :: b :: tail) with hshort | ⟨_, _, c, d, rest, heq⟩
  · exact ⟨a, b, tail, walk_short hshort, rfl⟩
  · obtain ⟨rfl, hrest⟩ := List.cons.inj heq
    obtain ⟨rfl, rfl⟩ := List.cons.inj hrest
    by_cases hcall : thumbCall.Recognized (leValue [a, b, c, d])
    · obtain ⟨a', b', c', d', hstill, hwalk⟩ := walk_call ip rest hcall
      have hb := ((isThumbCall_iff a b c d).mpr hcall).1
      have hb' := ((isThumbCall_iff a' b' c' d').mpr hstill).1
      exact ⟨a', b', _, hwalk, hb'.trans hb.symm⟩
    · exact ⟨a, b, _, walk_half hcall, rfl⟩

end walk

theorem steady_thumbGait : thumbGait.Steady where
  length_act := length_act_thumb
  cut_walk ip rest := by
    rcases four_cases rest with hshort | ⟨a, b, c, d, tail, rfl⟩
    · rw [walk_short hshort]
    · by_cases hcall : thumbCall.Recognized (leValue [a, b, c, d])
      · obtain ⟨a', b', c', d', hstill, hwalk⟩ := walk_call ip tail hcall
        have hcut : thumbGait.cut ip (a :: b :: c :: d :: tail) = 4 := thumbCut_of_call hcall
        rw [hwalk, hcut]
        exact thumbCut_of_call hstill
      · obtain ⟨c', d', tail', hkept, hd⟩ := thumbGait_keeps (ip + UInt32.ofNat 2) c d tail
        have hstill : ¬ thumbCall.Recognized (leValue [a, b, c', d']) := by
          rwa [← isThumbCall_iff, hd, isThumbCall_iff a b c d]
        have hcut : thumbGait.cut ip (a :: b :: c :: d :: tail) = 2 := thumbCut_of_none hcall
        rw [walk_half hcall, hkept, hcut]
        exact thumbCut_of_none hstill
  next_act {ip rest} hrest := by
    show ip + UInt32.ofNat (thumbGait.act ip _).length = ip + UInt32.ofNat _
    rw [length_act_thumb hrest, Gait.length_front hrest]

theorem strides_thumbGait {ip : UInt32} {rest : Bytes} (h : thumbGait.Strides ip rest) :
    4 ≤ rest.length := by
  by_contra hshort
  have hcut : thumbGait.cut ip rest = 0 := thumbCut_of_short (by omega)
  exact absurd h.1 (by rw [hcut]; decide)

theorem takesStride_thumb {start : UInt32} {done rest : Bytes}
    (hlen : done.length + rest.length < 2 ^ 64) (hrest : 4 ≤ rest.length) :
    TakesStride thumbGait start (armThumbRound start) done rest := by
  rcases four_cases rest with hshort | ⟨a, b, c, d, tail, rfl⟩
  · omega
  · have hoffset : done.length + 4 < 2 ^ 64 := by
      simp only [List.length_cons] at hlen
      omega
    have hsecond : (byteAt (done ++ ([a, b, c, d] ++ tail)) (done.length + 1)
        "ARM Thumb instruction is truncated").result = .ok b := byteAt_front rfl _
    have hfourth : (byteAt (done ++ ([a, b, c, d] ++ tail)) (done.length + 3)
        "ARM Thumb instruction is truncated").result = .ok d := byteAt_front rfl _
    by_cases hcall : thumbCall.Recognized (leValue [a, b, c, d])
    · have hcut : thumbGait.cut (start + UInt32.ofNat done.length) ([a, b, c, d] ++ tail) = 4 :=
        thumbCut_of_call hcall
      refine takesStride_of (List.length_pos_of_ne_nil (List.cons_ne_nil _ _)) hcut ?_
      refine Metered.bind_eq_ok.mpr ⟨(), rfl, Metered.bind_eq_ok.mpr
        ⟨_, addOffset_ok (by omega) _, Metered.bind_eq_ok.mpr ⟨b, hsecond, Metered.bind_eq_ok.mpr
          ⟨_, addOffset_ok (by omega) _, Metered.bind_eq_ok.mpr ⟨d, hfourth, ?_⟩⟩⟩⟩⟩
      rw [if_pos ((isThumbCall_iff a b c d).mpr hcall)]
      exact Metered.bind_eq_ok.mpr ⟨_, convertArmThumb_done hoffset hcall, Metered.bind_eq_ok.mpr
        ⟨_, addOffset_ok (by omega) _, Metered.bind_eq_ok.mpr ⟨_, addOffset_ok (by omega) _, rfl⟩⟩⟩
    · have hcut : thumbGait.cut (start + UInt32.ofNat done.length) ([a, b] ++ c :: d :: tail) = 2 :=
        thumbCut_of_none hcall
      have htwo : [a, b].length = 2 := rfl
      have hhalf : thumbGait.act (start + UInt32.ofNat done.length) [a, b] = [a, b] :=
        relocate_thumb_half (start + UInt32.ofNat done.length) htwo
      refine takesStride_of (List.length_pos_of_ne_nil (List.cons_ne_nil _ _)) hcut ?_
      rw [hhalf]
      refine Metered.bind_eq_ok.mpr ⟨(), rfl, Metered.bind_eq_ok.mpr
        ⟨_, addOffset_ok (by omega) _, Metered.bind_eq_ok.mpr ⟨b, hsecond, Metered.bind_eq_ok.mpr
          ⟨_, addOffset_ok (by omega) _, Metered.bind_eq_ok.mpr ⟨d, hfourth, ?_⟩⟩⟩⟩⟩
      rw [if_neg (mt (isThumbCall_iff a b c d).mp hcall)]
      exact Metered.bind_eq_ok.mpr ⟨_, addOffset_ok (by omega) _, rfl⟩

theorem after_thumb {ip : UInt32} {rest : Bytes} (h : thumbGait.Strides ip rest) :
    thumbGait.after ip rest = ip + UInt32.ofNat (thumbGait.cut ip rest) :=
  congrArg (fun n => ip + UInt32.ofNat n) (Gait.length_front h)

/-- The filter walks over its input, from the start position on. -/
theorem decodeArmThumb_walk {properties : Bytes} {start : UInt32}
    (hstart : (startingPosition properties).result = .ok start) {bytes : Bytes}
    (hlen : bytes.length < 2 ^ 64) :
    (decodeArmThumb properties bytes).result = .ok (thumbGait.walk start bytes) := by
  unfold decodeArmThumb
  by_cases hshort : bytes.length < 4
  · rw [if_pos hshort, walk_short hshort]
    rfl
  · have hend : checkedSub bytes.length 4 = some (bytes.length - 4) :=
      checkedSub_of_le (by omega)
    rw [if_neg hshort]
    refine Metered.bind_eq_ok.mpr ⟨start, hstart, Metered.bind_eq_ok.mpr
      ⟨_, orFormat_eq_ok.mpr hend, ?_⟩⟩
    refine scanWhile_start length_act_thumb after_thumb (fun done rest hn hle => ?_)
      fun done rest hn hgt hstrides => ?_
    · exact takesStride_thumb (by omega) (by omega)
    · have hfour := strides_thumbGait hstrides
      omega

end CompatibilityFilters

end Un7z
