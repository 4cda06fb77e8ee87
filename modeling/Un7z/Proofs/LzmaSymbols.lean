/-
The decoder of LZMA operations inverts their coding.

The bits of a stream are handed to the decoder one by one, each to whoever asks for it by
the right name (`oracle`).  Each decoder of the symbol layer then reads exactly the bits
that the coding has for its value: trees in both directions, lengths, distances, literals,
and with them whole operations.  The state number and the repeat distances move along, and
the output is the history of the encoder, so the loop of `decode_stream` goes through a
sequence of operations step by step.
-/
import Mathlib.Tactic.Ring
import Un7z.LzmaCoding
import Un7z.Proofs.LzmaHistory

namespace Un7z

namespace Lzma

open Cursor (Decodes)
open LzmaCoding
open RangeCoder (Tag)

/-! ### Bits by their names -/

/-- The bits of a stream, for those who ask for them by name. -/
def oracle : Source (List Decision) where
  coded slot _ _ := fun decisions =>
    match decisions with
    | (.coded name, bit) :: rest =>
        if name = slot then pure (bit.toNat, rest) else formatErr "another bit comes next"
    | _ => formatErr "another bit comes next"
  direct := fun decisions =>
    match decisions with
    | (.direct, bit) :: rest => pure (bit.toNat, rest)
    | _ => formatErr "another bit comes next"

instance : Cursor (List Decision) Decision where
  rest := id
  Valid _ := True

section symbols

variable {slot : Slot} {slots : Nat → Slot} {bits : List Bool} {number : Nat}

theorem decodes_coded (slot : Slot) (bit : Bool) (row index : String) :
    Decodes (oracle.coded slot row index) [(.coded slot, bit)] bit.toNat := by
  rintro decisions tail - rfl
  exact ⟨tail, congrArg Metered.result (if_pos rfl), trivial, rfl⟩

theorem decodes_direct (bit : Bool) : Decodes oracle.direct [(.direct, bit)] bit.toNat := by
  rintro decisions tail - rfl
  exact ⟨tail, rfl, trivial, rfl⟩

/-- A bit in front of what else is read. -/
theorem decodes_coded_bind {α : Type} {f : Nat → StateT (List Decision) Work α}
    {word : List Decision} {a : α} {bit : Bool} {row index : String}
    (h : Decodes (f bit.toNat) word a) :
    Decodes (oracle.coded slot row index >>= f) ((.coded slot, bit) :: word) a :=
  (decodes_coded slot bit row index).bind h

/-- A value that is there is out of the way. -/
theorem decodes_some_bind {α β : Type} {f : β → StateT (List Decision) Work α}
    {word : List Decision} {a : α} {value : Option β} {b : β} {detail : String}
    (hvalue : value = some b) (h : Decodes (f b) word a) :
    Decodes (liftM (orFormat value detail) >>= f) word a :=
  Decodes.liftBind (orFormat_eq_ok.mpr hvalue) h

theorem toNat_le_one (bit : Bool) : bit.toNat ≤ 1 := by cases bit <;> decide

theorem toNat_inj {bit other : Bool} (h : bit.toNat = other.toNat) : bit = other := by
  revert bit other
  decide

/-! ### Trees -/

/-- Where a path ends. -/
def descend (bits : List Bool) (node : Nat) : Nat :=
  bits.foldl (fun node bit => 2 * node + bit.toNat) node

theorem descend_msb (count number node : Nat) :
    descend (BitString.msb count number) node = node * 2 ^ count + number % 2 ^ count := by
  induction count generalizing node with
  | zero => rw [Nat.pow_zero, Nat.mod_one, Nat.mul_one]; rfl
  | succ count ih =>
      have hbit : (decide (number / 2 ^ count % 2 = 1)).toNat = number / 2 ^ count % 2 := by
        rcases Nat.mod_two_eq_zero_or_one (number / 2 ^ count) with h | h <;> rw [h] <;> rfl
      have hsplit : number % 2 ^ (count + 1)
          = number / 2 ^ count % 2 * 2 ^ count + number % 2 ^ count := by
        rw [Nat.mod_pow_succ, Nat.mul_comm, Nat.add_comm]
      show descend (BitString.msb count number) (2 * node + _) = _
      rw [ih, hbit, hsplit, Nat.pow_succ, Nat.add_mul]
      ring_nf

theorem decodes_walkTree (row : String) {node : Nat} (h : (node + 1) * 2 ^ bits.length ≤ 2 ^ 16) :
    Decodes (walkTree oracle slots row bits.length node) (pathBits slots bits node)
      (descend bits node) := by
  induction bits generalizing node with
  | nil => exact Decodes.pure node
  | cons bit rest ih =>
      have hbit := toNat_le_one bit
      rw [List.length_cons, Nat.pow_succ] at h
      have hnode : node < 2 ^ 16 := by
        have hpos := Nat.two_pow_pos rest.length
        have hle : node + 1 ≤ (node + 1) * (2 ^ rest.length * 2) :=
          Nat.le_mul_of_pos_right _ (by omega)
        omega
      refine decodes_coded_bind (decodes_some_bind (nextNode_of_le hnode hbit) ?_)
      rw [Nat.mul_comm node 2]
      refine ih ?_
      calc (2 * node + bit.toNat + 1) * 2 ^ rest.length ≤ (2 * node + 2) * 2 ^ rest.length :=
            Nat.mul_le_mul_right _ (by omega)
        _ = (node + 1) * (2 ^ rest.length * 2) := by ring
        _ ≤ 2 ^ 16 := h

theorem decodes_decodeTree {width : Nat} (row : String) (hwidth : width ≤ 8)
    (h : number < 2 ^ width) :
    Decodes (decodeTree oracle slots width row) (treeBits slots width number) number := by
  have hpow : 2 ^ width ≤ 2 ^ 8 := Nat.pow_le_pow_right Nat.two_pos hwidth
  have hwalk := @decodes_walkTree slots (BitString.msb width number) row 1 (by
    rw [BitString.length_msb]
    omega)
  rw [BitString.length_msb, descend_msb, Nat.one_mul, Nat.mod_eq_of_lt h] at hwalk
  rw [← List.append_nil (treeBits slots width number)]
  refine hwalk.bind ?_
  refine decodes_some_bind (b := 2 ^ width) ?_ ?_
  · rw [checkedShl_of_lt (by omega), Nat.shiftLeft_eq, Nat.one_mul, Nat.mod_eq_of_lt (by omega)]
  refine decodes_some_bind (checkedSub_of_le (Nat.le_add_right _ _)) ?_
  rw [Nat.add_sub_cancel_left]
  exact Decodes.lift (orFormat_eq_ok.mpr (tryFrom_of_lt (by omega)))

theorem decodes_walkReverse (row : String) {shift node value : Nat}
    (h : (node + 1) * 2 ^ bits.length ≤ 2 ^ 16) (hvalue : value < 2 ^ shift)
    (hshift : shift + bits.length ≤ 16) :
    Decodes (walkReverse oracle slots row bits.length shift node value) (pathBits slots bits node)
      (value + BitString.ofLsb bits * 2 ^ shift) := by
  induction bits generalizing shift node value with
  | nil =>
      rw [BitString.ofLsb, Nat.zero_mul]
      exact Decodes.pure value
  | cons bit rest ih =>
      have hbit := toNat_le_one bit
      rw [List.length_cons] at h hshift
      rw [Nat.pow_succ] at h
      have hnode : node < 2 ^ 16 := by
        have hpos := Nat.two_pow_pos rest.length
        have hle : node + 1 ≤ (node + 1) * (2 ^ rest.length * 2) :=
          Nat.le_mul_of_pos_right _ (by omega)
        omega
      have hsmall : 2 ^ shift ≤ 2 ^ 15 := Nat.pow_le_pow_right Nat.two_pos (by omega)
      have hmul : bit.toNat * 2 ^ shift ≤ 1 * 2 ^ shift := Nat.mul_le_mul_right _ hbit
      have hshl : checkedShl 32 bit.toNat shift = some (bit.toNat <<< shift) := by
        rw [checkedShl_of_lt (by omega), Nat.mod_eq_of_lt]
        rw [Nat.shiftLeft_eq]
        omega
      have hor : value ||| bit.toNat <<< shift = value + bit.toNat * 2 ^ shift := by
        rw [Nat.or_comm, ← Nat.shiftLeft_add_eq_or_of_lt hvalue, Nat.shiftLeft_eq, Nat.add_comm]
      have hdigit : BitString.digit bit = bit.toNat := by cases bit <;> rfl
      refine decodes_coded_bind (decodes_some_bind hshl
        (decodes_some_bind (nextNode_of_le hnode hbit) ?_))
      rw [hor, Nat.mul_comm node 2]
      have hrest := @ih (shift + 1) (2 * node + bit.toNat) (value + bit.toNat * 2 ^ shift) ?_ ?_ ?_
      · have hsum : value + BitString.ofLsb (bit :: rest) * 2 ^ shift
            = value + bit.toNat * 2 ^ shift + BitString.ofLsb rest * 2 ^ (shift + 1) := by
          rw [BitString.ofLsb, hdigit, Nat.pow_succ]
          ring
        rw [hsum]
        exact hrest
      · calc (2 * node + bit.toNat + 1) * 2 ^ rest.length ≤ (2 * node + 2) * 2 ^ rest.length :=
              Nat.mul_le_mul_right _ (by omega)
          _ = (node + 1) * (2 ^ rest.length * 2) := by ring
          _ ≤ 2 ^ 16 := h
      · rw [Nat.pow_succ]
        omega
      · omega

theorem decodes_decodeReverse {width : Nat} (row : String) (hwidth : width ≤ 8)
    (h : number < 2 ^ width) :
    Decodes (decodeReverse oracle slots width row) (reverseBits slots width number) number := by
  have hpow : 2 ^ width ≤ 2 ^ 8 := Nat.pow_le_pow_right Nat.two_pos hwidth
  have hwalk := @decodes_walkReverse slots (BitString.lsb width number) row 0 1 0 (by
    rw [BitString.length_lsb]
    omega) Nat.one_pos (by
    rw [BitString.length_lsb]
    omega)
  rw [BitString.length_lsb, BitString.ofLsb_lsb, Nat.mod_eq_of_lt h, Nat.zero_add, Nat.pow_zero,
    Nat.mul_one] at hwalk
  exact hwalk

/-! ### Lengths and distances -/

theorem decodes_decodeLength (kind : LengthKind) (positionState : Nat) (h : number ≤ 271) :
    Decodes (decodeLength oracle kind positionState) (lengthBits kind positionState number)
      number := by
  unfold lengthBits
  by_cases hlow : number < 8
  · rw [if_pos hlow]
    exact decodes_coded_bind (decodes_decodeTree _ (by decide) hlow)
  rw [if_neg hlow]
  by_cases hmiddle : number < 16
  · rw [if_pos hmiddle]
    refine decodes_coded_bind (decodes_coded_bind ?_)
    have htree := @decodes_decodeTree (.middle kind positionState) (number - 8) 3
      "LZMA middle-length state is out of range" (by decide) (by omega)
    rw [← List.append_nil (treeBits _ _ _)]
    refine htree.bind (Decodes.lift (orFormat_eq_ok.mpr ?_))
    rw [checkedAdd_of_lt (by omega), Nat.sub_add_cancel (by omega)]
  · rw [if_neg hmiddle]
    refine decodes_coded_bind (decodes_coded_bind ?_)
    have htree := @decodes_decodeTree (.high kind) (number - 16) 8
      "LZMA high-length tree is missing" (by decide) (by omega)
    rw [← List.append_nil (treeBits _ _ _)]
    refine htree.bind (Decodes.lift (orFormat_eq_ok.mpr ?_))
    rw [checkedAdd_of_lt (by omega), Nat.sub_add_cancel (by omega)]

theorem decodes_decodeDirect {direct : Nat} (h : (direct + 1) * 2 ^ bits.length ≤ 2 ^ 31) :
    Decodes (decodeDirect oracle bits.length direct) (bits.map fun bit => (.direct, bit))
      (descend bits direct) := by
  induction bits generalizing direct with
  | nil => exact Decodes.pure direct
  | cons bit rest ih =>
      have hbit := toNat_le_one bit
      rw [List.length_cons, Nat.pow_succ] at h
      have hdirect : direct + 1 ≤ 2 ^ 31 := by
        have hpos := Nat.two_pow_pos rest.length
        have hle : direct + 1 ≤ (direct + 1) * (2 ^ rest.length * 2) :=
          Nat.le_mul_of_pos_right _ (by omega)
        omega
      have hnext : ((checkedShl 32 direct 1).bind fun value => checkedAdd 32 value bit.toNat)
          = some (2 * direct + bit.toNat) := by
        have hdouble : direct * 2 + 2 ≤ 2 ^ 31 := by
          have hpos := Nat.two_pow_pos rest.length
          have hle : (direct + 1) * 2 ≤ (direct + 1) * (2 ^ rest.length * 2) :=
            Nat.mul_le_mul_left _ (by omega)
          omega
        rw [checkedShl_of_lt (by decide), Option.bind_some, Nat.shiftLeft_eq,
          Nat.mod_eq_of_lt (by omega), checkedAdd_of_lt (by omega), Nat.mul_comm direct]
      refine (decodes_direct bit).bind (decodes_some_bind hnext (ih ?_))
      calc (2 * direct + bit.toNat + 1) * 2 ^ rest.length ≤ (2 * direct + 2) * 2 ^ rest.length :=
            Nat.mul_le_mul_right _ (by omega)
        _ = (direct + 1) * (2 ^ rest.length * 2) := by ring
        _ ≤ 2 ^ 31 := h

/-- A distance is the two high bits of its slot, and the bits below them. -/
theorem distanceSlot_of_ge (h : 4 ≤ number) :
    ∃ width upper, distanceSlot number = 2 * (width + 1) + upper ∧ 1 ≤ width ∧ upper < 2 ∧
      number = (2 + upper) * 2 ^ width + number % 2 ^ width := by
  have hne : number ≠ 0 := by omega
  have hlow : 2 ^ Nat.log2 number ≤ number := Nat.log2_self_le hne
  have hhigh : number < 2 ^ (Nat.log2 number + 1) := Nat.lt_log2_self
  have htwo : 2 ≤ Nat.log2 number := (Nat.le_log2 hne).mpr h
  obtain ⟨width, hwidth⟩ : ∃ width, Nat.log2 number = width + 1 :=
    ⟨Nat.log2 number - 1, by omega⟩
  rw [hwidth] at hlow hhigh htwo
  have hpos := Nat.two_pow_pos width
  refine ⟨width, number / 2 ^ width % 2, ?_, by omega, Nat.mod_lt _ Nat.two_pos, ?_⟩
  · unfold distanceSlot
    rw [if_neg (Nat.not_lt.mpr h), hwidth, Nat.add_sub_cancel]
  · -- The quotient by the width is two or three.
    have hge : 2 ≤ number / 2 ^ width := by
      rw [Nat.le_div_iff_mul_le hpos, Nat.mul_comm, ← Nat.pow_succ]
      exact hlow
    have hlt : number / 2 ^ width < 4 := by
      rw [Nat.div_lt_iff_lt_mul hpos]
      calc number < 2 ^ (width + 1 + 1) := hhigh
        _ = 4 * 2 ^ width := by ring
    have hquotient : 2 + number / 2 ^ width % 2 = number / 2 ^ width := by omega
    rw [hquotient, Nat.mul_comm]
    exact (Nat.div_add_mod _ _).symm

theorem distanceSlot_of_lt (h : number < 4) : distanceSlot number = number := if_pos h

theorem distanceSlot_lt (h : number < 2 ^ 32) : distanceSlot number < 2 ^ 6 := by
  by_cases hsmall : number < 4
  · rw [distanceSlot_of_lt hsmall]
    omega
  · obtain ⟨width, upper, hslot, -, hupper, hnumber⟩ := distanceSlot_of_ge (Nat.not_lt.mp hsmall)
    have hwidth : width < 31 := by
      by_contra hlarge
      have hpow : 2 ^ 31 ≤ 2 ^ width := Nat.pow_le_pow_right Nat.two_pos (by omega)
      have hmul : 2 * 2 ^ width ≤ (2 + upper) * 2 ^ width := Nat.mul_le_mul_right _ (by omega)
      omega
    omega

/-- What the bits below a slot add to its two high bits. -/
theorem decodes_footer {width upper : Nat} (hwidth : 1 ≤ width) (hupper : upper < 2)
    (hslot : distanceSlot number = 2 * (width + 1) + upper)
    (hnumber : number = (2 + upper) * 2 ^ width + number % 2 ^ width) (h : number < 2 ^ 32) :
    Decodes
      (if distanceSlot number < endPositionModel then do
        let model ← orFormat (checkedSub (distanceSlot number) startPositionModel)
          "LZMA position-model index underflows"
        let suffix ← decodeReverse oracle (.positionModel model) (positionModelBits model)
          "LZMA position-model index is out of range"
        orFormat (checkedAdd 32 ((2 + upper) * 2 ^ width) suffix) "LZMA distance overflows"
      else do
        let directBits ← orFormat (checkedSub width alignBits) "LZMA direct-distance width underflows"
        let direct ← decodeDirect oracle directBits 0
        let direct ← orFormat (checkedShl 32 direct alignBits) "LZMA direct distance overflows"
        let alignment ← decodeReverse oracle .alignment alignBits "LZMA alignment tree is missing"
        orFormat ((checkedAdd 32 ((2 + upper) * 2 ^ width) direct).bind fun value =>
          checkedAdd 32 value alignment) "LZMA distance overflows" :
        StateT (List Decision) Work Nat)
      (footerBits (distanceSlot number) number) number := by
  have hhalf : distanceSlot number / 2 - 1 = width := by omega
  have hlow : number % 2 ^ width < 2 ^ width := Nat.mod_lt _ (Nat.two_pow_pos width)
  unfold footerBits
  dsimp only
  rw [hhalf, if_neg (show ¬ distanceSlot number < 4 by omega)]
  by_cases hmodel : distanceSlot number < 14
  · have hbits : positionModelBits (distanceSlot number - 4) = width := by
      rw [positionModelBits, startPositionModel, Nat.sub_add_cancel (by omega),
        Nat.shiftRight_eq_div_pow, Nat.pow_one, hhalf]
    rw [if_pos hmodel, if_pos (show distanceSlot number < endPositionModel from hmodel)]
    refine decodes_some_bind (checkedSub_of_le (show 4 ≤ distanceSlot number by omega)) ?_
    rw [show distanceSlot number - startPositionModel = distanceSlot number - 4 from rfl, hbits]
    rw [← List.append_nil (reverseBits _ _ _)]
    refine (decodes_decodeReverse _ (by omega) hlow).bind (Decodes.lift (orFormat_eq_ok.mpr ?_))
    rw [checkedAdd_of_lt (by omega), ← hnumber]
  · rw [if_neg hmodel, if_neg (show ¬ distanceSlot number < endPositionModel from hmodel)]
    have hfour : 4 ≤ width := by omega
    have hpow : 2 ^ width = 2 ^ (width - 4) * 2 ^ 4 := by
      rw [← Nat.pow_add, Nat.sub_add_cancel hfour]
    have hdirect : number % 2 ^ width / 16 < 2 ^ (width - 4) := by omega
    have halign : number % 16 = number % 2 ^ width % 16 := by
      have hdvd : 16 ∣ 2 ^ width := ⟨2 ^ (width - 4), by omega⟩
      exact (Nat.mod_mod_of_dvd number hdvd).symm
    have hmul : 2 * 2 ^ width ≤ (2 + upper) * 2 ^ width := Nat.mul_le_mul_right _ (by omega)
    have hword := @decodes_decodeDirect (BitString.msb (width - 4) (number % 2 ^ width / 16)) 0 (by
      rw [BitString.length_msb]
      omega)
    rw [BitString.length_msb, descend_msb, Nat.zero_mul, Nat.zero_add,
      Nat.mod_eq_of_lt hdirect] at hword
    refine decodes_some_bind (checkedSub_of_le hfour) (hword.bind ?_)
    have hshl : checkedShl 32 (number % 2 ^ width / 16) alignBits
        = some (number % 2 ^ width / 16 * 16) := by
      rw [alignBits, checkedShl_of_lt (by decide), Nat.shiftLeft_eq, Nat.mod_eq_of_lt (by omega)]
    refine decodes_some_bind hshl ?_
    rw [← List.append_nil (reverseBits _ _ _)]
    refine (decodes_decodeReverse _ (by decide) (show number % 16 < 2 ^ 4 by omega)).bind
      (Decodes.lift (orFormat_eq_ok.mpr ?_))
    rw [checkedAdd_of_lt (by omega), Option.bind_some, checkedAdd_of_lt (by omega), Nat.add_assoc,
      halign, Nat.div_add_mod', ← hnumber]

theorem decodes_decodeDistance (length : Nat) (h : number < 2 ^ 32) :
    Decodes (decodeDistance oracle length) (distanceBits length number) number := by
  unfold distanceBits
  have hslot : Decodes (decodeTree oracle (.positionSlot (min length 3)) 6
      "LZMA position-slot state is out of range")
      (treeBits (.positionSlot (min length 3)) 6 (distanceSlot number)) (distanceSlot number) :=
    decodes_decodeTree _ (by decide) (distanceSlot_lt h)
  refine hslot.bind ?_
  by_cases hsmall : number < 4
  · have hself := distanceSlot_of_lt hsmall
    rw [if_pos (show distanceSlot number < startPositionModel by rw [hself]; exact hsmall), hself]
    unfold footerBits
    dsimp only
    rw [if_pos hsmall]
    exact Decodes.pure number
  · obtain ⟨width, upper, hslot, hwidth, hupper, hnumber⟩ :=
      distanceSlot_of_ge (Nat.not_lt.mp hsmall)
    have hfooter := decodes_footer hwidth hupper hslot hnumber h
    have hmul : 2 * 2 ^ width ≤ (2 + upper) * 2 ^ width := Nat.mul_le_mul_right _ (by omega)
    have hone : distanceSlot number &&& 1 = upper := by
      rw [Nat.and_one_is_mod]
      omega
    have hupper' : 2 ||| upper = 2 + upper := by
      obtain rfl | rfl : upper = 0 ∨ upper = 1 := by omega
      · rfl
      · rfl
    have hbase : checkedShl 32 (2 ||| (distanceSlot number &&& 1)) width
        = some ((2 + upper) * 2 ^ width) := by
      have hlt : width < 32 := by
        have hbound := distanceSlot_lt h
        omega
      rw [hone, hupper', checkedShl_of_lt hlt, Nat.shiftLeft_eq, Nat.mod_eq_of_lt (by omega)]
    have hbits : checkedSub (distanceSlot number >>> 1) 1 = some width := by
      rw [Nat.shiftRight_eq_div_pow, Nat.pow_one, checkedSub_of_le (by omega)]
      congr 1
      omega
    rw [if_neg (show ¬ distanceSlot number < startPositionModel by
      rw [startPositionModel]
      omega)]
    exact decodes_some_bind hbits (decodes_some_bind hbase hfooter)

/-! ### Literals -/

theorem decodes_decodePlain {base fuel done symbol : Nat} (hbase : base < 2 ^ 32)
    (hbits : done + bits.length = 8) (hsymbol : IsSymbol done symbol)
    (hfuel : bits.length < fuel) :
    Decodes (decodePlain oracle base fuel symbol)
      (pathBits (fun node => .literal (base + node)) bits symbol) (descend bits symbol) := by
  induction bits generalizing fuel done symbol with
  | nil =>
      obtain ⟨fuel, rfl⟩ : ∃ less, fuel = less + 1 := ⟨fuel - 1, by omega⟩
      obtain rfl : done = 8 := hbits
      have hend : ¬ symbol < 0x100 := Nat.not_lt.mpr hsymbol.1
      unfold decodePlain
      rw [if_neg hend]
      exact Decodes.pure symbol
  | cons bit rest ih =>
      obtain ⟨fuel, rfl⟩ : ∃ less, fuel = less + 1 := ⟨fuel - 1, by omega⟩
      rw [List.length_cons] at hbits hfuel
      have hbit := toNat_le_one bit
      have hpow : 2 ^ (done + 1) ≤ 2 ^ 8 := Nat.pow_le_pow_right Nat.two_pos (by omega)
      have hlt : symbol < 0x100 := Nat.lt_of_lt_of_le hsymbol.2 hpow
      unfold decodePlain
      rw [if_pos hlt]
      refine decodes_some_bind (checkedAdd_of_lt (by omega)) (decodes_coded_bind
        (decodes_some_bind (nextSymbol_of_le (by omega) hbit) ?_))
      have hrest := ih (by omega) (hsymbol.next hbit) (by omega : rest.length < fuel)
      rwa [Nat.mul_comm symbol 2] at hrest ⊢

/-- The bit of the other byte that comes next is at the front of what is left of it. -/
theorem matchBit_eq {other done count : Nat} (h : done + count = 7) :
    (other * 2 ^ done) >>> 7 &&& 1 = (decide (other / 2 ^ count % 2 = 1)).toNat := by
  have hseven : 2 ^ 7 = 2 ^ count * 2 ^ done := by rw [← Nat.pow_add, Nat.add_comm count, h]
  rw [Nat.shiftRight_eq_div_pow, hseven, Nat.mul_div_mul_right _ _ (Nat.two_pow_pos done),
    Nat.and_one_is_mod]
  rcases Nat.mod_two_eq_zero_or_one (other / 2 ^ count) with h | h <;> rw [h] <;> rfl

/-- One bit of a matched literal, and what comes after it. -/
theorem decodes_decodeMatched_succ {base fuel done count symbol other last : Nat} {bit : Bool}
    {word : List Decision} (hbase : base < 2 ^ 32) (hother : other < 2 ^ 8)
    (hdone : done + count = 7) (hsymbol : IsSymbol done symbol)
    (h : Decodes
      (if (decide (other / 2 ^ count % 2 = 1)).toNat ≠ bit.toNat ∨ 2 * symbol + bit.toNat ≥ 0x100
        then pure (2 * symbol + bit.toNat)
        else decodeMatched oracle base fuel (other * 2 ^ (done + 1)) (2 * symbol + bit.toNat))
      word last) :
    Decodes (decodeMatched oracle base (fuel + 1) (other * 2 ^ done) symbol)
      ((.coded (.literal (base + (1 + (decide (other / 2 ^ count % 2 = 1)).toNat) * 0x100
        + symbol)), bit) :: word) last := by
  have hbit := toNat_le_one bit
  have hhead := toNat_le_one (decide (other / 2 ^ count % 2 = 1))
  have hpow : 2 ^ (done + 1) ≤ 2 ^ 8 := Nat.pow_le_pow_right Nat.two_pos (by omega)
  have hlt : symbol < 2 ^ 8 := Nat.lt_of_lt_of_le hsymbol.2 hpow
  have hshifted : ((other * 2 ^ done) <<< 1) % 2 ^ 32 = other * 2 ^ (done + 1) := by
    have hle : other * 2 ^ (done + 1) ≤ 2 ^ 8 * 2 ^ 8 :=
      Nat.mul_le_mul (Nat.le_of_lt hother) hpow
    rw [Nat.shiftLeft_eq, Nat.pow_one, Nat.mul_assoc, ← Nat.pow_succ]
    exact Nat.mod_eq_of_lt (show other * 2 ^ (done + 1) < 2 ^ 32 by omega)
  have hindex := matchedIndex_eq hlt (other * 2 ^ done)
  rw [matchBit_eq hdone] at hindex
  unfold decodeMatched
  dsimp only
  rw [matchBit_eq hdone, hshifted]
  refine decodes_some_bind hindex (decodes_some_bind (checkedAdd_of_lt (by omega)) ?_)
  rw [← Nat.add_assoc]
  refine decodes_coded_bind (decodes_some_bind (nextSymbol_of_le (by omega) hbit) ?_)
  rwa [Nat.mul_comm symbol 2]

/-- The loop of a matched literal reads up to the first bit that differs, and leaves the others
to the loop of a plain one. -/
theorem decodes_decodeMatched {base fuel done symbol other : Nat} (hbase : base < 2 ^ 32)
    (hother : other < 2 ^ 8) (hbits : done + bits.length = 8) (hsymbol : IsSymbol done symbol)
    (hfuel : bits.length ≤ fuel) (hnonempty : bits ≠ []) :
    ∃ word rest last done', matchedBits base bits (BitString.msb bits.length other) symbol
        = word ++ pathBits (fun node => .literal (base + node)) rest last ∧
      Decodes (decodeMatched oracle base fuel (other * 2 ^ done) symbol) word last ∧
      descend bits symbol = descend rest last ∧ done' + rest.length = 8 ∧
      IsSymbol done' last := by
  induction bits generalizing fuel done symbol with
  | nil => exact absurd rfl hnonempty
  | cons bit rest ih =>
      obtain ⟨fuel, rfl⟩ : ∃ less, fuel = less + 1 := ⟨fuel - 1, by
        rw [List.length_cons] at hfuel
        omega⟩
      rw [List.length_cons] at hbits hfuel
      have hnext := hsymbol.next (toNat_le_one bit)
      rw [Nat.mul_comm symbol 2] at hnext
      have hcons : matchedBits base (bit :: rest) (BitString.msb (rest.length + 1) other) symbol
          = (.coded (.literal (base + (1 + (decide (other / 2 ^ rest.length % 2 = 1)).toNat) * 0x100
              + symbol)), bit) ::
            if bit = decide (other / 2 ^ rest.length % 2 = 1) then
              matchedBits base rest (BitString.msb rest.length other) (2 * symbol + bit.toNat)
            else
              pathBits (fun node => .literal (base + node)) rest (2 * symbol + bit.toNat) := rfl
      have hsucc := @decodes_decodeMatched_succ base fuel done rest.length symbol other
      rw [List.length_cons, hcons]
      by_cases hsame : bit = decide (other / 2 ^ rest.length % 2 = 1)
      · rw [if_pos hsame]
        cases rest with
        | nil =>
            -- The last bit ends the symbol.
            obtain rfl : done = 7 := by
              rw [List.length_nil] at hbits
              omega
            refine ⟨[_], [], 2 * symbol + bit.toNat, 8, rfl,
              hsucc hbase hother rfl hsymbol ?_, rfl, rfl, hnext⟩
            have hend : 2 * symbol + bit.toNat ≥ 0x100 := hnext.1
            rw [if_pos (Or.inr hend)]
            exact Decodes.pure _
        | cons second rest =>
            obtain ⟨word, left, last, done', hword, hdecodes, hdescend, hdone', hlast⟩ :=
              @ih fuel (done + 1) (2 * symbol + bit.toNat) (by omega) hnext (by omega)
                (List.cons_ne_nil _ _)
            refine ⟨_ :: word, left, last, done', congrArg _ hword,
              hsucc hbase hother (by omega) hsymbol ?_, hdescend, hdone', hlast⟩
            have hpow : 2 ^ (done + 1 + 1) ≤ 2 ^ 8 := by
              rw [List.length_cons] at hbits
              exact Nat.pow_le_pow_right Nat.two_pos (by omega)
            have hgo : ¬ ((decide (other / 2 ^ (second :: rest).length % 2 = 1)).toNat ≠ bit.toNat ∨
                2 * symbol + bit.toNat ≥ 0x100) := by
              rintro (hdiffers | hlarge)
              · exact hdiffers (congrArg Bool.toNat hsame.symm)
              · exact absurd (Nat.lt_of_lt_of_le hnext.2 hpow) (Nat.not_lt.mpr hlarge)
            rwa [if_neg hgo]
      · rw [if_neg hsame]
        refine ⟨[_], rest, 2 * symbol + bit.toNat, done + 1, rfl,
          hsucc hbase hother (by omega) hsymbol ?_, rfl, by omega, hnext⟩
        have hdiffers : (decide (other / 2 ^ rest.length % 2 = 1)).toNat ≠ bit.toNat :=
          fun heq => hsame (toNat_inj heq.symm)
        rw [if_pos (Or.inl hdiffers)]
        exact Decodes.pure _

/-- A byte at a distance behind the end. -/
theorem matchByte_eq (output : Output) (offset : Nat) :
    output.matchByte offset = output.bytes.reverse[offset]?.getD 0 := by
  unfold Output.matchByte
  by_cases h : offset < output.bytes.length
  · have hindex : output.bytes.length - 1 - offset = output.bytes.length - (offset + 1) := by omega
    rw [checkedSub_of_le h, Option.bind_some, List.getElem?_reverse h, hindex]
  · have hnone : checkedSub output.bytes.length (offset + 1) = none := if_neg h
    rw [hnone, List.getElem?_eq_none (by simpa using h)]
    rfl

theorem literalBase_eq (properties : Properties) (state : LzmaCoding.State) :
    literalContext properties.lc properties.lp state.history.length
        ((state.history.getLast?.getD 0).toNat >>> (8 - properties.lc)) * 0x300
      = state.literalBase properties := by
  rw [Nat.shiftRight_eq_div_pow]
  rfl

theorem decodes_decodeLiteral {properties : Properties} {state : LzmaCoding.State}
    (h : properties.lc + properties.lp ≤ 4) (byte : UInt8) :
    Decodes
      (decodeLiteral oracle properties.lc properties.lp state.number
        (state.history.reverse[state.repeats 0]?.getD 0) (state.history.getLast?.getD 0)
        state.history.length)
      (state.literalBits properties byte) byte := by
  have hresult := result_literalBase h (state.history.getLast?.getD 0) state.history.length
  have hcontext := @literalContext_lt properties.lc properties.lp _
    (previousPart_lt (show properties.lc ≤ 8 by omega) (state.history.getLast?.getD 0))
    state.history.length
  have hcontexts : 2 ^ (properties.lc + properties.lp) ≤ 2 ^ 4 :=
    Nat.pow_le_pow_right Nat.two_pos h
  rw [literalBase_eq] at hresult
  have hbase : state.literalBase properties < 2 ^ 32 := by
    rw [← literalBase_eq]
    omega
  have hbyte : byte.toNat < 2 ^ 8 := UInt8.toNat_lt byte
  have hend : descend (BitString.msb 8 byte.toNat) 1 = 0x100 + byte.toNat := by
    rw [descend_msb, Nat.mod_eq_of_lt hbyte, Nat.one_mul]
    rfl
  -- What the first loop reads, and where it leaves the symbol.
  obtain ⟨word, rest, last, done, hword, hmatched, hlast, hdone, hsymbol⟩ :
      ∃ word rest last done, state.literalBits properties byte
          = word ++ pathBits (fun node => .literal (state.literalBase properties + node)) rest last ∧
        Decodes
          (if state.number ≥ 7 then
              decodeMatched oracle (state.literalBase properties) 8
                (state.history.reverse[state.repeats 0]?.getD 0).toNat 1
            else pure 1) word last ∧
        descend (BitString.msb 8 byte.toNat) 1 = descend rest last ∧ done + rest.length = 8 ∧
        IsSymbol done last := by
    have hone : IsSymbol 0 1 := ⟨Nat.le_refl 1, Nat.lt_succ_self 1⟩
    unfold State.literalBits
    dsimp only
    by_cases hplain : state.number < 7
    · rw [if_pos hplain, if_neg (Nat.not_le.mpr hplain)]
      exact ⟨[], _, 1, 0, rfl, Decodes.pure 1, rfl, rfl, hone⟩
    · rw [if_neg hplain, if_pos (Nat.not_lt.mp hplain)]
      have hfirst := @decodes_decodeMatched (BitString.msb 8 byte.toNat)
        (state.literalBase properties) 8 0 1
        (state.history.reverse[state.repeats 0]?.getD 0).toNat hbase (UInt8.toNat_lt _) rfl hone
        (Nat.le_refl 8) (by simp [BitString.msb])
      rwa [Nat.pow_zero, Nat.mul_one] at hfirst
  rw [hword]
  refine Decodes.liftBind hresult (hmatched.bind ?_)
  rw [← List.append_nil (pathBits _ _ _)]
  refine (decodes_decodePlain hbase hdone hsymbol (by omega)).bind ?_
  rw [← hlast, hend]
  refine decodes_some_bind (checkedSub_of_le (Nat.le_add_right _ _)) ?_
  rw [Nat.add_sub_cancel_left]
  refine decodes_some_bind (tryFrom_of_lt hbyte) ?_
  rw [UInt8.ofNat_toNat]
  exact Decodes.pure byte

/-! ### Operations -/

/-- The tables of the coding are the updates of the decoder. -/
theorem next_eq : ∀ number < 12,
    literalNext.getD number 0
        = (if number < 4 then 0 else if number < 10 then number - 3 else number - 6) ∧
      matchNext.getD number 0 = (if number < 7 then 7 else 10) ∧
      repeatNext.getD number 0 = (if number < 7 then 8 else 11) ∧
      shortRepeatNext.getD number 0 = (if number < 7 then 9 else 11) := by
  decide

variable {properties : Properties} {state : LzmaCoding.State} {positionState : Nat}

/-- There are twelve states. -/
theorem next_lt : ∀ number < 12, literalNext.getD number 0 < 12 ∧ matchNext.getD number 0 < 12 ∧
    repeatNext.getD number 0 < 12 ∧ shortRepeatNext.getD number 0 < 12 := by
  decide

theorem number_step (hnumber : state.number < 12) (step : Step) : (state.step step).number < 12 := by
  obtain ⟨hliteral, hmatch, hrepeat, hshort⟩ := next_lt state.number hnumber
  cases step with
  | literal byte => exact hliteral
  | «match» distance length => exact hmatch
  | shortRepeat => exact hshort
  | repeated index length => exact hrepeat

theorem decodes_decodeMatch {distance length : Nat} (hnumber : state.number < 12)
    (hpos : 1 ≤ distance) (hlt : distance < 2 ^ 32) (htwo : 2 ≤ length) (hlong : length ≤ 273) :
    Decodes (decodeMatch oracle (state.held properties) positionState)
      (lengthBits .match positionState (length - 2) ++ distanceBits (length - 2) (distance - 1))
      (.match distance length, (state.step (.match distance length)).held properties) := by
  obtain ⟨-, hmatch, -, -⟩ := next_eq state.number hnumber
  refine decodes_some_bind (b := state.repeats 0) rfl (decodes_some_bind (b := state.repeats 1) rfl
    (decodes_some_bind (b := state.repeats 2) rfl ?_))
  refine (decodes_decodeLength .match positionState (by omega)).bind ?_
  rw [← List.append_nil (distanceBits _ _)]
  refine (decodes_decodeDistance _ (by omega)).bind ?_
  rw [if_neg (show distance - 1 ≠ eosDistance by rw [eosDistance]; omega)]
  refine decodes_some_bind (checkedAdd_of_lt (by omega)) ?_
  refine decodes_some_bind (checkedAdd_of_lt (by rw [minMatchLength]; omega)) ?_
  rw [Nat.sub_add_cancel hpos, minMatchLength, Nat.sub_add_cancel htwo]
  show Decodes (pure (Operation.match distance length, LzmaState.mk
    [distance - 1, state.repeats 0, state.repeats 1, state.repeats 2]
    (if state.number < 7 then 7 else 10) properties.lc properties.lp (2 ^ properties.pb - 1))) [] _
  rw [← hmatch]
  exact Decodes.pure _

theorem decodes_finishRepetition {index : Fin 4} {length : Nat} {next : LzmaState}
    (hnumber : state.number < 12)
    (hrepeats : next = ⟨[rotate state.repeats index 0, rotate state.repeats index 1,
      rotate state.repeats index 2, rotate state.repeats index 3], state.number, properties.lc,
      properties.lp, 2 ^ properties.pb - 1⟩)
    (hlt : state.repeats index + 1 < 2 ^ 32) (htwo : 2 ≤ length) (hlong : length ≤ 273) :
    Decodes (finishRepetition oracle next (state.repeats index) positionState)
      (lengthBits .repetition positionState (length - 2))
      (.match (state.repeats index + 1) length,
        (state.step (.repeated index length)).held properties) := by
  obtain ⟨-, -, hrepeat, -⟩ := next_eq state.number hnumber
  subst hrepeats
  rw [← List.append_nil (lengthBits _ _ _)]
  refine (decodes_decodeLength .repetition positionState (by omega)).bind ?_
  refine decodes_some_bind (checkedAdd_of_lt hlt) ?_
  refine decodes_some_bind (checkedAdd_of_lt (by rw [minMatchLength]; omega)) ?_
  rw [minMatchLength, Nat.sub_add_cancel htwo]
  show Decodes (pure (Operation.match (state.repeats index + 1) length, LzmaState.mk
    [rotate state.repeats index 0, rotate state.repeats index 1, rotate state.repeats index 2,
      rotate state.repeats index 3] (if state.number < 7 then 8 else 11) properties.lc
    properties.lp (2 ^ properties.pb - 1))) [] _
  rw [← hrepeat]
  exact Decodes.pure _

/-- A distance that is not the last one comes to the front. -/
theorem decodes_chooseRepetition (state : LzmaCoding.State) :
    (Decodes (chooseRepetition oracle (state.held properties))
      [(.coded (.isRepOne state.number), false)] (state.repeats 1, state.held properties)) ∧
    (Decodes (chooseRepetition oracle (state.held properties))
      [(.coded (.isRepOne state.number), true), (.coded (.isRepTwo state.number), false)]
      (state.repeats 2, (state.held properties).setRepetition 2 (state.repeats 1))) ∧
    (Decodes (chooseRepetition oracle (state.held properties))
      [(.coded (.isRepOne state.number), true), (.coded (.isRepTwo state.number), true)]
      (state.repeats 3, ((state.held properties).setRepetition 3 (state.repeats 2)).setRepetition 2
        (state.repeats 1))) := by
  refine ⟨?_, ?_, ?_⟩
  · exact decodes_coded_bind (decodes_some_bind (b := state.repeats 1) rfl (Decodes.pure _))
  · refine decodes_coded_bind (decodes_coded_bind ?_)
    refine Decodes.liftBind (a := (state.repeats 2, state.held properties)) rfl ?_
    exact decodes_some_bind (b := state.repeats 1) rfl (Decodes.pure _)
  · refine decodes_coded_bind (decodes_coded_bind ?_)
    refine Decodes.liftBind
      (a := (state.repeats 3, (state.held properties).setRepetition 3 (state.repeats 2))) rfl ?_
    exact decodes_some_bind (b := state.repeats 1) rfl (Decodes.pure _)

theorem decodes_decodeRepetition {index : Fin 4} {length : Nat} (hnumber : state.number < 12)
    (hlt : state.repeats index + 1 < 2 ^ 32) (htwo : 2 ≤ length) (hlong : length ≤ 273) :
    Decodes
      (decodeRepetition oracle (state.held properties)
        (state.number * 16 + state.positionState properties) (state.positionState properties))
      (state.repeatBits properties index ++
        lengthBits .repetition (state.positionState properties) (length - 2))
      (.match (state.repeats index + 1) length,
        (state.step (.repeated index length)).held properties) := by
  have hfinish : ∀ {next : LzmaState}, next = ⟨[rotate state.repeats index 0,
        rotate state.repeats index 1, rotate state.repeats index 2, rotate state.repeats index 3],
      state.number, properties.lc, properties.lp, 2 ^ properties.pb - 1⟩ →
      Decodes (finishRepetition oracle next (state.repeats index) (state.positionState properties))
        (lengthBits .repetition (state.positionState properties) (length - 2)) _ :=
    fun hnext => decodes_finishRepetition hnumber hnext hlt htwo hlong
  obtain ⟨hone, htwo', hthree⟩ := @decodes_chooseRepetition properties state
  refine decodes_some_bind (b := state.repeats 0) rfl ?_
  match index with
  | 0 => exact decodes_coded_bind (decodes_coded_bind (hfinish rfl))
  | 1 =>
      refine decodes_coded_bind (hone.bind ?_)
      exact decodes_some_bind (b := state.repeats 0) rfl (hfinish rfl)
  | 2 =>
      refine decodes_coded_bind (htwo'.bind ?_)
      exact decodes_some_bind (b := state.repeats 0) rfl (hfinish rfl)
  | 3 =>
      refine decodes_coded_bind (hthree.bind ?_)
      exact decodes_some_bind (b := state.repeats 0) rfl (hfinish rfl)

/-- The names of the bits at a position. -/
theorem combined_eq {output : Output} (hwidths : Widths properties.lc properties.lp properties.pb)
    (hnumber : state.number < 12) (hbytes : output.bytes = state.history) :
    output.position &&& (state.held properties).positionMask = state.positionState properties ∧
      ((checkedMul 64 state.number positionStates).bind fun value =>
        checkedAdd 64 value (output.position &&& (state.held properties).positionMask))
        = some (state.number * 16 + state.positionState properties) := by
  have hposition : output.position &&& (state.held properties).positionMask
      = state.positionState properties := by
    rw [State.held, Nat.and_two_pow_sub_one_eq_mod, Output.position, hbytes]
    rfl
  have hsmall : state.positionState properties < 16 := hwidths.position_lt _
  have hstates : positionStates = 16 := rfl
  refine ⟨hposition, ?_⟩
  rw [hposition, hstates, checkedMul_of_lt (by omega), Option.bind_some,
    checkedAdd_of_lt (by omega)]

/-- Two bits lead to a match. -/
theorem decodes_decodeOperation_match {output : Output} {word : List Decision}
    {out : Operation × LzmaState} (hwidths : Widths properties.lc properties.lp properties.pb)
    (hnumber : state.number < 12) (hbytes : output.bytes = state.history)
    (h : Decodes (decodeMatch oracle (state.held properties) (state.positionState properties))
      word out) :
    Decodes (decodeOperation oracle (state.held properties) output)
      ((.coded (.isMatch (state.number * 16 + state.positionState properties)), true) ::
        (.coded (.isRep state.number), false) :: word) out := by
  obtain ⟨hposition, hcombined⟩ := combined_eq hwidths hnumber hbytes
  refine Decodes.liftBind (result_checkpoint 1) (decodes_some_bind hcombined ?_)
  refine decodes_coded_bind (decodes_coded_bind ?_)
  rw [hposition]
  exact h

/-- An operation is what its bits say, in the state of the coding. -/
theorem decodes_decodeOperation {dictionary : Nat} {output : Output} {step : Step}
    (hwidths : Widths properties.lc properties.lp properties.pb) (hnumber : state.number < 12)
    (hbytes : output.bytes = state.history) (h : state.Allows dictionary step) :
    Decodes (decodeOperation oracle (state.held properties) output) (state.bits properties step)
      (state.operation step, (state.step step).held properties) := by
  obtain ⟨hposition, hcombined⟩ := combined_eq hwidths hnumber hbytes
  cases step with
  | literal byte =>
      obtain ⟨hnext, -, -, -⟩ := next_eq state.number hnumber
      refine Decodes.liftBind (result_checkpoint 1) (decodes_some_bind hcombined ?_)
      refine decodes_coded_bind (decodes_some_bind (b := state.repeats 0) rfl ?_)
      have hliteral := @decodes_decodeLiteral properties state hwidths.literal byte
      rw [← hbytes, ← matchByte_eq] at hliteral
      rw [← List.append_nil (State.literalBits _ _ _)]
      refine hliteral.bind ?_
      show Decodes (pure (Operation.literal byte, LzmaState.mk _ (if state.number < 4 then 0
        else if state.number < 10 then state.number - 3 else state.number - 6) _ _ _)) [] _
      rw [← hnext]
      exact Decodes.pure _
  | «match» distance length =>
      obtain ⟨⟨hpos, -, -, hlt⟩, htwo, hlong⟩ := h
      exact decodes_decodeOperation_match hwidths hnumber hbytes
        (decodes_decodeMatch hnumber hpos hlt htwo hlong)
  | shortRepeat =>
      obtain ⟨-, -, -, hnext⟩ := next_eq state.number hnumber
      obtain ⟨-, -, -, hlt⟩ := h
      refine Decodes.liftBind (result_checkpoint 1) (decodes_some_bind hcombined ?_)
      refine decodes_coded_bind (decodes_coded_bind (decodes_some_bind (b := state.repeats 0) rfl
        (decodes_coded_bind (decodes_coded_bind (decodes_some_bind (checkedAdd_of_lt hlt) ?_)))))
      show Decodes (pure (Operation.match _ 1, LzmaState.mk _ (if state.number < 7 then 9 else 11)
        _ _ _)) [] _
      rw [← hnext]
      exact Decodes.pure _
  | repeated index length =>
      obtain ⟨⟨-, -, -, hlt⟩, htwo, hlong⟩ := h
      refine Decodes.liftBind (result_checkpoint 1) (decodes_some_bind hcombined ?_)
      refine decodes_coded_bind (decodes_coded_bind ?_)
      rw [hposition]
      exact decodes_decodeRepetition hnumber hlt htwo hlong

/-! ### The output -/

/-- The loop of a match is a copy from behind. -/
theorem result_copyFrom_eq {distance : Nat} (hpos : 0 < distance) (length : Nat) {bytes : Bytes}
    (h : distance ≤ bytes.length) :
    (Output.copyFrom distance length bytes).result = .ok (Lz77.copy distance length bytes) := by
  induction length generalizing bytes with
  | zero => rfl
  | succ length ih =>
      obtain ⟨byte, hbyte⟩ := Lz77.toList_getElem? hpos h
      have hnext : distance ≤ (bytes ++ [byte]).length := by
        rw [List.length_append]
        omega
      rw [Output.copyFrom, Lz77.copy, Metered.result_bind_ok (result_checkpoint 1),
        Metered.result_bind_ok (orFormat_eq_ok.mpr (checkedSub_of_le h)), hbyte,
        Metered.result_bind_ok (result_orFormat_some _ _), Option.toList_some, ih hnext]

/-- The output of a decoder that has come as far as the coding. -/
def heldOutput (maximum dictionary : Nat) (state : LzmaCoding.State) : Output :=
  ⟨state.history, maximum, dictionary, 0⟩

section outputs

variable {maximum dictionary : Nat} {target : Option Nat}

/-- A copy within the history, and within the size of the stream where that is declared. -/
theorem result_applyMatch {distance length : Nat}
    (hroom : Output.Room maximum (state.history.length + length))
    (hdistance : state.InRange dictionary distance)
    (htarget : ∀ size, target = some size → state.history.length + length ≤ size) :
    (applyMatch (heldOutput maximum dictionary state) target distance length).result
      = .ok ⟨Lz77.copy distance length state.history, maximum, dictionary, 0⟩ := by
  obtain ⟨hpos, hhistory, hdictionary, -⟩ := hdistance
  have hvector := hroom.vector_le
  rw [vectorMax] at hvector
  have hfresh : (heldOutput maximum dictionary state).dictionaryLength.result
      = .ok state.history.length := orFormat_eq_ok.mpr (checkedSub_of_le (Nat.zero_le _))
  have hadditional : ((heldOutput maximum dictionary state).ensureAdditional length).result
      = .ok () := Output.result_ensureAdditional hroom
  have hcopy : ((heldOutput maximum dictionary state).copyMatch distance length).result
      = .ok ⟨Lz77.copy distance length state.history, maximum, dictionary, 0⟩ := by
    have hnear : ¬ distance > (heldOutput maximum dictionary state).dictionarySize :=
      Nat.not_lt.mpr hdictionary
    rw [Output.copyMatch, if_neg (Nat.pos_iff_ne_zero.mp hpos), if_neg hnear,
      Metered.result_bind_ok hfresh, if_neg (Nat.not_lt.mpr hhistory),
      Metered.result_bind_ok hadditional]
    exact Metered.result_bind_ok (result_copyFrom_eq hpos length hhistory)
  cases target with
  | none => exact hcopy
  | some size =>
      refine Metered.bind_eq_ok.mpr ⟨state.history.length + length, orFormat_eq_ok.mpr
        (checkedAdd_of_lt (show state.history.length + length < 2 ^ 64 by omega)), ?_⟩
      have hover : ¬ (some size).any (state.history.length + length > ·) = true := by
        simpa using htarget size rfl
      rw [if_neg hover]
      exact hcopy

theorem result_push (hroom : Output.Room maximum (state.history.length + 1)) (byte : UInt8) :
    ((heldOutput maximum dictionary state).push byte).result
      = .ok ⟨state.history ++ [byte], maximum, dictionary, 0⟩ := by
  have hadditional : ((heldOutput maximum dictionary state).ensureAdditional 1).result
      = .ok () := Output.result_ensureAdditional hroom
  unfold Output.push
  rw [Metered.result_bind_ok hadditional]
  rfl

/-! ### Streams -/

/-- Every step adds to the history. -/
theorem length_lt_step {step : Step} (h : state.Allows dictionary step) :
    state.history.length < (state.step step).history.length := by
  cases step with
  | literal byte =>
      show _ < (state.history ++ [byte]).length
      rw [List.length_append]
      exact Nat.lt_succ_self _
  | «match» distance length =>
      obtain ⟨⟨hpos, hhistory, -, -⟩, htwo, -⟩ := h
      show _ < (Lz77.copy distance length state.history).length
      rw [Lz77.length_copy hpos length hhistory]
      omega
  | shortRepeat =>
      obtain ⟨hpos, hhistory, -, -⟩ := h
      show _ < (Lz77.copy (state.repeats 0 + 1) 1 state.history).length
      rw [Lz77.length_copy hpos 1 hhistory]
      omega
  | repeated index length =>
      obtain ⟨⟨hpos, hhistory, -, -⟩, htwo, -⟩ := h
      show _ < (Lz77.copy (state.repeats index + 1) length state.history).length
      rw [Lz77.length_copy hpos length hhistory]
      omega

/-- What the loop carries when it has come as far as the coding. -/
def reached (properties : Properties) (maximum dictionary : Nat) (state : LzmaCoding.State) :
    StreamState :=
  ⟨state.held properties, heldOutput maximum dictionary state⟩

/-- One time around the loop is one step of the coding. -/
theorem decodeLoop_step {step : Step} {atEos : Output → List Decision → Work Unit}
    {rest : List Decision} (hwidths : Widths properties.lc properties.lp properties.pb)
    (hnumber : state.number < 12) (h : state.Allows dictionary step)
    (hroom : Output.Room maximum (state.step step).history.length)
    (htarget : ∀ size, target = some size → (state.step step).history.length ≤ size) (fuel : Nat) :
    (decodeLoop oracle atEos target (fuel + 1) (reached properties maximum dictionary state)
        (state.bits properties step ++ rest)).result
      = (decodeLoop oracle atEos target fuel (reached properties maximum dictionary
          (state.step step)) rest).result := by
  have hlength := length_lt_step h
  obtain ⟨decisions, hoperation, -, rfl⟩ := @decodes_decodeOperation properties state dictionary
    (heldOutput maximum dictionary state) step hwidths hnumber rfl h _ rest trivial rfl
  have hgo : target ≠ some state.history.length := by
    intro heq
    have hle := htarget _ heq
    omega
  rw [decodeLoop, if_neg (show ¬ target = some
    (reached properties maximum dictionary state).output.position from hgo)]
  refine (Cursor.result_bind_ok hoperation).trans ?_
  cases step with
  | literal byte =>
      have hpush := @result_push state maximum dictionary (hroom.mono hlength) byte
      exact Cursor.result_lift_bind hpush
  | «match» distance length =>
      obtain ⟨hdistance, -, -⟩ := h
      have hcopied := Lz77.length_copy hdistance.1 length hdistance.2.1
      have happly := @result_applyMatch state maximum dictionary target distance length
        (hcopied ▸ hroom) hdistance (hcopied ▸ htarget)
      exact Cursor.result_lift_bind happly
  | shortRepeat =>
      have hcopied := Lz77.length_copy h.1 1 h.2.1
      have happly := @result_applyMatch state maximum dictionary target (state.repeats 0 + 1) 1
        (hcopied ▸ hroom) h (hcopied ▸ htarget)
      exact Cursor.result_lift_bind happly
  | repeated index length =>
      obtain ⟨hdistance, -, -⟩ := h
      have hcopied := Lz77.length_copy hdistance.1 length hdistance.2.1
      have happly := @result_applyMatch state maximum dictionary target (state.repeats index + 1)
        length (hcopied ▸ hroom) hdistance (hcopied ▸ htarget)
      exact Cursor.result_lift_bind happly

theorem allBits_append (properties : Properties) (state : LzmaCoding.State)
    (done rest : List Step) :
    state.allBits properties (done ++ rest)
      = state.allBits properties done ++ (state.run done).allBits properties rest := by
  induction done generalizing state with
  | nil => rfl
  | cons step done ih =>
      rw [List.cons_append, State.allBits, State.allBits, ih, List.append_assoc]
      rfl

theorem State.allowsAll_append {done rest : List Step} :
    state.AllowsAll dictionary (done ++ rest) ↔
      state.AllowsAll dictionary done ∧ (state.run done).AllowsAll dictionary rest := by
  induction done generalizing state with
  | nil => exact (iff_of_eq (true_and _)).symm
  | cons step done ih => exact (and_congr_right fun _ => ih).trans and_assoc.symm

theorem number_run (hnumber : state.number < 12) (steps : List Step) :
    (state.run steps).number < 12 := by
  induction steps generalizing state with
  | nil => exact hnumber
  | cons step rest ih => exact ih (number_step hnumber step)

theorem length_le_run {steps : List Step} (h : state.AllowsAll dictionary steps) :
    state.history.length + steps.length ≤ (state.run steps).history.length := by
  induction steps generalizing state with
  | nil => exact Nat.le_refl _
  | cons step rest ih =>
      have hstep := length_lt_step h.1
      have hrest := ih h.2
      rw [List.length_cons]
      exact Nat.le_trans (by omega) hrest

/-- So many times around the loop are a sequence of steps. -/
theorem decodeLoop_run {steps : List Step} {atEos : Output → List Decision → Work Unit}
    (hwidths : Widths properties.lc properties.lp properties.pb) (hnumber : state.number < 12)
    (h : state.AllowsAll dictionary steps)
    (hroom : Output.Room maximum (state.run steps).history.length)
    (htarget : ∀ size, target = some size → (state.run steps).history.length ≤ size) (fuel : Nat)
    (tail : List Decision) :
    (decodeLoop oracle atEos target (fuel + steps.length)
        (reached properties maximum dictionary state) (state.allBits properties steps ++ tail)).result
      = (decodeLoop oracle atEos target fuel (reached properties maximum dictionary
          (state.run steps)) tail).result := by
  induction steps generalizing state with
  | nil => rfl
  | cons step rest ih =>
      have hlater := length_le_run h.2
      have hle : (state.step step).history.length ≤ (state.run (step :: rest)).history.length :=
        Nat.le_trans (Nat.le_add_right _ _) hlater
      rw [State.allBits, List.append_assoc, List.length_cons, ← Nat.add_assoc,
        decodeLoop_step hwidths hnumber h.1 (hroom.mono hle)
          (fun size hsize => Nat.le_trans hle (htarget size hsize))]
      exact ih (number_step hnumber step) h.2 hroom htarget

/-- The end marker is read as a match is, and its distance is kept like that of one. -/
theorem decodes_endBits (hwidths : Widths properties.lc properties.lp properties.pb)
    (hnumber : state.number < 12) :
    Decodes (decodeOperation oracle (state.held properties) (heldOutput maximum dictionary state))
      (state.endBits properties) (.end, (state.step (.match (2 ^ 32) 2)).held properties) := by
  obtain ⟨-, hmatch, -, -⟩ := next_eq state.number hnumber
  refine decodes_decodeOperation_match hwidths hnumber rfl ?_
  refine decodes_some_bind (b := state.repeats 0) rfl (decodes_some_bind (b := state.repeats 1) rfl
    (decodes_some_bind (b := state.repeats 2) rfl ?_))
  refine (decodes_decodeLength .match _ (Nat.zero_le _)).bind ?_
  rw [← List.append_nil (distanceBits _ _)]
  refine (decodes_decodeDistance 0 (by decide)).bind ?_
  rw [if_pos (show 2 ^ 32 - 1 = eosDistance from rfl)]
  show Decodes (pure (Operation.end, LzmaState.mk
    [2 ^ 32 - 1, state.repeats 0, state.repeats 1, state.repeats 2]
    (if state.number < 7 then 7 else 10) properties.lc properties.lp (2 ^ properties.pb - 1))) [] _
  rw [← hmatch]
  exact Decodes.pure _

/-- `decode_stream`, with the oracle in place of the range decoder. -/
def decodeSteps (atEos : Output → List Decision → Work Unit) (state : LzmaState) (output : Output)
    (expectedIncrement : Option Nat) : StateT (List Decision) Work StreamState := do
  let target ← streamTarget output expectedIncrement
  decodeLoop oracle atEos target (output.maximum + 1 - output.position) ⟨state, output⟩

section streams

variable {start : LzmaCoding.State} {steps : List Step} {stored : StoredState}
  {atEos : Output → List Decision → Work Unit} {expected : Option Nat}

/-- A decoder that starts is at the start of the coding. -/
theorem held_fresh {byte : UInt8}
    (hproperties : propertiesFromByte byte = .ok (properties.lc, properties.lp, properties.pb))
    (hstored : StoredState.new properties.lc properties.lp properties.pb = .ok stored)
    (hfresh : start.Fresh) :
    Widths properties.lc properties.lp properties.pb ∧ stored.state = start.held properties := by
  obtain ⟨hpb, hsmall⟩ := propertiesFromByte_eq_ok hproperties
  obtain ⟨hnumber, hrepeats⟩ := hfresh
  refine ⟨⟨hsmall, hpb⟩, ?_⟩
  rw [StoredState.new_eq hpb hsmall] at hstored
  obtain rfl := Except.ok.inj hstored
  rw [State.held, hnumber, hrepeats, hrepeats, hrepeats, hrepeats]

/-- The decoder goes through every state of the coding. -/
theorem result_decodeSteps {done rest : List Step}
    (hwidths : Widths properties.lc properties.lp properties.pb) (hnumber : start.number < 12)
    (hsteps : start.AllowsAll dictionary (done ++ rest))
    (hroom : Output.Room maximum (start.run (done ++ rest)).history.length)
    (hexpected : (streamTarget (heldOutput maximum dictionary start) expected).result = .ok target)
    (htarget : ∀ size, target = some size → (start.run (done ++ rest)).history.length ≤ size)
    (tail : List Decision) :
    ∃ fuel, (decodeSteps atEos (start.held properties) (heldOutput maximum dictionary start) expected
        (start.allBits properties (done ++ rest) ++ tail)).result
      = (decodeLoop oracle atEos target (fuel + 1)
          (reached properties maximum dictionary (start.run done))
          ((start.run done).allBits properties rest ++ tail)).result := by
  obtain ⟨hdone, hrest⟩ := State.allowsAll_append.mp hsteps
  have hbefore := length_le_run hdone
  have hlater := length_le_run hrest
  have hrun : start.run (done ++ rest) = (start.run done).run rest := List.foldl_append
  rw [← hrun] at hlater
  have hle : (start.run done).history.length ≤ (start.run (done ++ rest)).history.length :=
    Nat.le_trans (Nat.le_add_right _ _) hlater
  have hmaximum := (hroom.mono hle).maximum_le
  have hfuel : maximum + 1 - start.history.length
      = maximum - start.history.length - done.length + 1 + done.length := by omega
  refine ⟨maximum - start.history.length - done.length, ?_⟩
  rw [allBits_append, List.append_assoc]
  refine (Cursor.result_lift_bind hexpected).trans ?_
  show (decodeLoop oracle atEos target (maximum + 1 - start.history.length)
    (reached properties maximum dictionary start) _).result = _
  rw [hfuel]
  exact decodeLoop_run hwidths hnumber hdone (hroom.mono hle)
    (fun size hsize => Nat.le_trans hle (htarget size hsize)) _ _

theorem result_streamTarget {size : Nat} (h : start.history.length ≤ size)
    (hroom : Output.Room maximum size) :
    (streamTarget (heldOutput maximum dictionary start)
      (some (size - start.history.length))).result = .ok (some size) := by
  have hvector := hroom.vector_le
  rw [vectorMax] at hvector
  have hsum : checkedAdd 64 start.history.length (size - start.history.length) = some size := by
    rw [checkedAdd_of_lt (by omega), Nat.add_sub_cancel' h]
  refine Metered.bind_eq_ok.mpr ⟨size, orFormat_eq_ok.mpr hsum, ?_⟩
  exact Metered.bind_eq_ok.mpr ⟨(), checkLimit_eq_ok.mpr hroom.maximum_le, rfl⟩

/-- The symbol layer inverts the coding.  The decoder of accepted properties, started behind any
history, is given the bits of steps that can be made from there.  Then it makes them: before each
it has the state number, the distances and the output of the coding, and the operation that it
decodes there is the step; and where the size of the stream is declared, or an end marker
follows, it comes to an end with the history of the coding. -/
theorem decodeSteps_follows {byte : UInt8}
    (hproperties : propertiesFromByte byte = .ok (properties.lc, properties.lp, properties.pb))
    (hstored : StoredState.new properties.lc properties.lp properties.pb = .ok stored)
    (hfresh : start.Fresh) (hsteps : start.AllowsAll dictionary steps)
    (hroom : Output.Room maximum (start.run steps).history.length)
    (atEos : Output → List Decision → Work Unit) (tail : List Decision) :
    (∀ expected target,
      (streamTarget (heldOutput maximum dictionary start) expected).result = .ok target →
      (∀ size, target = some size → (start.run steps).history.length ≤ size) →
      ∀ done step rest, steps = done ++ step :: rest →
        (∃ fuel, (decodeSteps atEos stored.state (heldOutput maximum dictionary start) expected
            (start.allBits properties steps ++ tail)).result
          = (decodeLoop oracle atEos target fuel
              (reached properties maximum dictionary (start.run done))
              ((start.run done).allBits properties (step :: rest) ++ tail)).result) ∧
        (decodeOperation oracle ((start.run done).held properties)
            (heldOutput maximum dictionary (start.run done))
            ((start.run done).allBits properties (step :: rest) ++ tail)).result
          = .ok (((start.run done).operation step, (start.run (done ++ [step])).held properties),
            (start.run (done ++ [step])).allBits properties rest ++ tail)) ∧
    (decodeSteps atEos stored.state (heldOutput maximum dictionary start)
        (some ((start.run steps).history.length - start.history.length))
        (start.allBits properties steps ++ tail)).result
      = .ok (reached properties maximum dictionary (start.run steps), tail) ∧
    ((atEos (heldOutput maximum dictionary (start.run steps)) tail).result = .ok () →
      (decodeSteps atEos stored.state (heldOutput maximum dictionary start) none
          (start.allBits properties steps ++
            ((start.run steps).endBits properties ++ tail))).result
        = .ok (⟨((start.run steps).step (.match (2 ^ 32) 2)).held properties,
            heldOutput maximum dictionary (start.run steps)⟩, tail)) := by
  obtain ⟨hwidths, hstate⟩ := held_fresh hproperties hstored hfresh
  have hnumber : start.number < 12 := by
    rw [hfresh.1]
    decide
  have hlength := length_le_run hsteps
  have hall : steps ++ [] = steps := List.append_nil steps
  rw [hstate]
  refine ⟨fun expected target hexpected htarget done step rest hsplit => ⟨?_, ?_⟩, ?_, fun hend => ?_⟩
  · subst hsplit
    obtain ⟨fuel, hfuel⟩ := @result_decodeSteps properties maximum dictionary target start atEos
      expected done (step :: rest) hwidths hnumber hsteps hroom hexpected htarget tail
    exact ⟨fuel + 1, hfuel⟩
  · subst hsplit
    obtain ⟨-, hstep, -⟩ := State.allowsAll_append.mp hsteps
    have hrun : start.run (done ++ [step]) = (start.run done).step step := List.foldl_append
    obtain ⟨decisions, hresult, -, hrest⟩ := @decodes_decodeOperation properties (start.run done)
      dictionary (heldOutput maximum dictionary (start.run done)) step hwidths
      (number_run hnumber done) rfl hstep _
      (((start.run done).step step).allBits properties rest ++ tail) trivial rfl
    obtain rfl : decisions = _ := hrest
    rw [hrun, State.allBits, List.append_assoc]
    exact hresult
  · -- The loop ends with the size that was declared.
    have hexpected := @result_streamTarget maximum dictionary start _
      (Nat.le_trans (Nat.le_add_right _ _) hlength) hroom
    obtain ⟨fuel, hfuel⟩ := @result_decodeSteps properties maximum dictionary _ start atEos _
      steps [] hwidths hnumber (hall.symm ▸ hsteps) (hall.symm ▸ hroom) hexpected
      (fun size hsize => hall.symm ▸ Nat.le_of_eq (Option.some.inj hsize)) tail
    rw [hall] at hfuel
    rw [hfuel, decodeLoop, if_pos (show some (start.run steps).history.length
      = some (reached properties maximum dictionary (start.run steps)).output.position from rfl)]
    rfl
  · obtain ⟨fuel, hfuel⟩ := @result_decodeSteps properties maximum dictionary none start atEos none
      steps [] hwidths hnumber (hall.symm ▸ hsteps) (hall.symm ▸ hroom) rfl nofun
      ((start.run steps).endBits properties ++ tail)
    rw [hall] at hfuel
    obtain ⟨decisions, hresult, -, hrest⟩ := @decodes_endBits properties (start.run steps) maximum
      dictionary hwidths (number_run hnumber steps) _ tail trivial rfl
    obtain rfl : decisions = tail := hrest
    rw [hfuel, decodeLoop, if_neg (show ¬ none = some
      (reached properties maximum dictionary (start.run steps)).output.position from nofun)]
    refine (Cursor.result_bind_ok hresult).trans ?_
    have hget : ((get : StateT (List Decision) Work (List Decision)) decisions).result
        = .ok (decisions, decisions) := rfl
    exact (Cursor.result_bind_ok hget).trans (Cursor.result_lift_bind hend)

theorem decodeSteps_follows_match :
    (decodeSteps (fun _ _ => pure ()) ⟨[0, 0, 0, 0], 0, 3, 0, 3⟩
        (heldOutput 64 4096 ⟨[0x61], 0, fun _ => 0⟩) (some 15)
        (State.allBits ⟨3, 0, 2⟩ ⟨[0x61], 0, fun _ => 0⟩ [.literal 0x62, .match 2 4, .literal 0x63,
          .shortRepeat, .repeated 1 2, .literal 0x64, .match 3 3, .repeated 2 2])).result
      = .ok (⟨⟨[1, 2, 0, 0], 11, 3, 0, 3⟩, ⟨[0x61, 0x62, 0x61, 0x62, 0x61, 0x62, 0x63, 0x62, 0x62,
          0x62, 0x64, 0x62, 0x62, 0x64, 0x62, 0x64], 64, 4096, 0⟩⟩, []) := by
  have hwhole := (@decodeSteps_follows ⟨3, 0, 2⟩ 64 4096 ⟨[0x61], 0, fun _ => 0⟩
    [.literal 0x62, .match 2 4, .literal 0x63, .shortRepeat, .repeated 1 2, .literal 0x64,
      .match 3 3, .repeated 2 2] ⟨⟨[0, 0, 0, 0], 0, 3, 0, 3⟩, Tables.new 3 0⟩ 93 rfl
    (StoredState.new_eq (by decide) (by decide)) (by decide) (by decide)
    ⟨by decide, by decide⟩ (fun _ _ => pure ()) []).2.1
  rw [List.append_nil] at hwhole
  exact hwhole

end streams

end outputs

end symbols

end Lzma

end Un7z
