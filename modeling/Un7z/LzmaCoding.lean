/-
The coding of LZMA operations.

What a decoder is measured against: the operations of a stream, what each does to the
history and to the state, and the bits that stand for it, each under the name of its
probability or direct.  None of it is translated from the decoder.  The state numbers are
the tables of the format, the repeat distances are rotated by hand, and a distance is split
into its slot, the bits below it and the aligned ones.
-/
import Mathlib.Data.Fin.VecNotation
import Un7z.Lzma
import Un7z.Lib.BitString
import Un7z.Lib.Lz77
import Un7z.Lib.RangeCoder

namespace Un7z

namespace LzmaCoding

open RangeCoder (Tag)
open Lzma (Slot LengthKind)

/-- A bit under the name of its probability, or a direct one. -/
abbrev Decision := Tag Slot × Bool

/-- What an encoder can do next. -/
inductive Step where
  | literal (byte : UInt8)
  | match (distance length : Nat)
  | shortRepeat
  | repeated (index : Fin 4) (length : Nat)
  deriving DecidableEq

/-- The widths of the contexts: bits of the byte before, bits of the position of a literal, and
bits of the position of everything else. -/
structure Properties where
  lc : Nat
  lp : Nat
  pb : Nat

structure State where
  history : Bytes
  number : Nat
  /-- The last distances, each less one. -/
  repeats : Fin 4 → Nat

/-- The state of a stream that starts, behind whatever history. -/
def State.Fresh (state : State) : Prop := state.number = 0 ∧ ∀ index, state.repeats index = 0

/-! ### What a step does -/

/-- The state after a literal, by the state before. -/
def literalNext : List Nat := [0, 0, 0, 0, 1, 2, 3, 4, 5, 6, 4, 5]

def matchNext : List Nat := [7, 7, 7, 7, 7, 7, 7, 10, 10, 10, 10, 10]

def repeatNext : List Nat := [8, 8, 8, 8, 8, 8, 8, 11, 11, 11, 11, 11]

def shortRepeatNext : List Nat := [9, 9, 9, 9, 9, 9, 9, 11, 11, 11, 11, 11]

/-- A distance comes to the front, and those that were before it move back. -/
def rotate (repeats : Fin 4 → Nat) : Fin 4 → Fin 4 → Nat
  | 0 => repeats
  | 1 => ![repeats 1, repeats 0, repeats 2, repeats 3]
  | 2 => ![repeats 2, repeats 0, repeats 1, repeats 3]
  | 3 => ![repeats 3, repeats 0, repeats 1, repeats 2]

def State.step (state : State) : Step → State
  | .literal byte => ⟨state.history ++ [byte], literalNext.getD state.number 0, state.repeats⟩
  | .match distance length => ⟨Lz77.copy distance length state.history,
      matchNext.getD state.number 0,
      ![distance - 1, state.repeats 0, state.repeats 1, state.repeats 2]⟩
  | .shortRepeat => ⟨Lz77.copy (state.repeats 0 + 1) 1 state.history,
      shortRepeatNext.getD state.number 0, state.repeats⟩
  | .repeated index length => ⟨Lz77.copy (state.repeats index + 1) length state.history,
      repeatNext.getD state.number 0, rotate state.repeats index⟩

/-- The distance is inside the history and inside the dictionary, and has a number. -/
def State.InRange (dictionary : Nat) (state : State) (distance : Nat) : Prop :=
  1 ≤ distance ∧ distance ≤ state.history.length ∧ distance ≤ dictionary ∧ distance < 2 ^ 32

/-- The step can be made. -/
def State.Allows (dictionary : Nat) (state : State) : Step → Prop
  | .literal _ => True
  | .match distance length => state.InRange dictionary distance ∧ 2 ≤ length ∧ length ≤ 273
  | .shortRepeat => state.InRange dictionary (state.repeats 0 + 1)
  | .repeated index length =>
      state.InRange dictionary (state.repeats index + 1) ∧ 2 ≤ length ∧ length ≤ 273

/-- The state after a sequence of steps. -/
def State.run (state : State) (steps : List Step) : State := steps.foldl State.step state

/-- Each step of a sequence can be made after those before it. -/
def State.AllowsAll (dictionary : Nat) : State → List Step → Prop
  | _, [] => True
  | state, step :: rest =>
      state.Allows dictionary step ∧ (state.step step).AllowsAll dictionary rest

instance (state : State) : Decidable state.Fresh := inferInstanceAs (Decidable (_ ∧ _))

instance (dictionary : Nat) (state : State) (distance : Nat) :
    Decidable (state.InRange dictionary distance) := inferInstanceAs (Decidable (_ ∧ _ ∧ _ ∧ _))

instance (dictionary : Nat) (state : State) : (step : Step) → Decidable (state.Allows dictionary step)
  | .literal _ => inferInstanceAs (Decidable True)
  | .match _ _ => inferInstanceAs (Decidable (_ ∧ _ ∧ _))
  | .shortRepeat => inferInstanceAs (Decidable (state.InRange _ _))
  | .repeated _ _ => inferInstanceAs (Decidable (_ ∧ _ ∧ _))

instance State.decidableAllowsAll (dictionary : Nat) : (state : State) → (steps : List Step) →
    Decidable (state.AllowsAll dictionary steps)
  | _, [] => inferInstanceAs (Decidable True)
  | state, step :: rest =>
      have := State.decidableAllowsAll dictionary (state.step step) rest
      inferInstanceAs (Decidable (_ ∧ _))

/-! ### The bits of a step -/

/-- Bits along the path of a tree. -/
def pathBits (slots : Nat → Slot) : List Bool → Nat → List Decision
  | [], _ => []
  | bit :: rest, node => (.coded (slots node), bit) :: pathBits slots rest (2 * node + bit.toNat)

/-- A number in a tree, the high bit first. -/
def treeBits (slots : Nat → Slot) (width number : Nat) : List Decision :=
  pathBits slots (BitString.msb width number) 1

/-- A number in a tree, the low bit first. -/
def reverseBits (slots : Nat → Slot) (width number : Nat) : List Decision :=
  pathBits slots (BitString.lsb width number) 1

/-- The length less two. -/
def lengthBits (kind : LengthKind) (positionState number : Nat) : List Decision :=
  if number < 8 then
    (.coded (.choice kind 0), false) :: treeBits (.low kind positionState) 3 number
  else if number < 16 then
    (.coded (.choice kind 0), true) :: (.coded (.choice kind 1), false) ::
      treeBits (.middle kind positionState) 3 (number - 8)
  else
    (.coded (.choice kind 0), true) :: (.coded (.choice kind 1), true) ::
      treeBits (.high kind) 8 (number - 16)

/-- The slot of a distance: its two highest bits, and where they are. -/
def distanceSlot (number : Nat) : Nat :=
  if number < 4 then number
  else 2 * Nat.log2 number + number / 2 ^ (Nat.log2 number - 1) % 2

/-- The bits of a distance below its slot. -/
def footerBits (slot number : Nat) : List Decision :=
  let width := slot / 2 - 1
  if slot < 4 then
    []
  else if slot < 14 then
    reverseBits (.positionModel (slot - 4)) width (number % 2 ^ width)
  else
    (BitString.msb (width - 4) (number % 2 ^ width / 16)).map (fun bit => (.direct, bit)) ++
      reverseBits .alignment 4 (number % 16)

/-- The distance less one, by the length less two. -/
def distanceBits (length number : Nat) : List Decision :=
  treeBits (.positionSlot (min length 3)) 6 (distanceSlot number) ++
    footerBits (distanceSlot number) number

/-- The bits of a literal next to those of the byte that a match would have given: in a
context of their own, up to the first that is different. -/
def matchedBits (base : Nat) : List Bool → List Bool → Nat → List Decision
  | bit :: rest, other :: others, node =>
      (.coded (.literal (base + (1 + other.toNat) * 0x100 + node)), bit) ::
        if bit = other then
          matchedBits base rest others (2 * node + bit.toNat)
        else
          pathBits (fun node => .literal (base + node)) rest (2 * node + bit.toNat)
  | _, _, _ => []

/-- Where the probabilities of the next literal begin. -/
def State.literalBase (properties : Properties) (state : State) : Nat :=
  (state.history.length % 2 ^ properties.lp * 2 ^ properties.lc +
    (state.history.getLast?.getD 0).toNat / 2 ^ (8 - properties.lc)) * 0x300

def State.literalBits (properties : Properties) (state : State) (byte : UInt8) : List Decision :=
  let base := state.literalBase properties
  let bits := BitString.msb 8 byte.toNat
  if state.number < 7 then
    pathBits (fun node => .literal (base + node)) bits 1
  else
    -- The last distance counts from the end of the history.
    matchedBits base bits
      (BitString.msb 8 (state.history.reverse[state.repeats 0]?.getD 0).toNat) 1

/-- The low bits of the position. -/
def State.positionState (properties : Properties) (state : State) : Nat :=
  state.history.length % 2 ^ properties.pb

/-- The bits that choose one of the last distances for a copy of more than a byte. -/
def State.repeatBits (properties : Properties) (state : State) : Fin 4 → List Decision
  | 0 => [(.coded (.isRepZero state.number), false),
      (.coded (.isRepZeroLong (state.number * 16 + state.positionState properties)), true)]
  | 1 => [(.coded (.isRepZero state.number), true), (.coded (.isRepOne state.number), false)]
  | 2 => [(.coded (.isRepZero state.number), true), (.coded (.isRepOne state.number), true),
      (.coded (.isRepTwo state.number), false)]
  | 3 => [(.coded (.isRepZero state.number), true), (.coded (.isRepOne state.number), true),
      (.coded (.isRepTwo state.number), true)]

def State.bits (properties : Properties) (state : State) : Step → List Decision
  | .literal byte => (.coded (.isMatch (state.number * 16 + state.positionState properties)), false) ::
      state.literalBits properties byte
  | .match distance length =>
      (.coded (.isMatch (state.number * 16 + state.positionState properties)), true) ::
      (.coded (.isRep state.number), false) ::
        (lengthBits .match (state.positionState properties) (length - 2) ++
          distanceBits (length - 2) (distance - 1))
  | .shortRepeat =>
      [(.coded (.isMatch (state.number * 16 + state.positionState properties)), true),
        (.coded (.isRep state.number), true), (.coded (.isRepZero state.number), false),
        (.coded (.isRepZeroLong (state.number * 16 + state.positionState properties)), false)]
  | .repeated index length =>
      (.coded (.isMatch (state.number * 16 + state.positionState properties)), true) ::
      (.coded (.isRep state.number), true) ::
        (state.repeatBits properties index ++
          lengthBits .repetition (state.positionState properties) (length - 2))

/-- The bits of a sequence of steps. -/
def State.allBits (properties : Properties) : State → List Step → List Decision
  | _, [] => []
  | state, step :: rest => state.bits properties step ++ (state.step step).allBits properties rest

/-- The bits of an end marker: a match of two bytes, from further back than any distance. -/
def State.endBits (properties : Properties) (state : State) : List Decision :=
  (.coded (.isMatch (state.number * 16 + state.positionState properties)), true) ::
  (.coded (.isRep state.number), false) ::
    (lengthBits .match (state.positionState properties) 0 ++ distanceBits 0 (2 ^ 32 - 1))

/-! ### What the decoder makes of it -/

/-- The state of a decoder that has come as far as the coding. -/
def State.held (properties : Properties) (state : State) : Lzma.LzmaState where
  repetitions := [state.repeats 0, state.repeats 1, state.repeats 2, state.repeats 3]
  state := state.number
  lc := properties.lc
  lp := properties.lp
  positionMask := 2 ^ properties.pb - 1

/-- What a step is for the decoder. -/
def State.operation (state : State) : Step → Lzma.Operation
  | .literal byte => .literal byte
  | .match distance length => .match distance length
  | .shortRepeat => .match (state.repeats 0 + 1) 1
  | .repeated index length => .match (state.repeats index + 1) length

end LzmaCoding

end Un7z
