/-
The escape statistics of `decode/ppmd.rs`.

A context that does not hold the next symbol escapes, and how likely that is comes from
one of the `25 × 16` slots of `see_contexts`.  A slot is a running sum, the shift by
which a mean is read off it, and a countdown to the next doubling of both.  Every step
of the decoder on a slot takes the mean out of the sum first; what it puts back depends
on whether the symbol was then found.
-/
import Un7z.ParseUtil

namespace Un7z

namespace Ppmd

def periodBits : Nat := 7

def orFormatError {α : Type} (value : Option α) (detail : String) : Except Error α :=
  okOr value (formatError detail)

/-- The `u32` addition of `ppmd.rs`. -/
def add (left right : Nat) (detail : String) : Except Error Nat :=
  orFormatError (checkedAdd 32 left right) detail

theorem add_of_lt {left right : Nat} (h : left + right < 2 ^ 32) (detail : String) :
    add left right detail = .ok (left + right) := by
  rw [add, checkedAdd_of_lt h, orFormatError, okOr_some]

/-! ### A slot -/

structure See2Context where
  summ : Nat
  shift : Nat
  count : Nat
  deriving DecidableEq, Repr

namespace See2Context

def new (value : Nat) : Except Error See2Context := do
  let shift := 3
  let summ ← orFormatError (checkedShl 32 value shift) "PPMd SEE initial summary overflows"
  let summ ← orFormatError (tryFrom 16 summ) "PPMd SEE initial summary is out of range"
  pure ⟨summ, shift, 4⟩

/-- The mean that is read, and the slot without it. -/
def mean (slot : See2Context) : Except Error (Nat × See2Context) := do
  let result := slot.summ >>> slot.shift
  let resultU16 ← orFormatError (tryFrom 16 result) "PPMd SEE mean is out of range"
  let summ ← orFormatError (checkedSub slot.summ resultU16) "PPMd SEE summary underflows"
  pure (if result = 0 then 1 else result, { slot with summ })

def update (slot : See2Context) : Except Error See2Context :=
  if slot.shift < periodBits then do
    let count ← orFormatError (checkedSub slot.count 1) "PPMd SEE update count underflows"
    if count = 0 then do
      let summ ← orFormatError (checkedAdd 16 slot.summ slot.summ) "PPMd SEE summary overflows"
      let count ← orFormatError (checkedShl 8 3 slot.shift) "PPMd SEE update count overflows"
      let shift ← orFormatError (checkedAdd 8 slot.shift 1) "PPMd SEE shift overflows"
      pure ⟨summ, shift, count⟩
    else
      pure { slot with count }
  else
    pure slot

/-- What `add_see_summary` does to the slot it finds. -/
def addSummary (slot : See2Context) (amount : Nat) : Except Error See2Context := do
  let amount ← orFormatError (tryFrom 16 amount) "PPMd SEE summary increment is out of range"
  let summ ← orFormatError (checkedAdd 16 slot.summ amount) "PPMd SEE summary overflows"
  pure { slot with summ }

end See2Context

/-! ### What a model restart writes -/

/-- The value every column of this row starts from. -/
def restartSlot (row : Nat) : Except Error See2Context := do
  let value ← orFormatError (checkedMul 32 5 row) "PPMd SEE initial value overflows"
  let value ← orFormatError (checkedAdd 32 value 10) "PPMd SEE initial value overflows"
  See2Context.new value

/-- The part of `restart_model` that fills `see_contexts`. -/
def restartSeeContexts : Except Error (List (List See2Context)) :=
  (List.range 25).mapM fun row => (List.range 16).mapM fun _ => restartSlot row

/-! ### One step of the decoder on a slot -/

/-- The frequencies of the states of a context that are not masked. -/
structure UnmaskedStates where
  frequencies : List Nat
  nonempty : frequencies ≠ []
  /-- A context of 256 symbols has no slot. -/
  length_le : frequencies.length ≤ 255
  /-- A frequency is a `u8`, and a state that is in a context has been seen. -/
  frequency_le : ∀ frequency ∈ frequencies, 0 < frequency ∧ frequency < 256

/-- The total `high_count` that `decode_char` collects. -/
def highCount (unmasked : UnmaskedStates) : Except Error Nat :=
  unmasked.frequencies.foldlM
    (fun total frequency => add total frequency "PPMd unmasked frequency total overflows") 0

/-- How a round of the escape loop of `decode_char` ends. -/
inductive Round
  | symbol (unmasked : UnmaskedStates)
  | escape (unmasked : UnmaskedStates)

def Round.unmasked : Round → UnmaskedStates
  | .symbol unmasked => unmasked
  | .escape unmasked => unmasked

/--
What a round of `decode_char` does to the slot `escape_frequency` picked: the mean,
then `update_see` where the symbol was found and `add_see_summary` where it was not.
-/
def See2Context.step (slot : See2Context) (round : Round) : Except Error See2Context := do
  let highCount ← highCount round.unmasked
  let (frequency, slot) ← slot.mean
  let frequencySum ← add frequency highCount "PPMd escape frequency total overflows"
  match round with
  | .symbol _ => slot.update
  | .escape _ => slot.addSummary frequencySum

/-- The rounds that pick one slot, one after the other. -/
def See2Context.run (slot : See2Context) (rounds : List Round) : Except Error See2Context :=
  rounds.foldlM step slot

end Ppmd

end Un7z
