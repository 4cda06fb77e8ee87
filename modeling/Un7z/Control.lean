/-
Errors, limits, and the operation control every parser and decoder runs under.

These are `error.rs`, `limits.rs`, `cancel.rs` and `parse_util.rs`.  A `u64` or a
`usize` is a `Nat` here, and every place where the source checks an addition, a
subtraction or a product is the same check on the `Nat`; `usize` is 64 bits wide, so
a conversion between the two never fails and is not written.  Allocation succeeds.

An `Operation` is a Rust function that takes `&mut ParseControl` and returns a
`Result`.  `Work` is an operation that only ever touches its control through
`ParseControl::checkpoint`: it is the metered monad over the purse the work budget
and the cancellation token form together.
-/
import Un7z.Lib.Metered

namespace Un7z

abbrev Bytes := List UInt8

/-! ### Errors -/

inductive ChecksumScope
  | startHeader
  | nextHeader
  | encodedHeader
  | packedStream
  | folder
  | additionalStream
  | member
  deriving DecidableEq, Repr

inductive LimitKind
  | headerBytes
  | files
  | folders
  | codersPerFolder
  | totalCoders
  | streamsPerFolder
  | totalStreams
  | streamFrames
  | substreams
  | headerProperties
  | coderPropertyBytes
  | nameBytesPerEntry
  | totalNameBytes
  | dictionaryBytes
  | entryOutputBytes
  | totalOutputBytes
  | volumes
  | totalInputBytes
  | kdfPower
  | recursionDepth
  | sfxScanBytes
  | workUnits
  deriving DecidableEq, Repr

inductive IoErrorKind
  | notFound
  | unexpectedEof
  | invalidData
  | outOfMemory
  | other
  deriving DecidableEq, Repr

inductive Error
  | format (detail : String)
  | streamFormat (format detail : String)
  | checksum (scope : ChecksumScope) (memberIndex : Option Nat)
  | streamChecksum (format : String) (frameIndex : Nat)
  | unsupportedMethod (methodId : Bytes)
  | unsupportedFeature (feature : String)
  | unsupportedStreamFeature (format feature : String)
  | limitExceeded (limit : LimitKind) (requested maximum : Nat)
  | missingVolume (expected : String)
  | passwordRequired
  | wrongPasswordOrCorrupt
  | cancelled
  | ioError (kind : IoErrorKind) (detail : String)
  deriving DecidableEq, Repr

/-! ### Limits -/

structure Limits where
  maxHeaderBytes : Nat := 64 * 1024 * 1024
  maxFiles : Nat := 100000
  maxFolders : Nat := 100000
  maxCodersPerFolder : Nat := 32
  maxTotalCoders : Nat := 100000
  maxStreamsPerFolder : Nat := 1024
  maxTotalStreams : Nat := 200000
  maxStreamFrames : Nat := 100000
  maxSubstreams : Nat := 100000
  maxHeaderProperties : Nat := 100000
  maxCoderPropertyBytes : Nat := 1024 * 1024
  maxNameBytesPerEntry : Nat := 1024 * 1024
  maxTotalNameBytes : Nat := 64 * 1024 * 1024
  maxDictionaryBytes : Nat := 256 * 1024 * 1024
  maxEntryOutputBytes : Nat := 2 * 1024 * 1024 * 1024
  maxTotalOutputBytes : Nat := 8 * 1024 * 1024 * 1024
  maxVolumes : Nat := 1024
  maxTotalInputBytes : Nat := 64 * 1024 * 1024 * 1024
  maxKdfPower : Nat := 24
  maxRecursionDepth : Nat := 64
  sfxScanLimit : Nat := 1024 * 1024
  deriving DecidableEq, Repr

/-! ### Checked arithmetic on `w`-bit words -/

def checkedAdd (w a b : Nat) : Option Nat := if a + b < 2 ^ w then some (a + b) else none

def checkedSub (a b : Nat) : Option Nat := if b ≤ a then some (a - b) else none

def checkedMul (w a b : Nat) : Option Nat := if a * b < 2 ^ w then some (a * b) else none

theorem checkedAdd_eq_some {w a b c : Nat} :
    checkedAdd w a b = some c ↔ a + b < 2 ^ w ∧ c = a + b := by
  simp only [checkedAdd, Option.ite_none_right_eq_some, Option.some.injEq]
  exact and_congr_right fun _ => eq_comm

theorem checkedAdd_of_lt {w a b : Nat} (h : a + b < 2 ^ w) : checkedAdd w a b = some (a + b) :=
  if_pos h

theorem checkedSub_eq_some {a b c : Nat} : checkedSub a b = some c ↔ b ≤ a ∧ c = a - b := by
  simp only [checkedSub, Option.ite_none_right_eq_some, Option.some.injEq]
  exact and_congr_right fun _ => eq_comm

theorem checkedSub_of_le {a b : Nat} (h : b ≤ a) : checkedSub a b = some (a - b) := if_pos h

theorem checkedMul_eq_some {w a b c : Nat} :
    checkedMul w a b = some c ↔ a * b < 2 ^ w ∧ c = a * b := by
  simp only [checkedMul, Option.ite_none_right_eq_some, Option.some.injEq]
  exact and_congr_right fun _ => eq_comm

theorem checkedMul_of_lt {w a b : Nat} (h : a * b < 2 ^ w) : checkedMul w a b = some (a * b) :=
  if_pos h

/-- `checked_shl` refuses only the amount; what leaves the word is lost. -/
def checkedShl (w value amount : Nat) : Option Nat :=
  if amount < w then some ((value <<< amount) % 2 ^ w) else none

/-- `try_from` into a `w`-bit unsigned type. -/
def tryFrom (w value : Nat) : Option Nat := if value < 2 ^ w then some value else none

theorem checkedShl_of_lt {w value amount : Nat} (h : amount < w) :
    checkedShl w value amount = some ((value <<< amount) % 2 ^ w) := if_pos h

theorem tryFrom_eq_some {w a b : Nat} : tryFrom w a = some b ↔ a < 2 ^ w ∧ b = a := by
  simp only [tryFrom, Option.ite_none_right_eq_some, Option.some.injEq]
  exact and_congr_right fun _ => eq_comm

theorem tryFrom_of_lt {w a : Nat} (h : a < 2 ^ w) : tryFrom w a = some a := if_pos h

/-! ### Cancellation and budget -/

/--
A cancellation flag as one operation sees it.

The flag is set at most once and never cleared, so all an operation can observe is
after how many of its checks the flag first reads as set; `none` is a flag that is
never set.
-/
structure CancellationToken where
  checksLeft : Option Nat
  deriving DecidableEq, Repr

/-- `CancellationToken::check`. -/
def CancellationToken.check (token : CancellationToken) :
    Except Error Unit × CancellationToken :=
  match token.checksLeft with
  | none => (.ok (), token)
  | some 0 => (.error .cancelled, token)
  | some (n + 1) => (.ok (), ⟨some n⟩)

structure WorkBudget where
  remaining : Option Nat
  consumed : Nat
  /-- `consumed` is a `u64`. -/
  consumed_lt : consumed < 2 ^ 64
  deriving DecidableEq

def WorkBudget.bounded (units : Nat) : WorkBudget := ⟨some units, 0, by decide⟩

def WorkBudget.unlimited : WorkBudget := ⟨none, 0, by decide⟩

/-- `WorkBudget::charge`: the budget is unchanged when the charge is refused. -/
def WorkBudget.charge (budget : WorkBudget) (units : Nat) : Except Error Unit × WorkBudget :=
  match budget.remaining with
  | some remaining =>
      if units ≤ remaining then
        if h : budget.consumed + units < 2 ^ 64 then
          (.ok (), ⟨some (remaining - units), budget.consumed + units, h⟩)
        else
          (.error (.limitExceeded .workUnits units (2 ^ 64 - 1 - budget.consumed)), budget)
      else
        (.error (.limitExceeded .workUnits units remaining), budget)
  | none =>
      if h : budget.consumed + units < 2 ^ 64 then
        (.ok (), ⟨none, budget.consumed + units, h⟩)
      else
        (.error (.limitExceeded .workUnits units (2 ^ 64 - 1 - budget.consumed)), budget)

structure ParseControl where
  cancellation : CancellationToken
  budget : WorkBudget
  deriving DecidableEq

/-- A control that nobody cancels, with the given budget. -/
def ParseControl.uncancelled (budget : WorkBudget) : ParseControl := ⟨⟨none⟩, budget⟩

/-! ### The purse they form

A token covers the checks during which its flag still reads as clear, and a budget
covers the units it holds and can still count.  Each part is spent on its own, and a
control is the pair of them.
-/

namespace CancellationToken

def Covers (token : CancellationToken) (checks : Nat) : Prop :=
  ∀ n, token.checksLeft = some n → checks ≤ n

def spend (token : CancellationToken) (checks : Nat) : CancellationToken :=
  ⟨token.checksLeft.map (· - checks)⟩

theorem covers_add (token : CancellationToken) (a b : Nat) :
    token.Covers (a + b) ↔ token.Covers a ∧ (token.spend a).Covers b := by
  rcases token with ⟨_ | n⟩
  · simp [Covers, spend]
  · simp only [Covers, spend, Option.some.injEq, forall_eq', Option.map_some]
    omega

theorem spend_add (token : CancellationToken) (a b : Nat) :
    token.spend (a + b) = (token.spend a).spend b := by
  rcases token with ⟨_ | n⟩ <;> simp [spend, Nat.sub_add_eq]

theorem check_of_covers {token : CancellationToken} (h : token.Covers 1) :
    token.check = (.ok (), token.spend 1) := by
  rcases token with ⟨_ | _ | n⟩
  · rfl
  · exact absurd (h 0 rfl) (by omega)
  · rfl

theorem check_of_not_covers {token : CancellationToken} (h : ¬ token.Covers 1) :
    token.checksLeft = some 0 ∧ token.check = (.error .cancelled, token) := by
  rcases token with ⟨_ | _ | n⟩
  · exact absurd (by simp [Covers]) h
  · exact ⟨rfl, rfl⟩
  · exact absurd (by simp [Covers]) h

/-- A flag that reads as set stays set. -/
theorem spend_of_not_covers {token : CancellationToken} (h : ¬ token.Covers 1) :
    token.spend 1 = token := by
  obtain ⟨hleft, -⟩ := check_of_not_covers h
  rcases token with ⟨_ | _ | n⟩
  · exact absurd hleft (by simp)
  · rfl
  · exact absurd hleft (by simp)

end CancellationToken

namespace WorkBudget

def Covers (budget : WorkBudget) (units : Nat) : Prop :=
  (∀ r, budget.remaining = some r → units ≤ r) ∧ budget.consumed + units < 2 ^ 64

def spend (budget : WorkBudget) (units : Nat) : WorkBudget where
  remaining := budget.remaining.map (· - units)
  consumed := (budget.consumed + units) % 2 ^ 64
  consumed_lt := Nat.mod_lt _ (by decide)

theorem ext' {a b : WorkBudget} (h₁ : a.remaining = b.remaining)
    (h₂ : a.consumed = b.consumed) : a = b := by
  cases a
  cases b
  simp_all

theorem covers_add (budget : WorkBudget) (a b : Nat) :
    budget.Covers (a + b) ↔ budget.Covers a ∧ (budget.spend a).Covers b := by
  rcases budget with ⟨_ | r, consumed, hlt⟩ <;>
    simp only [Covers, spend, reduceCtorEq, false_implies, implies_true, true_and,
      Option.some.injEq, forall_eq', Option.map_none, Option.map_some] <;> omega

theorem spend_zero (budget : WorkBudget) : budget.spend 0 = budget := by
  refine ext' ?_ (Nat.mod_eq_of_lt budget.consumed_lt)
  simp [spend]

theorem spend_add (budget : WorkBudget) (a b : Nat) :
    budget.spend (a + b) = (budget.spend a).spend b := by
  refine ext' ?_ ?_
  · rcases budget with ⟨_ | r, consumed, hlt⟩ <;> simp [spend, Nat.sub_add_eq]
  · simp only [spend]
    omega

theorem charge_of_covers {budget : WorkBudget} {units : Nat} (h : budget.Covers units) :
    budget.charge units = (.ok (), budget.spend units) := by
  obtain ⟨hremaining, hconsumed⟩ := h
  have hmod : (budget.consumed + units) % 2 ^ 64 = budget.consumed + units :=
    Nat.mod_eq_of_lt hconsumed
  rcases budget with ⟨_ | r, consumed, hlt⟩
  · simp only [charge, dif_pos hconsumed]
    exact congrArg _ (ext' rfl hmod.symm)
  · simp only [charge, if_pos (hremaining r rfl), dif_pos hconsumed]
    exact congrArg _ (ext' rfl hmod.symm)

/-- A refused charge leaves the budget as it was. -/
theorem charge_of_not_covers {budget : WorkBudget} {units : Nat} (h : ¬ budget.Covers units) :
    ∃ requested maximum,
      budget.charge units = (.error (.limitExceeded .workUnits requested maximum), budget) := by
  rcases budget with ⟨_ | r, consumed, hlt⟩
  · have hsum : ¬ consumed + units < 2 ^ 64 := fun hc => h ⟨by simp, hc⟩
    exact ⟨_, _, by simp only [charge, dif_neg hsum]; rfl⟩
  · by_cases hr : units ≤ r
    · have hsum : ¬ consumed + units < 2 ^ 64 := fun hc => h ⟨by simpa using hr, hc⟩
      exact ⟨_, _, by simp only [charge, if_pos hr, dif_neg hsum]; rfl⟩
    · exact ⟨_, _, by simp only [charge, if_neg hr]; rfl⟩

end WorkBudget

/-- What a run takes from its control: checks of the flag, and work units. -/
abbrev Charge := ℕ × ℕ

namespace ParseControl

def Covers (control : ParseControl) (charge : Charge) : Prop :=
  control.cancellation.Covers charge.1 ∧ control.budget.Covers charge.2

def spend (control : ParseControl) (charge : Charge) : ParseControl :=
  ⟨control.cancellation.spend charge.1, control.budget.spend charge.2⟩

/-- The flag is looked at first, so a control that covers neither part is cancelled. -/
def Refuses (control : ParseControl) (charge : Charge) (error : Error) (after : ParseControl) :
    Prop :=
  after = ⟨control.cancellation.spend charge.1, control.budget⟩ ∧
    (control.cancellation.Covers charge.1 ∧
        (∃ requested maximum, error = .limitExceeded .workUnits requested maximum) ∨
      ¬ control.cancellation.Covers charge.1 ∧ error = .cancelled)

/-- The errors by which a control, and nothing else, stops an operation. -/
def Interrupts (control : ParseControl) (error : Error) : Prop :=
  (error = .cancelled ∧ control.cancellation.checksLeft.isSome) ∨
    ∃ requested maximum, error = .limitExceeded .workUnits requested maximum

end ParseControl

instance : Purse ParseControl Charge Error where
  covers := ParseControl.Covers
  spend := ParseControl.spend
  refuses := ParseControl.Refuses
  interrupts := ParseControl.Interrupts
  covers_zero k := ⟨fun _ _ => Nat.zero_le _, fun _ _ => Nat.zero_le _, k.budget.consumed_lt⟩
  covers_add k a b := by
    simp only [ParseControl.Covers, ParseControl.spend, Prod.fst_add, Prod.snd_add,
      CancellationToken.covers_add, WorkBudget.covers_add]
    exact and_and_and_comm
  spend_zero k := by
    simp [ParseControl.spend, WorkBudget.spend_zero, CancellationToken.spend]
  spend_add k a b := by
    simp only [ParseControl.spend, Prod.fst_add, Prod.snd_add, CancellationToken.spend_add,
      WorkBudget.spend_add]
  interrupts_spend k a e h := by
    rcases h with ⟨he, hsome⟩ | h
    · exact Or.inl ⟨he, by simpa [ParseControl.spend, CancellationToken.spend] using hsome⟩
    · exact Or.inr h
  interrupts_of_refuses k a e k' h := by
    obtain ⟨-, ⟨-, h⟩ | ⟨hnot, rfl⟩⟩ := h
    · exact Or.inr h
    · refine Or.inl ⟨rfl, ?_⟩
      rw [Option.isSome_iff_ne_none]
      intro hnone
      exact hnot fun n hn => absurd (hnone.symm.trans hn) (by simp)

/-! ### Operations -/

/-- A function of the source that takes `&mut ParseControl`. -/
abbrev Operation (α : Type) := ParseControl → Except Error α × ParseControl

/-- An operation that reaches its control through `checkpoint` alone. -/
abbrev Work := Metered ParseControl Charge Error

/-- `ParseControl::checkpoint` as the source runs it: the flag first, then the budget. -/
def ParseControl.checkpoint (units : Nat) : Operation Unit := fun control =>
  match control.cancellation.check with
  | (.error e, token) => (.error e, { control with cancellation := token })
  | (.ok (), token) =>
      match control.budget.charge units with
      | (.error e, budget) => (.error e, ⟨token, budget⟩)
      | (.ok (), budget) => (.ok (), ⟨token, budget⟩)

/-- `ParseControl::checkpoint`. -/
def checkpoint (units : Nat) : Work Unit where
  run := ParseControl.checkpoint units
  result := .ok ()
  trace := [(1, units)]
  replay k := by
    by_cases htoken : k.cancellation.Covers 1
    · have hcheck := CancellationToken.check_of_covers htoken
      by_cases hbudget : k.budget.Covers units
      · have hrun : ParseControl.checkpoint units k = (.ok (), k.spend (1, units)) := by
          simp only [ParseControl.checkpoint, hcheck, WorkBudget.charge_of_covers hbudget]
          rfl
        rw [hrun]
        exact .pay ⟨htoken, hbudget⟩ .done
      · obtain ⟨requested, maximum, hcharge⟩ := WorkBudget.charge_of_not_covers hbudget
        have hrun : ParseControl.checkpoint units k
            = (.error (.limitExceeded .workUnits requested maximum),
                ⟨k.cancellation.spend 1, k.budget⟩) := by
          simp only [ParseControl.checkpoint, hcheck, hcharge]
        rw [hrun]
        exact .refuse (fun h => hbudget h.2) ⟨rfl, Or.inl ⟨htoken, _, _, rfl⟩⟩
    · obtain ⟨hleft, hcheck⟩ := CancellationToken.check_of_not_covers htoken
      have hrun : ParseControl.checkpoint units k
          = (.error .cancelled, ⟨k.cancellation.spend 1, k.budget⟩) := by
        simp only [ParseControl.checkpoint, hcheck, CancellationToken.spend_of_not_covers htoken]
      rw [hrun]
      exact .refuse (fun h => htoken h.1) ⟨rfl, Or.inr ⟨htoken, rfl⟩⟩

/-- `CancellationToken::check` alone, with no charge. -/
def checkCancelled : Work Unit where
  run control :=
    let (checked, cancellation) := control.cancellation.check
    (checked, { control with cancellation })
  result := .ok ()
  trace := [(1, 0)]
  replay k := by
    by_cases htoken : k.cancellation.Covers 1
    · have hspend : k.spend (1, 0) = ⟨k.cancellation.spend 1, k.budget⟩ :=
        congrArg _ k.budget.spend_zero
      simp only [CancellationToken.check_of_covers htoken, ← hspend]
      exact .pay ⟨htoken, fun _ _ => Nat.zero_le _, k.budget.consumed_lt⟩ .done
    · obtain ⟨hleft, hcheck⟩ := CancellationToken.check_of_not_covers htoken
      simp only [hcheck]
      refine .refuse (fun h => htoken h.1) ⟨?_, Or.inr ⟨htoken, rfl⟩⟩
      rw [CancellationToken.spend_of_not_covers htoken]

@[simp] theorem result_checkCancelled : checkCancelled.result = .ok () := rfl

@[simp] theorem result_checkpoint (units : Nat) : (checkpoint units).result = .ok () := rfl

end Un7z
