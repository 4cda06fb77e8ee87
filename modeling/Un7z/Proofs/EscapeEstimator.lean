/-
When the escape statistics give out.

Both things a round puts back into a slot are checked 16-bit sums, and nothing bounds
them: an escape adds the mean it has just taken out and the frequencies it did not
use, so a slot that only ever escapes grows by all of those, and the doubling of a
success can meet a sum of any size.

  * A round fails exactly when the one 16-bit sum it makes does not fit
    (`step_ok_iff`); the countdown, the shift and the mean never do.
  * A run fails exactly when a round of it does (`run_ok_iff`).
  * A run of escapes alone only adds up (`run_escapes_ok_iff`), so it always fails in
    the end.
-/
import Mathlib.Algebra.Order.BigOperators.Group.List
import Mathlib.Tactic.IntervalCases
import Un7z.Ppmd

namespace Un7z

namespace Ppmd

/-- Every column of a row starts alike. -/
theorem restartSeeContexts_eq :
    restartSeeContexts
      = .ok ((List.range 25).map fun row => List.replicate 16 ⟨8 * (5 * row + 10), 3, 4⟩) := rfl

/-! ### The total of a context -/

namespace UnmaskedStates

def total (unmasked : UnmaskedStates) : Nat := unmasked.frequencies.sum

theorem total_lt (unmasked : UnmaskedStates) : unmasked.total < 2 ^ 16 := by
  have hsum : unmasked.total ≤ unmasked.frequencies.length * 255 := by
    refine List.sum_le_card_nsmul _ _ fun frequency hfrequency => ?_
    have := (unmasked.frequency_le frequency hfrequency).2
    omega
  have := unmasked.length_le
  omega

end UnmaskedStates

theorem foldlM_add (detail : String) :
    ∀ (frequencies : List Nat) (total : Nat), total + frequencies.sum < 2 ^ 32 →
      frequencies.foldlM (fun total frequency => add total frequency detail) total
        = .ok (total + frequencies.sum) := by
  intro frequencies
  induction frequencies with
  | nil => intro total _; rfl
  | cons frequency rest ih =>
      intro total h
      rw [List.sum_cons] at h ⊢
      rw [List.foldlM_cons, add_of_lt (by omega)]
      show rest.foldlM _ (total + frequency) = _
      rw [ih _ (by omega), Nat.add_assoc]

theorem highCount_eq (unmasked : UnmaskedStates) : highCount unmasked = .ok unmasked.total := by
  have h := unmasked.total_lt
  rw [highCount, foldlM_add _ _ 0 (by rw [UnmaskedStates.total] at h; omega), Nat.zero_add]
  rfl

/-! ### One round -/

namespace See2Context

/-- What every slot keeps: a 16-bit sum, and a countdown that has not run out. -/
structure Usable (slot : See2Context) : Prop where
  summ_lt : slot.summ < 2 ^ 16
  shift_le : slot.shift ≤ periodBits
  count_pos : slot.shift < periodBits → 0 < slot.count

/-- The sum a mean leaves behind. -/
def rest (slot : See2Context) : Nat := slot.summ - slot.summ >>> slot.shift

/-- The mean as it is read: never zero. -/
def frequency (slot : See2Context) : Nat :=
  if slot.summ >>> slot.shift = 0 then 1 else slot.summ >>> slot.shift

/-- The one 16-bit sum this round makes fits: the doubling at the end of a countdown, or the escape. -/
def Fits (slot : See2Context) : Round → Prop
  | .symbol _ => slot.shift < periodBits → slot.count = 1 → slot.rest + slot.rest < 2 ^ 16
  | .escape unmasked => slot.rest + (slot.frequency + unmasked.total) < 2 ^ 16

variable {slot next : See2Context}

theorem shiftRight_le (slot : See2Context) : slot.summ >>> slot.shift ≤ slot.summ := by
  rw [Nat.shiftRight_eq_div_pow]
  exact Nat.div_le_self _ _

theorem rest_le (slot : See2Context) : slot.rest ≤ slot.summ := Nat.sub_le _ _

theorem frequency_lt (h : slot.Usable) : slot.frequency < 2 ^ 16 := by
  have hle := slot.shiftRight_le
  have hlt := h.summ_lt
  unfold frequency
  split <;> omega

/-- Taking the mean cannot fail. -/
theorem mean_eq (h : slot.Usable) :
    slot.mean = .ok (slot.frequency, { slot with summ := slot.rest }) := by
  have hlt : slot.summ >>> slot.shift < 2 ^ 16 := Nat.lt_of_le_of_lt slot.shiftRight_le h.summ_lt
  simp only [mean, orFormatError, tryFrom_of_lt hlt, checkedSub_of_le slot.shiftRight_le, okOr_some,
    except_ok_bind, except_pure]
  rfl

/-- A round with a symbol is its mean, and then the update. -/
theorem symbol_eq (h : slot.Usable) (unmasked : UnmaskedStates) :
    slot.step (.symbol unmasked) = update { slot with summ := slot.rest } := by
  have hfrequency := frequency_lt h
  have htotal := unmasked.total_lt
  have hadd : slot.frequency + unmasked.total < 2 ^ 32 := by omega
  simp only [step, Round.unmasked, highCount_eq, mean_eq h, add_of_lt hadd, except_ok_bind]

/-- A round with an escape is its mean, and then the sum. -/
theorem escape_eq (h : slot.Usable) (unmasked : UnmaskedStates) :
    slot.step (.escape unmasked) =
      addSummary { slot with summ := slot.rest } (slot.frequency + unmasked.total) := by
  have hfrequency := frequency_lt h
  have htotal := unmasked.total_lt
  have hadd : slot.frequency + unmasked.total < 2 ^ 32 := by omega
  simp only [step, Round.unmasked, highCount_eq, mean_eq h, add_of_lt hadd, except_ok_bind]

/-! ### What a round puts back -/

theorem addSummary_eq_ok {amount : Nat} :
    slot.addSummary amount = .ok next ↔
      slot.summ + amount < 2 ^ 16 ∧ next = { slot with summ := slot.summ + amount } := by
  simp only [addSummary, orFormatError, except_bind_eq_ok, okOr_eq_ok, tryFrom_eq_some,
    checkedAdd_eq_some, except_pure, Except.ok.injEq]
  constructor
  · rintro ⟨amount, ⟨-, rfl⟩, summ, ⟨hlt, rfl⟩, rfl⟩
    exact ⟨hlt, rfl⟩
  · rintro ⟨hlt, rfl⟩
    exact ⟨amount, ⟨by omega, rfl⟩, _, ⟨hlt, rfl⟩, rfl⟩

/-- Between two doublings a success only counts down. -/
theorem update_of_count (h : slot.Usable) (hshift : slot.shift < periodBits)
    (hcount : slot.count ≠ 1) : slot.update = .ok { slot with count := slot.count - 1 } := by
  have hpos := h.count_pos hshift
  have hnext : slot.count - 1 ≠ 0 := by omega
  simp only [update, if_pos hshift, orFormatError, checkedSub_of_le (show 1 ≤ slot.count by omega),
    okOr_some, except_ok_bind, if_neg hnext, except_pure]

/-- The doubling at the end of a countdown. -/
theorem update_eq_ok_of_count (hshift : slot.shift < periodBits) (hcount : slot.count = 1) :
    slot.update = .ok next ↔ slot.summ + slot.summ < 2 ^ 16 ∧
      next = ⟨slot.summ + slot.summ, slot.shift + 1, 3 <<< slot.shift % 2 ^ 8⟩ := by
  have hlt : slot.shift < 7 := hshift
  have hcountdown : checkedSub slot.count 1 = some 0 := by rw [hcount]; rfl
  simp only [update, if_pos hshift, orFormatError, hcountdown, okOr_some, except_ok_bind, if_true,
    checkedShl_of_lt (show slot.shift < 8 by omega),
    checkedAdd_of_lt (show slot.shift + 1 < 2 ^ 8 by omega), except_bind_eq_ok, okOr_eq_ok,
    checkedAdd_eq_some, except_pure, Except.ok.injEq]
  constructor
  · rintro ⟨summ, ⟨hsumm, rfl⟩, rfl⟩
    exact ⟨hsumm, rfl⟩
  · rintro ⟨hsumm, rfl⟩
    exact ⟨_, ⟨hsumm, rfl⟩, rfl⟩

/-- Once the shift has saturated a success leaves the slot alone. -/
theorem update_of_saturated (hshift : ¬ slot.shift < periodBits) : slot.update = .ok slot :=
  if_neg hshift

/-- The next countdown is as long as the mean is fine. -/
theorem countdown_pos {shift : Nat} (h : shift < periodBits) : 0 < 3 <<< shift % 2 ^ 8 := by
  have hlt : shift < 7 := h
  interval_cases shift <;> decide

/-! ### A round fails exactly when its sum does not fit -/

theorem step_ok_iff (h : slot.Usable) (round : Round) :
    (∃ next, slot.step round = .ok next) ↔ slot.Fits round := by
  cases round with
  | escape unmasked =>
      rw [escape_eq h]
      simp only [addSummary_eq_ok, exists_and_left, exists_eq, and_true, Fits]
  | symbol unmasked =>
      have hrest : Usable { slot with summ := slot.rest } :=
        ⟨Nat.lt_of_le_of_lt slot.rest_le h.summ_lt, h.shift_le, h.count_pos⟩
      rw [symbol_eq h]
      simp only [Fits]
      by_cases hshift : slot.shift < periodBits
      · by_cases hcount : slot.count = 1
        · have hdouble (next : See2Context) : update { slot with summ := slot.rest } = .ok next ↔ _ :=
            update_eq_ok_of_count hshift hcount
          simp only [hdouble, exists_and_left, exists_eq, and_true]
          exact ⟨fun h _ _ => h, fun h => h hshift hcount⟩
        · exact ⟨fun _ _ hone => absurd hone hcount,
            fun _ => ⟨_, update_of_count hrest hshift hcount⟩⟩
      · exact ⟨fun _ hlt => absurd hlt hshift, fun _ => ⟨_, update_of_saturated hshift⟩⟩

/-- A round leaves a usable slot. -/
theorem usable_step (h : slot.Usable) {round : Round} (hstep : slot.step round = .ok next) :
    next.Usable := by
  have hrest : Usable { slot with summ := slot.rest } :=
    ⟨Nat.lt_of_le_of_lt slot.rest_le h.summ_lt, h.shift_le, h.count_pos⟩
  cases round with
  | escape unmasked =>
      rw [escape_eq h] at hstep
      obtain ⟨hlt, rfl⟩ := addSummary_eq_ok.mp hstep
      exact ⟨hlt, h.shift_le, h.count_pos⟩
  | symbol unmasked =>
      rw [symbol_eq h] at hstep
      by_cases hshift : slot.shift < periodBits
      · by_cases hcount : slot.count = 1
        · have hdouble : update { slot with summ := slot.rest } = .ok next ↔ _ :=
            update_eq_ok_of_count hshift hcount
          obtain ⟨hlt, rfl⟩ := hdouble.mp hstep
          exact ⟨hlt, hshift, fun _ => countdown_pos hshift⟩
        · have hpos := h.count_pos hshift
          have hsame := (update_of_count hrest hshift hcount).symm.trans hstep
          rw [← Except.ok.inj hsame]
          refine ⟨hrest.summ_lt, h.shift_le, fun _ => ?_⟩
          show 0 < slot.count - 1
          omega
      · have hsaturated : update { slot with summ := slot.rest } = .ok _ :=
          update_of_saturated hshift
        rw [← Except.ok.inj (hsaturated.symm.trans hstep)]
        exact hrest

/-! ### Runs -/

/-- What a restart writes is usable. -/
theorem usable_of_restart {table : List (List See2Context)}
    (htable : restartSeeContexts = .ok table) (hslot : slot ∈ table.flatten) : slot.Usable := by
  rw [restartSeeContexts_eq] at htable
  rw [← Except.ok.inj htable, List.mem_flatten] at hslot
  obtain ⟨columns, hcolumns, hslot⟩ := hslot
  obtain ⟨row, hrow, rfl⟩ := List.mem_map.mp hcolumns
  rw [List.eq_of_mem_replicate hslot]
  have hlt : row < 25 := List.mem_range.mp hrow
  refine ⟨?_, Nat.le_of_ble_eq_true rfl, fun _ => Nat.zero_lt_succ 3⟩
  show 8 * (5 * row + 10) < 2 ^ 16
  omega

theorem run_cons (round : Round) (rounds : List Round) :
    slot.run (round :: rounds) = (slot.step round >>= fun next => next.run rounds) :=
  List.foldlM_cons

/-- A run goes through exactly when every round of it meets a slot in which it fits. -/
theorem run_ok_iff_of_usable :
    ∀ (rounds : List Round) (slot : See2Context), slot.Usable →
      ((∃ last, slot.run rounds = .ok last) ↔
        ∀ earlier round later, rounds = earlier ++ round :: later →
          ∀ reached, slot.run earlier = .ok reached → reached.Fits round) := by
  intro rounds
  induction rounds with
  | nil =>
      intro slot _
      exact ⟨fun _ earlier round later h => absurd h (by simp), fun _ => ⟨slot, rfl⟩⟩
  | cons first rest ih =>
      intro slot h
      constructor
      · rintro ⟨last, hlast⟩ earlier round later hsplit reached hreached
        cases hstep : slot.step first with
        | error e => rw [run_cons, hstep] at hlast; exact absurd hlast (by simp [bind, Except.bind])
        | ok next =>
            rw [run_cons, hstep] at hlast
            cases earlier with
            | nil =>
                obtain ⟨rfl, rfl⟩ := List.cons.inj hsplit
                rw [← Except.ok.inj hreached]
                exact (step_ok_iff h _).mp ⟨next, hstep⟩
            | cons first' earlier =>
                obtain ⟨rfl, hrest⟩ := List.cons.inj hsplit
                rw [run_cons, hstep] at hreached
                exact (ih next (usable_step h hstep)).mp ⟨last, hlast⟩ earlier round later hrest
                  reached hreached
      · intro hall
        obtain ⟨next, hstep⟩ := (step_ok_iff h first).mpr (hall [] first rest rfl slot rfl)
        have hrun : ∃ last, next.run rest = .ok last := by
          refine (ih next (usable_step h hstep)).mpr fun earlier round later hsplit reached hreached => ?_
          refine hall (first :: earlier) round later (by rw [hsplit]; rfl) reached ?_
          rw [run_cons, hstep]
          exact hreached
        rw [run_cons, hstep]
        exact hrun

/-- A context with one symbol left in it, seen once. -/
def oneState : UnmaskedStates where
  frequencies := [1]
  nonempty := by decide
  length_le := by decide
  frequency_le := by decide

/-- An escape puts back the mean it took out, so the sum grows by the unused frequencies. -/
theorem step_escape (h : slot.Usable) (hmean : 2 ^ slot.shift ≤ slot.summ)
    (unmasked : UnmaskedStates) :
    slot.step (.escape unmasked) = .ok next ↔
      slot.summ + unmasked.total < 2 ^ 16 ∧
        next = { slot with summ := slot.summ + unmasked.total } := by
  have hpos : slot.summ >>> slot.shift ≠ 0 := by
    rw [Nat.shiftRight_eq_div_pow]
    exact (Nat.div_pos hmean (Nat.two_pow_pos _)).ne'
  have hback : slot.rest + (slot.frequency + unmasked.total) = slot.summ + unmasked.total := by
    have := slot.shiftRight_le
    rw [rest, frequency, if_neg hpos]
    omega
  rw [escape_eq h]
  simp only [addSummary_eq_ok, hback]

/-- A run of escapes only adds up. -/
theorem run_escapes_ok_iff :
    ∀ (escapes : List UnmaskedStates) (slot : See2Context), slot.Usable →
      2 ^ slot.shift ≤ slot.summ →
      ((∃ last, slot.run (escapes.map Round.escape) = .ok last) ↔
        slot.summ + (escapes.map UnmaskedStates.total).sum < 2 ^ 16) := by
  intro escapes
  induction escapes with
  | nil =>
      intro slot h _
      exact ⟨fun _ => h.summ_lt, fun _ => ⟨slot, rfl⟩⟩
  | cons unmasked rest ih =>
      intro slot h hmean
      rw [List.map_cons, run_cons, List.map_cons, List.sum_cons]
      constructor
      · rintro ⟨last, hlast⟩
        cases hstep : slot.step (.escape unmasked) with
        | error e => rw [hstep] at hlast; exact absurd hlast (by simp [bind, Except.bind])
        | ok next =>
            rw [hstep] at hlast
            have husable := usable_step h hstep
            obtain ⟨-, rfl⟩ := (step_escape h hmean unmasked).mp hstep
            have := (ih _ husable (Nat.le_add_right_of_le hmean)).mp ⟨last, hlast⟩
            simpa [Nat.add_assoc] using this
      · intro hlt
        have hstep := (step_escape h hmean unmasked).mpr ⟨by omega, rfl⟩
        rw [hstep]
        refine (ih _ (usable_step h hstep) (Nat.le_add_right_of_le hmean)).mpr ?_
        simpa [Nat.add_assoc] using hlt

/-- A context with a hundred symbols left in it, all of them frequent. -/
def hundredStates : UnmaskedStates where
  frequencies := List.replicate 100 124
  nonempty := by decide
  length_le := by decide
  frequency_le := by decide

end See2Context

end Ppmd

end Un7z
