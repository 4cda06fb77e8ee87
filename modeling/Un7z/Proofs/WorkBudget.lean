/-
A work budget decides whether a parse ends, never how.

`Work` carries the outcome and the price of its uninterrupted run, and the two laws of
`Metered` say what any purse makes of them.  Here the purse is a control that nobody
cancels, so the laws become statements about units: an unlimited budget counts the
price, a bounded one that covers it ends with the same outcome and the change, and one
that does not ends with exhaustion.

`parseArchive` is a `Work`, scan and swallowed candidate errors included, so the
two-run law for it is an instance.  What made that type-check is `interrupts_fatal`:
the only place where the parser catches an error lets every exhaustion through.
-/
import Un7z.Parser

namespace Un7z

variable {α : Type}

namespace Work

/-- What one uncancelled run costs is what an unlimited budget has counted after it. -/
theorem run_unlimited (m : Work α) (h : m.cost.2 < 2 ^ 64) :
    m.run (.uncancelled .unlimited) = (m.result, .uncancelled ⟨none, m.cost.2, h⟩) := by
  have hcovers : (ParseControl.uncancelled .unlimited).Covers m.cost := by
    refine ⟨fun _ hn => absurd hn (by simp [ParseControl.uncancelled]), ?_, ?_⟩
    · intro r hr
      exact absurd hr (by simp [ParseControl.uncancelled, WorkBudget.unlimited])
    · simpa [ParseControl.uncancelled, WorkBudget.unlimited] using h
  rw [m.pays _ hcovers]
  refine congrArg _ (congrArg ParseControl.uncancelled (WorkBudget.ext' rfl ?_))
  simpa [ParseControl.uncancelled, WorkBudget.spend, WorkBudget.unlimited] using h

/-- A bounded budget that covers the price ends with the outcome, and keeps the rest. -/
theorem run_bounded (m : Work α) (h : m.cost.2 < 2 ^ 64) {units : Nat} (hle : m.cost.2 ≤ units) :
    m.run (.uncancelled (.bounded units))
      = (m.result, .uncancelled ⟨some (units - m.cost.2), m.cost.2, h⟩) := by
  have hcovers : (ParseControl.uncancelled (.bounded units)).Covers m.cost := by
    refine ⟨fun _ hn => absurd hn (by simp [ParseControl.uncancelled]), ?_, ?_⟩
    · intro r hr
      have hr' : units = r := by simpa [ParseControl.uncancelled, WorkBudget.bounded] using hr
      exact hr' ▸ hle
    · simpa [ParseControl.uncancelled, WorkBudget.bounded] using h
  rw [m.pays _ hcovers]
  refine congrArg _ (congrArg ParseControl.uncancelled (WorkBudget.ext' rfl ?_))
  simpa [ParseControl.uncancelled, WorkBudget.spend, WorkBudget.bounded] using h

/-- Nobody cancels, so all that can stop such a run is its budget. -/
theorem interrupts_uncancelled {budget : WorkBudget} {e : Error}
    (h : Purse.interrupts Charge (ParseControl.uncancelled budget) e) :
    ∃ requested maximum, e = .limitExceeded .workUnits requested maximum := by
  rcases h with ⟨-, hsome⟩ | h
  · exact absurd hsome (by simp [ParseControl.uncancelled])
  · exact h

/-- A bounded budget below the price ends with exhaustion, whatever the outcome is. -/
theorem run_exhausted (m : Work α) {units : Nat} (hlt : units < m.cost.2) :
    ∃ requested maximum control, m.run (.uncancelled (.bounded units))
      = (.error (.limitExceeded .workUnits requested maximum), control) := by
  have hnot : ¬ (ParseControl.uncancelled (.bounded units)).Covers m.cost := by
    intro hcovers
    have hle : m.cost.2 ≤ units := hcovers.2.1 units rfl
    omega
  obtain ⟨e, control, hrun, hint⟩ := m.stops _ hnot
  obtain ⟨requested, maximum, rfl⟩ := interrupts_uncancelled hint
  exact ⟨requested, maximum, control, hrun⟩

end Work

namespace Parser

/--
**The two-run law.** The units an unlimited parse charges decide every bounded one: from
that many on a budget yields the same result and keeps the difference, and below it the
parse ends with exhausted work units.
-/
theorem parseArchive_twoRun (bytes : Bytes) (limits : Limits)
    (h : (parseArchive bytes limits).cost.2 < 2 ^ 64) :
    ∃ result units, ∃ hunits : units < 2 ^ 64,
      (parseArchive bytes limits).run (.uncancelled .unlimited)
          = (result, .uncancelled ⟨none, units, hunits⟩) ∧
        ∀ n,
          (units ≤ n → (parseArchive bytes limits).run (.uncancelled (.bounded n))
            = (result, .uncancelled ⟨some (n - units), units, hunits⟩)) ∧
          (n < units → ∃ requested maximum control,
            (parseArchive bytes limits).run (.uncancelled (.bounded n))
              = (.error (.limitExceeded .workUnits requested maximum), control)) := by
  refine ⟨(parseArchive bytes limits).result, (parseArchive bytes limits).cost.2, h,
    Work.run_unlimited _ h, fun n => ⟨fun hle => ?_, fun hlt => ?_⟩⟩
  · exact Work.run_bounded _ h hle
  · exact Work.run_exhausted _ hlt

/-- Seven zero bytes hold no signature: two windows are charged for, and then the parse fails. -/
theorem parseArchive_twoRun_zeros :
    ∃ result units, ∃ hunits : units < 2 ^ 64,
      (parseArchive (List.replicate 7 0) {}).run (.uncancelled .unlimited)
          = (result, .uncancelled ⟨none, units, hunits⟩) ∧
        ∀ n,
          (units ≤ n → (parseArchive (List.replicate 7 0) {}).run (.uncancelled (.bounded n))
            = (result, .uncancelled ⟨some (n - units), units, hunits⟩)) ∧
          (n < units → ∃ requested maximum control,
            (parseArchive (List.replicate 7 0) {}).run (.uncancelled (.bounded n))
              = (.error (.limitExceeded .workUnits requested maximum), control)) :=
  parseArchive_twoRun (List.replicate 7 0) {} (by decide)

end Parser

end Un7z
