/-
Interruptions of the opening of volumes.

An operation masks no interruption when a budget below its price ends it with exhausted
work units, and a flag that one of its checks finds set ends it with a cancellation.
A `Work` masks none.  Opening volumes is one only as long as the probe asks for no more:
then its third phase fails with its own errors.  As soon as the probe does ask for more,
the first check of the third phase can fail, and it is a volume that is reported missing.
-/
import Un7z.Volume
import Un7z.Proofs.FolderExecution
import Un7z.Proofs.WorkBudget
import Un7z.Proofs.CompletenessProbe

namespace Un7z

open Metered (fail)

variable {α β σ : Type}

/-! ### Operations that mask nothing -/

/--
With this budget the operation looks at the flag more than `checks` times.

A flag that is found clear `checks + 1` times and set from then on is then used up.
-/
def Observes (op : Operation α) (budget : WorkBudget) (checks : Nat) : Prop :=
  (op ⟨⟨some (checks + 1)⟩, budget⟩).2.cancellation.checksLeft = some 0

structure Unmasked (op : Operation α) : Prop where
  exhausted : ∀ units < (op (.uncancelled .unlimited)).2.budget.consumed,
    ∃ requested maximum, (op (.uncancelled (.bounded units))).1
      = .error (.limitExceeded .workUnits requested maximum)
  cancelled : ∀ budget checks, Observes op budget checks →
    (op ⟨⟨some checks⟩, budget⟩).1 = .error .cancelled

/-- A flag found set stays set. -/
theorem checksLeft_of_replay {r : Except Error α} {trace : List Charge} {control : ParseControl}
    {out : Except Error α × ParseControl} (h : Replay r trace control out) :
    control.cancellation.checksLeft = some 0 → out.2.cancellation.checksLeft = some 0 := by
  induction h with
  | done => exact id
  | pay _ _ ih =>
      intro hset
      refine ih ?_
      show (Option.map _ _) = _
      rw [hset, Option.map_some, Nat.zero_sub]
  | refuse _ hrefuses =>
      intro hset
      obtain ⟨rfl, -⟩ := hrefuses
      show (Option.map _ _) = _
      rw [hset, Option.map_some, Nat.zero_sub]

/--
Two replays whose flags are set one check apart.

They agree until the second finds its flag set, and the first has used its flag up only
if it came as far as that.
-/
theorem cancelled_of_replay {r : Except Error α} (trace : List Charge) :
    ∀ {checks : Nat} {budget : WorkBudget} {later out : Except Error α × ParseControl},
      Replay r trace ⟨⟨some (checks + 1)⟩, budget⟩ later →
      later.2.cancellation.checksLeft = some 0 →
      Replay r trace ⟨⟨some checks⟩, budget⟩ out → out.1 = .error .cancelled := by
  have hcancelled : ∀ {checks : Nat} {budget : WorkBudget} {charge : Charge} {e : Error}
      {after : ParseControl}, checks < charge.1 →
      ParseControl.Refuses ⟨⟨some checks⟩, budget⟩ charge e after → e = .cancelled := by
    intro checks budget charge e after hlt hrefuses
    obtain ⟨-, ⟨hcovers, -⟩ | ⟨-, rfl⟩⟩ := hrefuses
    · exact absurd (hcovers checks rfl) (by omega)
    · rfl
  induction trace with
  | nil =>
      intro checks budget later out hlater hused _
      cases hlater
      exact absurd (Option.some.inj hused) (by omega)
  | cons charge rest ih =>
      intro checks budget later out hlater hused hout
      by_cases hcheck : charge.1 ≤ checks
      · have hnext : checks + 1 - charge.1 = checks - charge.1 + 1 := by omega
        cases hlater with
        | pay hcovers hrest =>
            cases hout with
            | pay _ hrest' =>
                have hearlier : Replay r rest
                    ⟨⟨some (checks - charge.1 + 1)⟩, budget.spend charge.2⟩ later := by
                  rw [← hnext]
                  exact hrest
                exact ih hearlier hused hrest'
            | refuse hnot _ =>
                exact absurd ⟨fun n hn => Option.some.inj hn ▸ hcheck, hcovers.2⟩ hnot
        | refuse _ hrefuses =>
            obtain ⟨rfl, -⟩ := hrefuses
            have hzero : checks + 1 - charge.1 = 0 := Option.some.inj hused
            omega
      · cases hout with
        | pay hcovers _ => exact absurd (hcovers.1 checks rfl) hcheck
        | refuse _ hrefuses => exact congrArg Except.error (hcancelled (by omega) hrefuses)

/-- **A `Work` masks no interruption.** -/
theorem Work.unmasked (m : Work α) : Unmasked m.run where
  exhausted units hlt := by
    have hprice : units < m.cost.2 := by
      by_cases hfits : m.cost.2 < 2 ^ 64
      · rwa [Work.run_unlimited m hfits] at hlt
      · have := (m.run (.uncancelled .unlimited)).2.budget.consumed_lt
        omega
    obtain ⟨requested, maximum, control, hrun⟩ := m.run_exhausted hprice
    exact ⟨requested, maximum, congrArg Prod.fst hrun⟩
  cancelled _ _ hobserves := cancelled_of_replay m.trace (m.replay _) hobserves (m.replay _)

/-! ### Work that looks at the flag first -/

/-- There is a check, and nothing before it. -/
def ChecksFirst (m : Work α) : Prop := ∃ units rest, m.trace = (1, units) :: rest

theorem checksFirst_checkpoint (units : Nat) : ChecksFirst (checkpoint units) := ⟨units, [], rfl⟩

theorem ChecksFirst.bind {m : Work α} (h : ChecksFirst m) (f : α → Work β) :
    ChecksFirst (m >>= f) := by
  obtain ⟨units, rest, htrace⟩ := h
  exact ⟨units, rest ++ Metered.traceAfter m.result f, by rw [Metered.trace_bind, htrace]; rfl⟩

theorem checksFirst_of_free {m : Work α} {f : α → Work β} {a : α} (hfree : m.trace = [])
    (hresult : m.result = .ok a) (h : ChecksFirst (f a)) : ChecksFirst (m >>= f) := by
  obtain ⟨units, rest, htrace⟩ := h
  exact ⟨units, rest, by rw [Metered.trace_bind, hfree, hresult]; exact htrace⟩

/-- A flag that is set after one check is used up. -/
theorem ChecksFirst.used {m : Work α} (h : ChecksFirst m) (budget : WorkBudget) :
    (m.run ⟨⟨some 1⟩, budget⟩).2.cancellation.checksLeft = some 0 := by
  obtain ⟨units, rest, htrace⟩ := h
  have hreplay := m.replay ⟨⟨some 1⟩, budget⟩
  rw [htrace] at hreplay
  generalize m.run ⟨⟨some 1⟩, budget⟩ = out at hreplay
  cases hreplay with
  | pay _ hrest => exact checksLeft_of_replay hrest rfl
  | refuse _ hrefuses =>
      obtain ⟨rfl, -⟩ := hrefuses
      rfl

/-- A flag that is set from the start ends it. -/
theorem ChecksFirst.fails {m : Work α} (h : ChecksFirst m) (budget : WorkBudget) :
    ∃ e after, m.run ⟨⟨some 0⟩, budget⟩ = (.error e, after) := by
  obtain ⟨units, rest, htrace⟩ := h
  have hreplay := m.replay ⟨⟨some 0⟩, budget⟩
  rw [htrace] at hreplay
  generalize m.run ⟨⟨some 0⟩, budget⟩ = out at hreplay ⊢
  cases hreplay with
  | pay hcovers _ => exact absurd (hcovers.1 0 rfl) (by simp)
  | refuse _ _ => exact ⟨_, _, rfl⟩

theorem trace_orFormat (value : Option α) (detail : String) : (orFormat value detail).trace = [] := by
  cases value <;> rfl

theorem trace_checkLimit (value maximum : Nat) (limit : LimitKind) :
    (checkLimit value maximum limit).trace = [] := by
  unfold checkLimit
  by_cases h : value > maximum
  · rw [if_pos h]
    rfl
  · rw [if_neg h]
    rfl

theorem trace_checkedRange (bytes : Bytes) (start length : Nat) (o t : String) :
    (checkedRange bytes start length o t).trace = [] := by
  rw [checkedRange, Metered.trace_bind, trace_orFormat, List.nil_append]
  cases (orFormat (checkedAdd 64 start length) o).result with
  | error e => rfl
  | ok stop =>
      show (if stop ≤ bytes.length then _ else _ : Work Bytes).trace = []
      by_cases h : stop ≤ bytes.length
      · rw [if_pos h]
        rfl
      · rw [if_neg h]
        rfl

namespace Parser

variable {bytes : Bytes} {limits : Limits}

theorem trace_scanBytes : (scanBytes bytes limits).trace = [] := by
  unfold scanBytes
  cases checkedSub bytes.length signature.length with
  | none => rfl
  | some lastPossibleOffset =>
      rw [Metered.trace_bind, trace_orFormat, List.nil_append]
      cases (orFormat (checkedAdd 64 (min lastPossibleOffset limits.sfxScanLimit) signature.length)
        "SFX scan range overflows").result with
      | error e => rfl
      | ok scanLength =>
          show (checkedRange bytes 0 scanLength _ _ >>= _).trace = []
          rw [Metered.trace_bind, trace_checkedRange, List.nil_append]
          cases (checkedRange bytes 0 scanLength "SFX scan range overflows"
            "truncated SFX scan range").result <;> rfl

theorem checksFirst_validatedCandidate (offset : Nat) :
    ChecksFirst (validatedCandidate bytes offset limits) :=
  ((checksFirst_checkpoint fixedHeaderSize).bind _).bind _

theorem checksFirst_scanCandidates {scan : Bytes} (hlong : signature.length ≤ scan.length) :
    ChecksFirst (scanCandidates bytes limits 0 scan none) := by
  cases scan with
  | nil => exact absurd hlong (by decide)
  | cons byte rest =>
      rw [scanCandidates, if_neg (by omega)]
      exact (checksFirst_checkpoint 1).bind _

/-- Where there is room for a signature, the parser looks at the flag before all else. -/
theorem checksFirst_parseArchive (hlt : bytes.length < 2 ^ 64)
    (hlimit : bytes.length ≤ limits.maxTotalInputBytes) (hlong : signature.length ≤ bytes.length) :
    ChecksFirst (parseArchive bytes limits) := by
  refine checksFirst_of_free (trace_checkLimit _ _ _) (checkLimit_of_le hlimit _) ?_
  by_cases hstart : signature.isPrefixOf bytes
  · rw [if_pos hstart]
    exact checksFirst_validatedCandidate 0
  · rw [if_neg hstart]
    refine checksFirst_of_free trace_scanBytes (scanBytes_result hlt hlong) ?_
    refine checksFirst_scanCandidates ?_
    rw [List.length_take]
    omega

end Parser

namespace Volume

variable {provider : VolumeProvider σ} {limits : Limits}

/-! ### How much is read -/

/-- A read yields what it takes from what remains. -/
theorem readChunk_length {remaining left : Nat} {bytes : Bytes} {state state' : σ}
    (h : (readChunk provider remaining).result state = (.ok (bytes, left), state')) :
    bytes.length + left = remaining := by
  simp only [readChunk, Session.bind_eq_ok] at h
  obtain ⟨_, _, -, read, _, -, h⟩ := h
  by_cases hzero : read.count = 0
  · rw [if_pos hzero] at h
    exact absurd h (by simp [Session.result_lift_eq_ok])
  · rw [if_neg hzero] at h
    simp only [Session.bind_eq_ok, Session.result_lift_eq_ok, orFormat_eq_ok, checkedSub_eq_some,
      checkedRange_eq_ok] at h
    obtain ⟨_, _, -, _, _, ⟨⟨hle, rfl⟩, -⟩, _, _, ⟨⟨-, htarget, rfl⟩, -⟩, h⟩ := h
    obtain ⟨rfl, rfl⟩ := Prod.mk.inj (Except.ok.inj (congrArg Prod.fst h))
    rw [List.length_take, List.length_drop]
    omega

theorem readRemaining_length (fuel : Nat) : ∀ {remaining : Nat} {output bytes : Bytes}
    {state state' : σ},
    (readRemaining provider fuel remaining output).result state = (.ok bytes, state') →
    bytes.length ≤ output.length + remaining := by
  induction fuel with
  | zero =>
      intro remaining output bytes state state' h
      obtain rfl := Except.ok.inj (congrArg Prod.fst h)
      exact Nat.le_add_right _ _
  | succ fuel ih =>
      intro remaining output bytes state state' h
      cases remaining with
      | zero =>
          obtain rfl := Except.ok.inj (congrArg Prod.fst h)
          exact Nat.le_refl _
      | succ remaining =>
          rw [readRemaining, Session.bind_eq_ok] at h
          obtain ⟨⟨chunk, left⟩, _, hchunk, h⟩ := h
          have hlength := readChunk_length hchunk
          have hle := ih h
          rw [List.length_append] at hle
          omega

/-- The bytes that are read can be counted, and are within the limit. -/
def Admitted (limits : Limits) (bytes : Bytes) : Prop :=
  bytes.length < 2 ^ 64 ∧ bytes.length ≤ limits.maxTotalInputBytes

theorem appendVolume_admitted {output bytes : Bytes} {state state' : σ}
    (h : (appendVolume provider limits output).result state = (.ok bytes, state')) :
    Admitted limits bytes := by
  simp only [appendVolume, Session.bind_eq_ok, Session.result_lift_eq_ok, orFormat_eq_ok,
    checkedAdd_eq_some, checkLimit_eq_ok] at h
  obtain ⟨_, _, -, length, _, -, _, _, ⟨⟨hlt, rfl⟩, -⟩, _, _, ⟨hlimit, -⟩, _, _, -, h⟩ := h
  have hle := readRemaining_length _ h
  exact ⟨by omega, by omega⟩

theorem readVolumesFrom_admitted {firstName : String} (fuel : Nat) : ∀ {index : Nat}
    {bytes : Bytes} {volumes : VolumeBytes} {state state' : σ}, Admitted limits bytes →
    (readVolumesFrom provider firstName limits fuel index bytes).result state
      = (.ok volumes, state') →
    Admitted limits volumes.bytes := by
  induction fuel with
  | zero =>
      intro index bytes volumes state state' hbytes h
      simp only [readVolumesFrom, volumeLimit, Session.result_lift_eq_ok, Metered.bind_eq_ok] at h
      obtain ⟨⟨_, -, h⟩, -⟩ := h
      by_cases hempty : bytes.isEmpty
      · rw [if_pos hempty] at h
        exact absurd h (by simp)
      · rw [if_neg hempty] at h
        obtain rfl := Except.ok.inj h
        exact hbytes
  | succ fuel ih =>
      intro index bytes volumes state state' hbytes h
      simp only [readVolumesFrom, Session.bind_eq_ok] at h
      obtain ⟨_, _, -, _, _, -, _, _, -, opened, _, -, h⟩ := h
      cases opened with
      | some termination =>
          obtain rfl := Except.ok.inj (congrArg Prod.fst h)
          exact hbytes
      | none =>
          obtain ⟨_, _, happend, h⟩ := Session.bind_eq_ok.mp h
          exact ih (appendVolume_admitted happend) h

theorem readSequentialVolumes_admitted {firstName : String} {volumes : VolumeBytes}
    {state state' : σ}
    (h : (readSequentialVolumes provider firstName limits).result state = (.ok volumes, state')) :
    Admitted limits volumes.bytes :=
  readVolumesFrom_admitted _ ⟨by decide, Nat.zero_le _⟩ h

end Volume

namespace Archive

variable {codecs : Codecs} {layout : Layout} {provider : VolumeProvider σ} {firstName : String}
  {limits : Limits} {password : Option Password} {state : σ}

/-! ### The three phases -/

/-- A control that covers all three phases lets them end as they do uninterrupted. -/
theorem openVolumesInner_of_covers {control : ParseControl}
    (hread : control.Covers (readAndProbe provider firstName limits state).cost)
    (hopen : ∀ volumes more state', (readAndProbe provider firstName limits state).result
      = .ok ((volumes, more), state') →
        (control.spend (readAndProbe provider firstName limits state).cost).Covers
          (openBytes codecs layout volumes.bytes limits password).cost) :
    (openVolumesInner codecs layout provider firstName limits password state control).1
      = openVolumesResult codecs layout provider firstName limits password state := by
  rw [openVolumesInner, (readAndProbe provider firstName limits state).pays control hread,
    openVolumesResult, Session.result]
  cases hresult : (readAndProbe provider firstName limits state).result with
  | error failure => rfl
  | ok probed =>
      obtain ⟨⟨volumes, more⟩, state'⟩ := probed
      have hpays := (openBytes codecs layout volumes.bytes limits password).pays _
        (hopen volumes more state' hresult)
      show (Except.mapError _ (Metered.run _ (control.spend _)).1, _) = _
      rw [hpays]
      rfl

/-- `open_volumes_inner` as an operation, which is over when the volumes are let go. -/
def openVolumesOperation (codecs : Codecs) (layout : Layout) (provider : VolumeProvider σ)
    (firstName : String) (limits : Limits) (password : Option Password) (state : σ) :
    Operation Archive := fun control =>
  let opened := openVolumesInner codecs layout provider firstName limits password state control
  (opened.1.1, opened.2)

/-- The three phases, with the error that no bytes at all end in already replaced. -/
def openVolumesWork (codecs : Codecs) (layout : Layout) (provider : VolumeProvider σ)
    (firstName : String) (limits : Limits) (password : Option Password) (state : σ) :
    Work Archive :=
  (readAndProbe provider firstName limits).discard state >>= fun probed =>
    if probed.1.bytes.isEmpty then
      fail (reportedError probed.1.termination probed.2 (formatError "7z signature was not found"))
    else
      openBytes codecs layout probed.1.bytes limits password

theorem openBytes_nil_run (control : ParseControl) :
    (openBytes codecs layout [] limits password).run control
      = (.error (formatError "7z signature was not found"), control) := by
  have hlimit : ¬ ([] : Bytes).length > limits.maxTotalInputBytes := Nat.not_lt_zero _
  rw [openBytes, Metered.run_bind, Parser.parseArchive, checkLimit, if_neg hlimit]
  rfl

theorem mapError_id {r : Except Error α} {termination : VolumeTermination} :
    r.mapError (reportedError termination false) = r := by
  cases r <;> rfl

/-- Where the probe asks for no more of bytes that are there, the phases are one `Work`. -/
theorem openVolumesOperation_eq_work
    (h : ∀ volumes state', (readAndProbe provider firstName limits state).result
      = .ok ((volumes, true), state') → volumes.bytes ≠ [] →
        2 ^ 64 ≤ (readAndProbe provider firstName limits state).cost.2) :
    openVolumesOperation codecs layout provider firstName limits password state
      = (openVolumesWork codecs layout provider firstName limits password state).run := by
  funext control
  rw [openVolumesOperation, openVolumesInner, openVolumesWork, Metered.run_bind]
  have hdiscard : ((readAndProbe provider firstName limits).discard state).run control
      = ((Session.outcome ((readAndProbe provider firstName limits state).run control).1).1,
        ((readAndProbe provider firstName limits state).run control).2) := rfl
  rw [hdiscard]
  cases hrun : (readAndProbe provider firstName limits state).run control with
  | mk out control' =>
      rcases out with ⟨error, state'⟩ | ⟨⟨volumes, more⟩, state'⟩
      · rfl
      · show (((openBytes codecs layout volumes.bytes limits password).run control').1.mapError
          (reportedError volumes.termination more),
          ((openBytes codecs layout volumes.bytes limits password).run control').2)
          = Metered.run (if _ then _ else _) control'
        by_cases hempty : volumes.bytes = []
        · rw [if_pos (by simp [hempty]), hempty, openBytes_nil_run]
          rfl
        · rw [if_neg (by simpa using hempty)]
          cases more with
          | false => rw [mapError_id]
          | true =>
              -- the run got here, so the budget has counted what it took
              obtain ⟨hresult, -⟩ := Metered.result_of_run_ok hrun
              have hcovers : control.Covers (readAndProbe provider firstName limits state).cost := by
                by_contra hnot
                obtain ⟨e, _, hstop, -⟩ :=
                  (readAndProbe provider firstName limits state).stops control hnot
                exact absurd (congrArg Prod.fst (hrun.symm.trans hstop)) (by simp)
              have hcounted := hcovers.2.2
              have := h volumes state' hresult hempty
              omega

theorem needsMore_eq_true {volumes : VolumeBytes} (hadmitted : Volume.Admitted limits volumes.bytes)
    (hne : volumes.bytes ≠ []) :
    (needsMore volumes.bytes limits).result = .ok true ↔
      Parser.DeclaresMore volumes.bytes limits := by
  rw [needsMore, if_neg (by simpa using hne)]
  exact Parser.archiveDeclaresMoreBytes_eq_true hadmitted.1 hadmitted.2

/-- The first two phases end with a call for more just when the bytes declare more. -/
theorem readAndProbe_eq_true {volumes : VolumeBytes} {state' : σ} (hne : volumes.bytes ≠ []) :
    (readAndProbe provider firstName limits).result state = (.ok (volumes, true), state') ↔
      (Volume.readSequentialVolumes provider firstName limits).result state
        = (.ok volumes, state') ∧ Parser.DeclaresMore volumes.bytes limits := by
  rw [readAndProbe, Session.bind_eq_ok]
  constructor
  · rintro ⟨read, _, hread, h⟩
    obtain ⟨more, _, hprobe, hpure⟩ := Session.bind_eq_ok.mp h
    obtain ⟨hmore, rfl⟩ := Session.result_lift_eq_ok.mp hprobe
    simp only [Session.result_pure, Prod.mk.injEq, Except.ok.injEq] at hpure
    obtain ⟨⟨rfl, rfl⟩, rfl⟩ := hpure
    exact ⟨hread, (needsMore_eq_true (Volume.readSequentialVolumes_admitted hread) hne).mp hmore⟩
  · rintro ⟨hread, hmore⟩
    have hmore := (needsMore_eq_true (Volume.readSequentialVolumes_admitted hread) hne).mpr hmore
    exact ⟨volumes, state', hread, Session.result_lift_bind hmore⟩

theorem termination_ne_cancelled (termination : VolumeTermination) :
    termination.error ≠ .cancelled := by
  cases termination <;> exact fun h => by cases h

theorem ne_nil_of_declaresMore {bytes : Bytes} (h : Parser.DeclaresMore bytes limits) :
    signature.length ≤ bytes.length := by
  obtain ⟨offset, hfirst, -⟩ := h
  have hle := hfirst.candidate.1.length_le
  rw [List.length_drop] at hle
  omega

/-- A cancellation at the first check of the third phase is reported as a missing volume. -/
theorem masked_of_declaresMore {volumes : VolumeBytes} {state' : σ}
    (hread : (Volume.readSequentialVolumes provider firstName limits).result state
      = (.ok volumes, state'))
    (hmore : Parser.DeclaresMore volumes.bytes limits)
    (hfits : (readAndProbe provider firstName limits state).cost.2 < 2 ^ 64) :
    ¬ Unmasked (openVolumesOperation codecs layout provider firstName limits password state) := by
  intro hunmasked
  obtain ⟨hlt, hlimit⟩ := Volume.readSequentialVolumes_admitted hread
  have hlong := ne_nil_of_declaresMore hmore
  have hne : volumes.bytes ≠ [] := List.ne_nil_of_length_pos (Nat.lt_of_lt_of_le (by decide) hlong)
  have hresult : (readAndProbe provider firstName limits state).result
      = .ok ((volumes, true), state') :=
    Session.outcome_eq_ok.mp ((readAndProbe_eq_true hne).mpr ⟨hread, hmore⟩)
  have hfirst : ChecksFirst (openBytes codecs layout volumes.bytes limits password) :=
    (Parser.checksFirst_parseArchive hlt hlimit hlong).bind _
  -- the flag holds for the first two phases, and for `extra` checks more
  have hrun : ∀ extra, (readAndProbe provider firstName limits state).run
      ⟨⟨some ((readAndProbe provider firstName limits state).cost.1 + extra)⟩, .unlimited⟩
      = (.ok ((volumes, true), state'), ⟨⟨some extra⟩,
        WorkBudget.unlimited.spend (readAndProbe provider firstName limits state).cost.2⟩) := by
    intro extra
    have hcovers : ParseControl.Covers
        ⟨⟨some ((readAndProbe provider firstName limits state).cost.1 + extra)⟩, .unlimited⟩
        (readAndProbe provider firstName limits state).cost := by
      refine ⟨fun n hn => ?_, fun _ hr => absurd hr (by simp [WorkBudget.unlimited]), ?_⟩
      · obtain rfl := Option.some.inj hn
        exact Nat.le_add_right _ _
      · simpa [WorkBudget.unlimited] using hfits
    have hleft : CancellationToken.spend
        ⟨some ((readAndProbe provider firstName limits state).cost.1 + extra)⟩
        (readAndProbe provider firstName limits state).cost.1 = ⟨some extra⟩ := by
      rw [CancellationToken.spend, Option.map_some, Nat.add_sub_cancel_left]
    rw [Metered.pays _ _ hcovers, hresult, ← hleft]
    rfl
  have hobserves : Observes
      (openVolumesOperation codecs layout provider firstName limits password state) .unlimited
      (readAndProbe provider firstName limits state).cost.1 := by
    rw [Observes, openVolumesOperation, openVolumesInner, hrun 1]
    exact hfirst.used _
  have hcancelled := hunmasked.cancelled _ _ hobserves
  obtain ⟨error, after, hfails⟩ := hfirst.fails
    (WorkBudget.unlimited.spend (readAndProbe provider firstName limits state).cost.2)
  have hrun := hrun 0
  rw [Nat.add_zero] at hrun
  rw [openVolumesOperation, openVolumesInner, hrun] at hcancelled
  simp only [hfails] at hcancelled
  exact termination_ne_cancelled _ (Except.error.inj hcancelled)

/--
**Opening volumes masks no interruption** exactly when the bytes of the volumes that are
there declare no more than there is.

The exception is a matter of 64 bits: where what is read cannot be counted, no control
lets it come to the third phase.
-/
theorem openVolumes_unmasked_iff :
    Unmasked (openVolumesOperation codecs layout provider firstName limits password state) ↔
      ∀ volumes state',
        (Volume.readSequentialVolumes provider firstName limits).result state
          = (.ok volumes, state') →
        Parser.DeclaresMore volumes.bytes limits →
        2 ^ 64 ≤ (readAndProbe provider firstName limits state).cost.2 := by
  constructor
  · intro hunmasked volumes state' hread hmore
    by_contra hfits
    exact masked_of_declaresMore hread hmore (by omega) hunmasked
  · intro h
    rw [openVolumesOperation_eq_work]
    · exact Work.unmasked _
    · intro volumes state' hresult hne
      obtain ⟨hread, hmore⟩ :=
        (readAndProbe_eq_true hne).mp (Session.outcome_eq_ok.mpr hresult)
      exact h volumes state' hread hmore

/--
For a volume that holds the signature alone, 38 units are charged; a budget of six is used
up by the third phase, and is reported as a missing volume.
-/
theorem openVolumes_masked_signature :
    (openVolumesOperation Execute.noCodecs ⟨1, 0, 0, 0, 0, 0, 0, 0, 0, 0⟩
        (memoryVolumeProvider [signature]) "a.001" {} none (0, 0)
        (.uncancelled .unlimited)).2.budget.consumed = 38 ∧
      (openVolumesOperation Execute.noCodecs ⟨1, 0, 0, 0, 0, 0, 0, 0, 0, 0⟩
        (memoryVolumeProvider [signature]) "a.001" {} none (0, 0)
        (.uncancelled (.bounded 6))).1 = .error (.missingVolume "a.002") :=
  ⟨by decide +kernel, by decide +kernel⟩

end Archive

end Un7z
