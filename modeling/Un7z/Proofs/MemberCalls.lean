/-
Calls on a `MemberReader`, some of which fail.

A call of `read_chunk` charges the bytes it is about to read chunk by chunk, and folds each
chunk into the checksum as it goes, but it moves the position only at its end.  So a call
that fails leaves a checksum behind that has run ahead of the position.  Such a reader is
never finished: what stopped the call is either a flag that stays set, or a charge of no
more than the bytes still unread, which the budget does not cover from then on
(`Starved`).  Every later read takes from the budget just what it takes from those bytes.
-/
import Un7z.Proofs.MemberReads
import Un7z.Proofs.ExtractionPaths
import Un7z.Proofs.Interruptions

namespace Un7z

/-! ### What a stopped run leaves of its control -/

/-- The control cannot pay for this many units any more. -/
def ParseControl.Starved (control : ParseControl) (units : Nat) : Prop :=
  ¬ control.cancellation.Covers 1 ∨ ¬ control.budget.Covers units

namespace ParseControl

theorem Starved.mono {control : ParseControl} {units more : Nat} (h : control.Starved units)
    (hle : units ≤ more) : control.Starved more := by
  refine h.imp id fun hbudget hcovers => hbudget ⟨fun r hr => ?_, ?_⟩
  · exact hle.trans (hcovers.1 r hr)
  · have := hcovers.2
    omega

/-- What was starved of a sum and pays a part of it is starved of the rest. -/
theorem Starved.spend {control : ParseControl} {charge : Charge} {units : Nat}
    (h : control.Starved (charge.2 + units)) (hcheck : 0 < charge.1)
    (hcovers : control.Covers charge) : (control.spend charge).Starved units := by
  rcases h with hset | hbudget
  · exact absurd (fun n hn => hcheck.trans_le (hcovers.1 n hn)) hset
  · rw [WorkBudget.covers_add] at hbudget
    exact Or.inr fun hrest => hbudget ⟨hcovers.2, hrest⟩

theorem not_covers_of_starved {control : ParseControl} {charge : Charge}
    (h : control.Starved charge.2) (hcheck : 0 < charge.1) : ¬ control.Covers charge := by
  rintro ⟨htoken, hbudget⟩
  rcases h with hset | hunits
  · exact hset fun n hn => hcheck.trans_le (htoken n hn)
  · exact hunits hbudget

/-- A control that turns a charge down cannot pay for it later. -/
theorem Refuses.starved {control after : ParseControl} {charge : Charge} {error : Error}
    (hnot : ¬ control.Covers charge) (h : control.Refuses charge error after) :
    after.Starved charge.2 := by
  obtain ⟨rfl, ⟨htoken, -⟩ | ⟨hset, -⟩⟩ := h
  · exact Or.inr fun hbudget => hnot ⟨htoken, hbudget⟩
  · left
    intro hclear
    refine hset fun n hn => ?_
    have hleft : (control.cancellation.spend charge.1).checksLeft = some (n - charge.1) := by
      show Option.map _ _ = _
      rw [hn, Option.map_some]
    have := hclear _ hleft
    omega

end ParseControl

namespace Stateful

variable {σ α β : Type}

/-- A stopped run leaves a control that cannot pay for all of the run. -/
theorem starved_of_replay {r : Except (Error × σ) α} {trace : List Charge}
    {control : ParseControl} {out : Except (Error × σ) α × ParseControl}
    (h : Replay r trace control out) :
    ¬ control.Covers trace.sum → out.2.Starved trace.sum.2 := by
  induction h with
  | @done control =>
      intro hnot
      exact absurd (Purse.covers_zero (C := Charge) (ε := Error) control) hnot
  | @pay charge rest control out hcovers _ ih =>
      intro hnot
      have hrest : ¬ (control.spend charge).Covers rest.sum := by
        intro hrest
        rw [List.sum_cons] at hnot
        exact hnot ((Purse.covers_add (ε := Error) control charge rest.sum).mpr ⟨hcovers, hrest⟩)
      refine (ih hrest).mono ?_
      rw [List.sum_cons, Prod.snd_add]
      omega
  | @refuse charge rest control after error hnot hrefuses =>
      intro _
      refine (ParseControl.Refuses.starved hnot hrefuses).mono ?_
      rw [List.sum_cons, Prod.snd_add]
      omega

/-- A run is paid in full and ends in the result, or fails and leaves its control starved. -/
theorem run_paid_or_starved (m : Stateful σ α) (s : σ) (control : ParseControl) :
    control.Covers (m s).cost ∧ (m s).run control = ((m s).result, control.spend (m s).cost) ∨
      ¬ control.Covers (m s).cost ∧ (∃ e s', m.run s control = (.error e, s')) ∧
        ((m s).run control).2.Starved (m s).cost.2 := by
  by_cases hcovers : control.Covers (m s).cost
  · exact Or.inl ⟨hcovers, (m s).pays control hcovers⟩
  · obtain ⟨⟨e, s'⟩, control', hrun, -⟩ := (m s).stops control hcovers
    refine Or.inr ⟨hcovers, ⟨e, s', ?_⟩, starved_of_replay ((m s).replay control) hcovers⟩
    rw [Session.run, hrun]
    rfl

theorem cost_bind_ok {m : Stateful σ α} {f : α → Stateful σ β} {s s' : σ} {a : α}
    (h : m.result s = (.ok a, s')) : ((m >>= f) s).cost = (m s).cost + (f a s').cost := by
  show (m s >>= fun out => f out.1 out.2).cost = _
  rw [Metered.cost_bind, Session.outcome_eq_ok.mp h]
  rfl

/-- A first part that asks for nothing leaves the price to the second. -/
theorem cost_free_bind {m : Stateful σ α} {f : α → Stateful σ β} {s s' : σ} {a : α}
    (hfree : (m s).cost = 0) (h : m.result s = (.ok a, s')) :
    ((m >>= f) s).cost = (f a s').cost := by
  rw [cost_bind_ok h, hfree, zero_add]

theorem cost_lift (m : Work α) (s : σ) : ((liftM m : Stateful σ α) s).cost = m.cost := rfl

theorem cost_lift_free {m : Work α} (h : m.trace = []) (s : σ) :
    ((liftM m : Stateful σ α) s).cost = 0 := by
  rw [cost_lift, Metered.cost, h, List.sum_nil]

theorem cost_act {f : σ → Except Error α × σ} (s : σ) : ((Session.act f : Stateful σ α) s).cost = 0 := by
  unfold Session.act
  rcases f s with ⟨_ | _, _⟩ <;> rfl

end Stateful

namespace Archive

open Execute (DecodedFolder decodeFolder)

namespace MemberReader

variable {base reader : MemberReader} {position : Nat}

/-- The reader stands at this position of the member of `base`, whatever its checksum. -/
def StandsAt (base : MemberReader) (position : Nat) (reader : MemberReader) : Prop :=
  position ≤ base.member.length ∧ ∃ checksum, reader = base.seek position checksum

theorem Reached.standsAt (h : base.Reached position reader) : base.StandsAt position reader :=
  ⟨h.1, h.2.imp fun _ hchecksum => hchecksum.2⟩

/-! ### What a call costs -/

theorem length_chunks (bytes : Bytes) :
    (chunks controlChunkSize bytes).length = (bytes.length + 4095) / 4096 := by
  have hfrom : ∀ (fuel : Nat) (bytes : Bytes), bytes.length ≤ fuel →
      (chunksFrom 4096 fuel bytes).length = (bytes.length + 4095) / 4096 := by
    intro fuel
    induction fuel with
    | zero =>
        intro bytes h
        rw [List.eq_nil_of_length_eq_zero (Nat.le_zero.mp h)]
        rfl
    | succ fuel ih =>
        intro bytes h
        cases bytes with
        | nil => rfl
        | cons byte rest =>
            have hrest : ((byte :: rest).drop 4096).length = rest.length + 1 - 4096 := by
              rw [List.length_drop, List.length_cons]
            rw [List.length_cons] at h
            rw [chunksFrom, List.length_cons, ih _ (by omega), hrest, List.length_cons]
            omega
  exact hfrom _ bytes (Nat.le_refl _)

theorem cost_chargeChunks (pieces : List Bytes) : ∀ reader : MemberReader,
    (chargeChunks pieces reader).cost = (pieces.length, pieces.flatten.length) := by
  induction pieces with
  | nil =>
      intro reader
      rfl
  | cons piece rest ih =>
      intro reader
      obtain ⟨next, hnext⟩ := Crc32.update_ok piece reader.checksum
      have hpaid : (liftM (checkpoint piece.length) : Stateful MemberReader Unit).result reader
          = (.ok (), reader) := Session.result_lift_ok (result_checkpoint piece.length)
      rw [chargeChunks, Stateful.cost_bind_ok hpaid,
        Stateful.cost_bind_ok (updateChecksum_result hnext), ih, updateChecksum, Stateful.cost_act,
        Stateful.cost_lift]
      show ((1, piece.length) : Charge) + 0 + (0 + (rest.length, rest.flatten.length)) = _
      rw [zero_add, add_zero, List.length_cons, List.flatten_cons, List.length_append]
      exact Prod.ext (Nat.add_comm _ _) rfl

/-- What `read_chunk` charges for this many bytes: an empty read looks at the flag alone. -/
def readCharge (count : Nat) : Charge := (max 1 ((count + 4095) / 4096), count)

theorem cost_get (reader : MemberReader) : (get reader).cost = 0 := Stateful.cost_act _

theorem cost_advance (count : Nat) (reader : MemberReader) : (advance count reader).cost = 0 :=
  Stateful.cost_act _

theorem trace_size (reader : MemberReader) : reader.size.trace = [] := trace_orFormat _ _

theorem trace_sourceBytes (reader : MemberReader) (bufferLength : Nat) :
    (reader.sourceBytes bufferLength).trace = [] := by
  unfold sourceBytes
  rw [Metered.trace_bind, trace_orFormat, List.nil_append]
  cases (orFormat (checkedAdd 64 reader.start reader.position)
      "member read position overflows").result with
  | error e => rfl
  | ok absolute => exact trace_checkedRange _ _ _ _ _

theorem seek_done (h : base.Ranged) {bufferLength : Nat} {checksum : Crc32} :
    (bufferLength = 0 ∨ (base.seek position checksum).position ≥ base.stop - base.start) ↔
      (base.member.drop position).take bufferLength = [] := by
  have hlength := h.length_member
  rw [List.take_eq_nil_iff, List.drop_eq_nil_iff, hlength]
  exact Iff.rfl

theorem cost_readChunk (h : base.Ranged) (hat : base.StandsAt position reader)
    (bufferLength : Nat) : (readChunk bufferLength reader).cost
      = readCharge ((base.member.drop position).take bufferLength).length := by
  obtain ⟨hposition, checksum, rfl⟩ := hat
  have hsource := @sourceBytes_result base position bufferLength checksum h hposition
  have hsize : (liftM (base.seek position checksum).size : Stateful MemberReader Nat).result
      (base.seek position checksum) = (.ok (base.stop - base.start), base.seek position checksum) :=
    Session.result_lift_ok (orFormat_eq_ok.mpr (checkedSub_of_le h.start_le))
  obtain ⟨hsum, hlt⟩ := length_take_drop_le h bufferLength hposition
  rw [readChunk, Stateful.cost_free_bind (cost_get _) (get_result _),
    Stateful.cost_free_bind (Stateful.cost_lift_free (trace_size _) _) hsize]
  by_cases hdone : (base.member.drop position).take bufferLength = []
  · rw [if_pos ((seek_done h).mpr hdone), hdone]
    rfl
  · rw [if_neg (mt (seek_done h).mp hdone),
      Stateful.cost_free_bind (Stateful.cost_lift_free (trace_sourceBytes _ _) _)
        (Session.result_lift_ok hsource)]
    generalize (base.member.drop position).take bufferLength = source at *
    obtain ⟨next, hnext⟩ := Crc32.update_ok source checksum
    have hcharge : (chargeChunks (chunks controlChunkSize source)).result
        (base.seek position checksum) = (.ok (), base.seek position next) :=
      chargeChunks_result _ (by rw [chunks_controlChunkSize]; exact hnext)
    have hpositive : 0 < source.length := List.length_pos_of_ne_nil hdone
    have hadvance := @advance_result (base.seek position next) source.length
      (show position + source.length < 2 ^ 64 by omega)
    rw [Stateful.cost_bind_ok hcharge, cost_chargeChunks, length_chunks, chunks_controlChunkSize,
      Stateful.cost_free_bind (cost_advance _ _) hadvance]
    show ((_, source.length) : Charge) + 0 = _
    rw [add_zero, readCharge, Nat.max_eq_right (by omega)]

/-! ### Reading in full, and finishing -/

theorem readChunk_standsAt (h : base.Ranged) (hat : base.StandsAt position reader)
    (bufferLength : Nat) : ∃ next, (readChunk bufferLength).result reader
        = (.ok ((base.member.drop position).take bufferLength), next) ∧
      base.StandsAt (position + ((base.member.drop position).take bufferLength).length) next := by
  obtain ⟨hposition, checksum, rfl⟩ := hat
  obtain ⟨next, -, hread⟩ := readChunk_seek h hposition checksum bufferLength
  exact ⟨_, hread, (length_take_drop_le h bufferLength hposition).1, next, rfl⟩

/-- What it costs to read this many bytes, a buffer of two chunks at a time, up to the end. -/
def drainCharge (unread : Nat) : Charge := ((unread + 4095) / 4096 + 1, unread)

theorem cost_readAll (h : base.Ranged) (fuel : Nat) : ∀ {position : Nat} {reader : MemberReader},
    base.StandsAt position reader → base.member.length - position ≤ fuel →
    (readAll 8192 fuel reader).cost = drainCharge (base.member.length - position) ∧
      ∃ bytes last, (readAll 8192 fuel).result reader = (.ok bytes, last) := by
  induction fuel with
  | zero =>
      intro position reader hat hfuel
      obtain ⟨next, hread, -⟩ := readChunk_standsAt h hat 8192
      have hcost := cost_readChunk h hat 8192
      have hnone : base.member.drop position = [] := List.drop_eq_nil_of_le (by omega)
      rw [hnone] at hcost
      refine ⟨?_, [], next, by rw [readAll, Session.result_bind_ok hread]; rfl⟩
      rw [readAll, Stateful.cost_bind_ok hread, hcost, Nat.le_zero.mp hfuel]
      rfl
  | succ fuel ih =>
      intro position reader hat hfuel
      obtain ⟨next, hread, hnext⟩ := readChunk_standsAt h hat 8192
      have hcost := cost_readChunk h hat 8192
      have hlength : ((base.member.drop position).take 8192).length
          = min 8192 (base.member.length - position) := by
        rw [List.length_take, List.length_drop]
      generalize (base.member.drop position).take 8192 = bytes at hread hnext hcost hlength
      cases bytes with
      | nil =>
          have hend : base.member.length - position = 0 := by
            rw [List.length_nil] at hlength
            omega
          refine ⟨?_, [], next, by rw [readAll, Session.result_bind_ok hread]; rfl⟩
          rw [readAll, Stateful.cost_bind_ok hread, hcost, hend]
          rfl
      | cons byte rest =>
          rw [List.length_cons] at hlength
          obtain ⟨hrest, bytes, last, hlast⟩ := ih hnext (by rw [List.length_cons]; omega)
          have hcharge : readCharge (rest.length + 1)
              + drainCharge (base.member.length - (position + (rest.length + 1)))
                = drainCharge (base.member.length - position) := by
            refine Prod.ext ?_ ?_
            · show max 1 ((rest.length + 1 + 4095) / 4096) + _ = _
              rw [drainCharge, drainCharge]
              omega
            · show rest.length + 1 + (base.member.length - (position + (rest.length + 1))) = _
              rw [drainCharge]
              omega
          refine ⟨?_, byte :: rest ++ bytes, last, ?_⟩
          · rw [readAll, Stateful.cost_bind_ok hread, hcost]
            show _ + ((readAll 8192 fuel >>= _) next).cost = _
            rw [Stateful.cost_bind_ok hlast, hrest, List.length_cons, ← hcharge]
            exact congrArg _ (add_zero _)
          · rw [readAll, Session.result_bind_ok hread]
            show (readAll 8192 fuel >>= _).result next = _
            rw [Session.result_bind_ok hlast]
            rfl

theorem trace_checkDigests (reader : MemberReader) : reader.checkDigests.trace = [] := by
  unfold checkDigests
  split
  · rfl
  · split <;> rfl

/-- `finish` pays for every byte that is still unread, whatever the checksum is by now. -/
theorem cost_finish (h : base.Ranged) (hat : base.StandsAt position reader) :
    (finish reader).cost = drainCharge (base.member.length - position) := by
  have hunread : reader.unread = base.member.length - position := by
    obtain ⟨-, _, rfl⟩ := hat
    rw [h.length_member]
    rfl
  obtain ⟨hcost, bytes, last, hread⟩ := cost_readAll h reader.unread hat (Nat.le_of_eq hunread.symm)
  rw [finish, Stateful.cost_free_bind (cost_get _) (get_result _), Stateful.cost_bind_ok hread, hcost,
    Stateful.cost_free_bind (cost_get _) (get_result _),
    Stateful.cost_lift_free (trace_checkDigests last), add_zero]

/-! ### A call that fails -/

theorem chargeChunks_standsAt (pieces : List Bytes) :
    Session.Triple (base.StandsAt position) (chargeChunks pieces)
      (fun _ => base.StandsAt position) (fun _ => base.StandsAt position) := by
  induction pieces with
  | nil => exact Session.Triple.pure fun _ h => h
  | cons piece rest ih =>
      have hupdate : Session.Triple (base.StandsAt position) (updateChecksum piece)
          (fun _ => base.StandsAt position) (fun _ => base.StandsAt position) := by
        refine Session.Triple.act (fun reader _ reader' hat heq => ?_) fun reader _ reader' hat heq => ?_
        · obtain ⟨next, hnext⟩ := Crc32.update_ok piece reader.checksum
          rw [hnext] at heq
          obtain ⟨-, rfl⟩ := Prod.mk.inj heq
          obtain ⟨hposition, _, rfl⟩ := hat
          exact ⟨hposition, next, rfl⟩
        · obtain ⟨next, hnext⟩ := Crc32.update_ok piece reader.checksum
          rw [hnext] at heq
          exact absurd (Prod.mk.inj heq).1 (by simp)
      refine Session.Triple.bind (Session.Triple.lift (fun _ _ _ h => h) fun _ _ h => h) fun _ => ?_
      exact Session.Triple.bind hupdate fun _ => ih

/-- A call that fails has not moved the position. -/
theorem readChunk_stays (bufferLength : Nat) :
    Session.Triple (base.StandsAt position) (readChunk bufferLength)
      (fun _ _ => True) (fun _ => base.StandsAt position) := by
  refine Session.Triple.bind (R := fun _ => base.StandsAt position)
    (Session.Triple.act (fun reader _ reader' hat heq => ?_) fun reader _ reader' hat heq => ?_)
    fun reader => ?_
  · obtain ⟨-, rfl⟩ := Prod.mk.inj heq
    exact hat
  · exact absurd (Prod.mk.inj heq).1 (by simp)
  refine Session.Triple.bind (R := fun _ => base.StandsAt position)
    (Session.Triple.lift (fun _ _ _ h => h) fun _ _ h => h) fun memberLength => ?_
  split
  · refine Session.Triple.bind (R := fun _ => base.StandsAt position)
      (Session.Triple.lift (fun _ _ _ h => h) fun _ _ h => h) fun _ => ?_
    exact Session.Triple.pure fun _ _ => trivial
  · refine Session.Triple.bind (R := fun _ => base.StandsAt position)
      (Session.Triple.lift (fun _ _ _ h => h) fun _ _ h => h) fun source => ?_
    refine Session.Triple.bind (chargeChunks_standsAt _) fun _ => ?_
    refine Session.Triple.bind (R := fun _ _ => True)
      (Session.Triple.act (fun _ _ _ _ _ => trivial) fun reader _ reader' hat heq => ?_)
      fun _ => Session.Triple.pure fun _ _ => trivial
    cases hadd : checkedAdd 64 reader.position source.length with
    | some sum =>
        rw [hadd] at heq
        exact absurd (Prod.mk.inj heq).1 (by simp)
    | none =>
        rw [hadd] at heq
        obtain ⟨-, rfl⟩ := Prod.mk.inj heq
        exact hat

/-! ### Sequences of calls -/

/-- What a caller has after some calls: what they returned, the reader, and its control. -/
structure Calls where
  outcomes : List (Except Error Bytes)
  reader : MemberReader
  control : ParseControl

namespace Calls

/-- Call `read_chunk` once more, with a buffer of this length. -/
def call (calls : Calls) (bufferLength : Nat) : Calls :=
  let out := (readChunk bufferLength calls.reader).run calls.control
  ⟨calls.outcomes ++ [(Session.outcome out.1).1], (Session.outcome out.1).2, out.2⟩

/-- The bytes that the calls have put into their buffers. -/
def bytes (calls : Calls) : Bytes := (calls.outcomes.filterMap Except.toOption).flatten

def Failed (calls : Calls) : Prop := ∃ error, Except.error error ∈ calls.outcomes

/-- What is so after any calls on the reader of a member. -/
structure Sound (base : MemberReader) (calls : Calls) : Prop where
  bytes_eq : calls.bytes = base.member.take calls.bytes.length
  standsAt : base.StandsAt calls.bytes.length calls.reader
  /-- Without a failure, the checksum is that of the bytes read. -/
  reached : ¬ calls.Failed → base.Reached calls.bytes.length calls.reader
  /-- After a failure, there is not enough left for the bytes that are not read. -/
  starved : calls.Failed → calls.control.Starved (base.member.length - calls.bytes.length)

variable {calls : Calls}

theorem failed_append {outcome : Except Error Bytes} {reader : MemberReader}
    {control : ParseControl} : (Calls.mk (calls.outcomes ++ [outcome]) reader control).Failed ↔
      calls.Failed ∨ ∃ error, outcome = .error error := by
  simp only [Failed, List.mem_append, List.mem_singleton, exists_or, @eq_comm _ _ outcome]

theorem bytes_append_ok {chunk : Bytes} {reader : MemberReader} {control : ParseControl} :
    (Calls.mk (calls.outcomes ++ [.ok chunk]) reader control).bytes = calls.bytes ++ chunk := by
  simp [bytes, List.filterMap_append, Except.toOption]

theorem bytes_append_error {error : Error} {reader : MemberReader} {control : ParseControl} :
    (Calls.mk (calls.outcomes ++ [.error error]) reader control).bytes = calls.bytes := by
  simp [bytes, List.filterMap_append, Except.toOption]

theorem readCharge_fst_pos (count : Nat) : 0 < (readCharge count).1 := by
  rw [readCharge]
  omega

/-- **One more call**, whether it succeeds or not. -/
theorem Sound.call (hranged : base.Ranged) (h : calls.Sound base) (bufferLength : Nat) :
    (calls.call bufferLength).Sound base := by
  obtain ⟨next, hread, hnext⟩ := readChunk_standsAt hranged h.standsAt bufferLength
  have hcost := cost_readChunk hranged h.standsAt bufferLength
  have hchecks := readCharge_fst_pos
    ((base.member.drop calls.bytes.length).take bufferLength).length
  have hsum := (length_take_drop_le hranged bufferLength h.standsAt.1).1
  rcases Stateful.run_paid_or_starved (readChunk bufferLength) calls.reader calls.control with
    ⟨hcovers, hrun⟩ | ⟨-, ⟨error, reader', hrun⟩, hstarved⟩
  · -- the call is paid for: it returns what comes next, and the rest is still as far out of reach
    rw [hcost] at hcovers hrun
    have hcall : calls.call bufferLength
        = ⟨calls.outcomes ++ [.ok ((base.member.drop calls.bytes.length).take bufferLength)], next,
            calls.control.spend (readCharge
              ((base.member.drop calls.bytes.length).take bufferLength).length)⟩ := by
      rw [Calls.call, hrun]
      rw [show Session.outcome (readChunk bufferLength calls.reader).result = _ from hread]
    rw [hcall]
    refine ⟨?_, ?_, fun hnot => ?_, fun hfailed => ?_⟩
    · rw [bytes_append_ok, List.length_append, List.take_add, ← h.bytes_eq]
      rw [List.length_take, ← List.take_take, List.take_length]
    · rw [bytes_append_ok, List.length_append]
      exact hnext
    · rw [failed_append, not_or] at hnot
      obtain ⟨next', hread', hnext'⟩ := readChunk_result hranged (h.reached hnot.1) bufferLength
      rw [hread] at hread'
      obtain ⟨-, rfl⟩ := Prod.mk.inj hread'
      rw [bytes_append_ok, List.length_append]
      exact hnext'
    · rw [failed_append] at hfailed
      have hstarved := h.starved (hfailed.resolve_right (by simp))
      rw [bytes_append_ok, List.length_append]
      refine ParseControl.Starved.spend ?_ hchecks hcovers
      refine hstarved.mono ?_
      show _ ≤ ((base.member.drop calls.bytes.length).take bufferLength).length + _
      omega
  · -- the call is stopped: it has not moved, and what stopped it is still there
    rw [hcost] at hstarved
    have hcall : calls.call bufferLength = ⟨calls.outcomes ++ [.error error], reader',
        ((readChunk bufferLength calls.reader).run calls.control).2⟩ := by
      rw [Calls.call]
      rw [show Session.outcome ((readChunk bufferLength calls.reader).run calls.control).1
        = (.error error, reader') from hrun]
    have hstays := (readChunk_stays bufferLength calls.reader calls.control h.standsAt).2 _ _ hrun
    rw [hcall]
    refine ⟨?_, ?_, fun hnot => ?_, fun _ => ?_⟩
    · rw [bytes_append_error]
      exact h.bytes_eq
    · rw [bytes_append_error]
      exact hstays
    · exact absurd (failed_append.mpr (Or.inr ⟨error, rfl⟩)) hnot
    · rw [bytes_append_error]
      refine hstarved.mono ?_
      show ((base.member.drop calls.bytes.length).take bufferLength).length ≤ _
      omega

end Calls

/-- Call `read_chunk` with buffers of these lengths, one after the other. -/
def callAll (reader : MemberReader) (control : ParseControl) (lengths : List Nat) : Calls :=
  lengths.foldl Calls.call ⟨[], reader, control⟩

theorem callAll_sound (hranged : base.Ranged) (hstart : base.Reached 0 base)
    (control : ParseControl) (lengths : List Nat) :
    (base.callAll control lengths).Sound base := by
  have hrun : ∀ (lengths : List Nat) (calls : Calls), calls.Sound base →
      (lengths.foldl Calls.call calls).Sound base := by
    intro lengths
    induction lengths with
    | nil => exact fun _ h => h
    | cons bufferLength rest ih => exact fun _ h => ih _ (h.call hranged bufferLength)
  refine hrun lengths _ ⟨rfl, hstart.standsAt, fun _ => hstart, fun hfailed => ?_⟩
  exact absurd hfailed (by simp [Calls.Failed])

/-- `finish` after the calls, and what it returns. -/
def Calls.finish (calls : Calls) : Except Error Unit :=
  (MemberReader.finish.run calls.reader calls.control).1

theorem Calls.Sound.finish_eq_ok {calls : Calls} (hranged : base.Ranged) (h : calls.Sound base) :
    calls.finish = .ok () ↔ ¬ calls.Failed ∧
      calls.control.Covers (drainCharge (base.member.length - calls.bytes.length)) ∧
      base.Matches := by
  have hcost := cost_finish hranged h.standsAt
  rcases Stateful.run_paid_or_starved MemberReader.finish calls.reader calls.control with
    ⟨hcovers, hrun⟩ | ⟨hnot, ⟨error, reader', hrun⟩, -⟩
  · rw [hcost] at hcovers
    have hnot : ¬ calls.Failed := fun hfailed =>
      ParseControl.not_covers_of_starved (h.starved hfailed)
        (show 0 < (drainCharge (base.member.length - calls.bytes.length)).1 from Nat.succ_pos _)
        hcovers
    obtain ⟨outcome, last, hfinish, hiff⟩ := finish_checks hranged (h.reached hnot)
    have houtcome : calls.finish = outcome := by
      rw [Calls.finish, Session.run, hrun]
      exact congrArg Prod.fst hfinish
    rw [houtcome, hiff]
    exact ⟨fun hmatches => ⟨hnot, hcovers, hmatches⟩, fun hall => hall.2.2⟩
  · rw [hcost] at hnot
    rw [Calls.finish, hrun]
    exact ⟨fun heq => absurd heq (by simp), fun hall => absurd hall.2.1 hnot⟩

end MemberReader

/-! ### Opened members -/

/-- A member with its digest, and the output of its folder with its own. -/
structure MemberSource where
  bytes : Bytes
  crc : Option UInt32
  folderBytes : Bytes
  folderCrc : Option UInt32

namespace MemberSource

def Matches (source : MemberSource) : Prop :=
  (∀ crc, source.crc = some crc → crc32 source.bytes = crc) ∧
    ∀ crc, source.folderCrc = some crc → crc32 source.folderBytes = crc

/-- What there is of an entry that has been opened. -/
inductive Opened (codecs : Codecs) (archive : Archive) (memberIndex : Nat) : MemberSource → Prop
  | empty {entry : FileEntry} : archive.entries[memberIndex]? = some entry →
      entry.stream = none → entry.emptyFile = true → Opened codecs archive memberIndex ⟨[], none, [], none⟩
  | streamed {entry : FileEntry} {mapping : FileStream} {streams : StreamsInfo} {folder : Folder}
      {maximum start stop : Nat} {decoded : DecodedFolder} :
      archive.entries[memberIndex]? = some entry → entry.stream = some mapping →
      archive.header.mainStreams = some streams →
      streams.folders[mapping.folderIndex]? = some folder →
      (decodeFolder codecs archive.bytes streams mapping.folderIndex archive.password archive.limits
        maximum).result = .ok decoded →
      folder.MemberAt mapping.substreamIndex decoded.bytes.length start stop →
      Opened codecs archive memberIndex
        ⟨(decoded.bytes.drop start).take (stop - start), mapping.crc, decoded.bytes, folder.crc⟩

end MemberSource

variable {codecs : Codecs} {archive : Archive} {memberIndex : Nat} {reader : MemberReader}

/-- The reader is at the start of this member. -/
structure MemberReader.Reads (reader : MemberReader) (source : MemberSource) : Prop where
  ranged : reader.Ranged
  start : reader.Reached 0 reader
  member : reader.member = source.bytes
  matches_iff : reader.Matches ↔ source.Matches

theorem openStream_reads (hsound : archive.Sound) {entry : FileEntry} {mapping : FileStream}
    (hentry : archive.entries[memberIndex]? = some entry) (hstream : entry.stream = some mapping)
    (h : (archive.openStream codecs memberIndex mapping).result = .ok reader) :
    ∃ source, MemberSource.Opened codecs archive memberIndex source ∧ reader.Reads source := by
  simp only [openStream, Metered.bind_eq_ok, orFormat_eq_ok, Prod.exists, checkedSub_eq_some,
    decodeArchiveFolder, mapEncryptedError_eq_ok] at h
  obtain ⟨_, -, streams, hstreams, folder, hfolder, maximum, hmaximum, decoded, hdecoded, start,
    stop, hbounds, _, ⟨hle, rfl⟩, _, -, h⟩ := h
  obtain rfl := Except.ok.inj h
  have hat := memberBounds_eq_ok hbounds hle
  refine ⟨_, .streamed hentry hstream hstreams hfolder hdecoded hat, ?_, ?_, rfl, ?_⟩
  · obtain ⟨substream, hsubstream, -⟩ := hat.sized
    obtain ⟨-, hallowance, hlt, -⟩ :=
      folderDecodeMaximum_eq_ok hmaximum (List.ne_nil_of_mem (List.mem_of_getElem? hsubstream))
    have hsize := (hsound.decodeFolder_size hstreams hfolder hdecoded).1
    exact ⟨hat.start_le, hat.stop_le, show decoded.bytes.length < 2 ^ 64 by omega⟩
  · exact MemberReader.reached_new _ _ _ _ _ _ _
  · refine and_congr_right fun _ => ?_
    show decoded.crcMismatch = false ↔ _
    rw [decodeFolder_crc hfolder hdecoded]
    cases folder.crc <;> simp

theorem openMember_reads (hsound : archive.Sound)
    (h : (archive.openMember codecs memberIndex).result = .ok reader) :
    ∃ source, MemberSource.Opened codecs archive memberIndex source ∧ reader.Reads source := by
  simp only [openMember, Metered.bind_eq_ok, orFormat_eq_ok, refuse_eq_ok] at h
  obtain ⟨entry, hentry, -, h⟩ := h
  cases hstream : entry.stream with
  | some mapping =>
      rw [hstream] at h
      exact openStream_reads hsound hentry hstream h
  | none =>
      rw [hstream] at h
      by_cases hempty : entry.emptyFile = true
      · rw [if_pos hempty] at h
        obtain rfl := Except.ok.inj h
        refine ⟨_, .empty hentry hstream hempty, ?_, MemberReader.reached_new _ _ _ _ _ _ _, rfl, ?_⟩
        · exact ⟨Nat.le_refl _, Nat.le_refl _, show 0 < 2 ^ 64 by decide⟩
        · simp [MemberReader.Matches, MemberSource.Matches, MemberReader.new]
      · rw [if_neg hempty] at h
        exact absurd h (by simp)

/--
**The integrity of a member reader**, over every sequence of calls under every control.

The chunks that are delivered are the start of the member, failed calls or not.  Without
a failed call `finish` returns `Ok` exactly when the control pays for the unread bytes
and the digests match the whole member and the whole folder.  After a failed call it
never does.
-/
theorem openMember_integrity {layout : Layout} {bytes : Bytes} {limits : Limits}
    {password : Option Password}
    (hopen : (openBytes codecs layout bytes limits password).result = .ok archive)
    (hmember : (archive.openMember codecs memberIndex).result = .ok reader) :
    ∃ source, MemberSource.Opened codecs archive memberIndex source ∧
      ∀ (control : ParseControl) (lengths : List Nat),
        (reader.callAll control lengths).bytes <+: source.bytes ∧
        (¬ (reader.callAll control lengths).Failed →
          ((reader.callAll control lengths).finish = .ok () ↔
            (reader.callAll control lengths).control.Covers (MemberReader.drainCharge
              (source.bytes.length - (reader.callAll control lengths).bytes.length)) ∧
            source.Matches)) ∧
        ((reader.callAll control lengths).Failed →
          (reader.callAll control lengths).finish ≠ .ok ()) := by
  obtain ⟨source, hsource, hranged, hstart, hmember, hmatches⟩ :=
    openMember_reads (openBytes_sound hopen) hmember
  refine ⟨source, hsource, fun control lengths => ?_⟩
  have hcalls := MemberReader.callAll_sound hranged hstart control lengths
  have hfinish := hcalls.finish_eq_ok hranged
  rw [hmember, hmatches] at hfinish
  refine ⟨?_, fun hnot => ?_, fun hfailed hok => (hfinish.mp hok).1 hfailed⟩
  · rw [hcalls.bytes_eq, hmember]
    exact List.take_prefix _ _
  · rw [hfinish]
    exact and_iff_right hnot

/-- The second of the two files, at the end of the output of their folder. -/
def secondReader : MemberReader := .new [104, 105] 1 2 none false false 1

/-- With no work units the read of its one byte fails, and so does `finish`. -/
theorem openMember_integrity_twoFiles :
    (secondReader.callAll (.uncancelled (.bounded 0)) [4]).finish ≠ .ok () ∧
      ∀ control lengths, ∃ source : MemberSource, source.crc = none ∧
        (secondReader.callAll control lengths).bytes <+: source.bytes := by
  have hopen : (openBytes Execute.noCodecs ⟨0, 0, 0, 0, 0, 0, 0, 0, 0, 0⟩ twoFilesBytes {}
      none).result = .ok twoFiles := by decide +kernel
  have hmember : (twoFiles.openMember Execute.noCodecs 1).result = .ok secondReader := by
    decide +kernel
  obtain ⟨source, hsource, hcalls⟩ := openMember_integrity hopen hmember
  refine ⟨(hcalls _ _).2.2 ⟨.limitExceeded .workUnits 1 0, ?_⟩,
    fun control lengths => ⟨source, ?_, (hcalls control lengths).1⟩⟩
  · decide +kernel
  · cases hsource with
    | empty hentry hstream _ =>
        obtain rfl := Option.some.inj hentry
        exact absurd hstream (by simp)
    | streamed hentry hstream _ _ _ _ =>
        obtain rfl := Option.some.inj hentry
        obtain rfl := Option.some.inj hstream
        rfl

end Archive

end Un7z
