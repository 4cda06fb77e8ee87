/-
Extraction into any writer, under any control.

A writer may fail at any call, and an extraction may be interrupted at any check.  What such a
run does to its writer is compared, call by call, with what an uninterrupted extraction does to
another one: they are in step until something fails, and from then on the first one lags.

`Writer.Trails` is what is asked of the two writers, and each function of the extraction hands
it on.  With a writer that records what it is offered, it says how far a run has come; with one
that forgets everything, that verifying is decompressing.
-/
import Un7z.Lib.Trail
import Un7z.Proofs.StreamContents

namespace Un7z

/-- A writer that takes what another one takes, as long as it does not fail.  States in step have
been written so many bytes. -/
structure Writer.Trails {σ τ : Type} (writer : Writer σ) (leader : Writer τ)
    (step : σ → τ → Nat → Prop) (lag : σ → τ → Prop) : Prop where
  ok : ∀ bytes s t n s', step s t n → writer.writeAll bytes s = (.ok (), s') →
    ∃ t', leader.writeAll bytes t = (.ok (), t') ∧ step s' t' (n + bytes.length)
  error : ∀ bytes s t n e s', step s t n → writer.writeAll bytes s = (.error e, s') →
    lag s' (leader.writeAll bytes t).2
  behind : ∀ bytes s t, lag s t → lag s (leader.writeAll bytes t).2
  lag_of_step : ∀ s t n, step s t n → lag s t

/-- A writer that keeps what it is offered, next to its own state. -/
def Writer.recording {σ : Type} (writer : Writer σ) : Writer (Bytes × σ) where
  writeAll bytes state :=
    ((writer.writeAll bytes state.2).1, state.1 ++ bytes, (writer.writeAll bytes state.2).2)

namespace Extraction

variable {σ τ δ φ : Type} {step : σ → τ → Nat → Prop} {lag : σ → τ → Prop} {writer : Writer σ}
  {leader : Writer τ} {limits : Limits}

/-- Two extractions with the same counters. -/
structure Even (extraction : Extraction σ) (leading : Extraction τ) : Prop where
  outputBytes : extraction.outputBytes = leading.outputBytes
  framesDecoded : extraction.framesDecoded = leading.framesDecoded
  checksumsVerified : extraction.checksumsVerified = leading.checksumsVerified

structure InStep (step : σ → τ → Nat → Prop) (extraction : Extraction σ) (leading : Extraction τ) :
    Prop extends Even extraction leading where
  writers : step extraction.writer leading.writer leading.outputBytes

def Lags (lag : σ → τ → Prop) (extraction : Extraction σ) (leading : Extraction τ) : Prop :=
  lag extraction.writer leading.writer

/-- An extraction that trails another one: in step up to an error, and behind from there on. -/
abbrev Trailing {α : Type} (step : σ → τ → Nat → Prop) (lag : σ → τ → Prop) (m : Extracting σ α)
    (n : Extracting τ α) : Prop :=
  Session.Trails (InStep step) (Lags lag) Eq m n

theorem Lags.of_inStep (hw : writer.Trails leader step lag) (extraction : Extraction σ)
    (leading : Extraction τ) (h : InStep step extraction leading) : Lags lag extraction leading :=
  hw.lag_of_step _ _ _ h.writers

/-! ### The extraction control -/

theorem trailing_lift {α : Type} (hw : writer.Trails leader step lag) (m : Work α) :
    Trailing step lag (liftM m : Extracting σ α) (liftM m) :=
  Session.Trails.lift (Lags.of_inStep hw) m

theorem trailing_get_bind [Nonempty σ] {α : Type} {f : Extraction σ → Extracting σ α}
    {g : Extraction τ → Extracting τ α}
    (h : ∀ extraction leading, Even extraction leading →
      Trailing step lag (f extraction) (g leading)) :
    Trailing step lag (get >>= f) (get >>= g) := by
  have hget : Session.Trails (InStep step) (Lags lag) Even (get : Extracting σ _)
      (get : Extracting τ _) := by
    refine Session.Trails.act (fun s t a s' hst heq => ?_) (fun s t e s' _ heq => ?_) fun s t h => h
    · obtain ⟨ha, rfl⟩ := Prod.mk.inj heq
      obtain rfl := Except.ok.inj ha
      exact ⟨t, t, rfl, hst.toEven, hst⟩
    · cases (Prod.mk.inj heq).1
  refine hget.bind (fun leading => ?_) h
  obtain ⟨s⟩ := ‹Nonempty σ›
  exact ⟨⟨s, leading.outputBytes, leading.framesDecoded, leading.checksumsVerified⟩, rfl, rfl, rfl⟩

theorem nextOutputBytes_congr {extraction : Extraction σ} {leading : Extraction τ}
    (h : extraction.outputBytes = leading.outputBytes) (additional : Nat) :
    extraction.nextOutputBytes limits additional = leading.nextOutputBytes limits additional := by
  rw [nextOutputBytes, nextOutputBytes, h]

theorem run_writeAll (bytes : Bytes) (next : Nat) (extraction : Extraction σ) (control : ParseControl) :
    (writeAll writer bytes next).run extraction control
      = (writeAll writer bytes next).result extraction := by
  rw [writeAll, Session.run_act, Session.result_act]

theorem writer_writeAll (bytes : Bytes) (next : Nat) (extraction : Extraction σ) :
    ((writeAll writer bytes next).result extraction).2.writer
      = (writer.writeAll bytes extraction.writer).2 := by
  rw [writeAll, Session.result_act]
  rcases writer.writeAll bytes extraction.writer with ⟨⟨kind, detail⟩ | ⟨⟩, state⟩ <;> rfl

theorem writeAll_eq_ok {bytes : Bytes} {next : Nat} {extraction extraction' : Extraction σ} :
    (writeAll writer bytes next).result extraction = (.ok (), extraction') ↔
      ∃ state, writer.writeAll bytes extraction.writer = (.ok (), state) ∧
        { extraction with writer := state, outputBytes := next } = extraction' := by
  rw [writeAll, Session.result_act]
  rcases writer.writeAll bytes extraction.writer with ⟨⟨kind, detail⟩ | ⟨⟩, state⟩
  · constructor
    · intro h
      cases (Prod.mk.inj h).1
    · rintro ⟨_, h, -⟩
      cases (Prod.mk.inj h).1
  · constructor
    · intro h
      exact ⟨state, rfl, (Prod.mk.inj h).2⟩
    · rintro ⟨state', h, rfl⟩
      obtain ⟨-, rfl⟩ := Prod.mk.inj h
      rfl

theorem writeAll_error {bytes : Bytes} {next : Nat} {extraction extraction' : Extraction σ} {e : Error}
    (h : (writeAll writer bytes next).result extraction = (.error e, extraction')) :
    ∃ e', writer.writeAll bytes extraction.writer = (.error e', extraction'.writer) := by
  rw [writeAll, Session.result_act] at h
  rcases hwrite : writer.writeAll bytes extraction.writer with ⟨e' | ⟨⟩, state⟩
  · rw [hwrite] at h
    obtain ⟨-, rfl⟩ := Prod.mk.inj h
    exact ⟨e', rfl⟩
  · rw [hwrite] at h
    cases (Prod.mk.inj h).1

/-- What a write comes to: an error before the writer is called, or what the writer does. -/
theorem result_writeOutput_cases (writer : Writer σ) (limits : Limits) (bytes : Bytes)
    (extraction : Extraction σ) :
    (∃ e, (extraction.nextOutputBytes limits bytes.length).result = .error e ∧
        (writeOutput writer limits bytes).result extraction = (.error e, extraction)) ∨
      ∃ next, (extraction.nextOutputBytes limits bytes.length).result = .ok next ∧
        (writeOutput writer limits bytes).result extraction
          = (writeAll writer bytes next).result extraction := by
  rw [writeOutput, Session.result_lift_bind result_checkCancelled,
    Session.result_bind_ok (result_get extraction)]
  rcases hnext : (extraction.nextOutputBytes limits bytes.length).result with e | next
  · exact Or.inl ⟨e, rfl, Session.result_lift_error hnext⟩
  · exact Or.inr ⟨next, rfl, Session.result_lift_bind hnext⟩

theorem run_get_bind {α : Type} (f : Extraction σ → Extracting σ α) (extraction : Extraction σ)
    (control : ParseControl) : (get >>= f).run extraction control = (f extraction).run extraction control :=
  Session.run_act_bind control rfl

/-- A run of a write may end before the writer is called as well. -/
theorem run_writeOutput_cases (writer : Writer σ) (limits : Limits) (bytes : Bytes)
    (extraction : Extraction σ) (control : ParseControl) :
    (∃ e, (writeOutput writer limits bytes).run extraction control = (.error e, extraction)) ∨
      ∃ next, (extraction.nextOutputBytes limits bytes.length).result = .ok next ∧
        (writeOutput writer limits bytes).run extraction control
          = (writeAll writer bytes next).result extraction := by
  rw [writeOutput]
  rcases Session.run_lift_bind_cases checkCancelled _ extraction control with
    ⟨e, hrun⟩ | ⟨⟨⟩, control', -, hrun⟩
  · exact Or.inl ⟨e, hrun⟩
  · rw [hrun, run_get_bind]
    rcases Session.run_lift_bind_cases (extraction.nextOutputBytes limits bytes.length) _ extraction
      control' with ⟨e, hrun'⟩ | ⟨next, control'', hnext, hrun'⟩
    · exact Or.inl ⟨e, hrun'⟩
    · rw [hrun']
      exact Or.inr ⟨next, hnext, run_writeAll _ _ _ _⟩

/-- What lags behind an extraction lags behind its next write. -/
theorem Lags.writeOutput (hw : writer.Trails leader step lag) {extraction : Extraction σ}
    {leading : Extraction τ} (h : Lags lag extraction leading) (bytes : Bytes) :
    Lags lag extraction ((writeOutput leader limits bytes).result leading).2 := by
  rcases result_writeOutput_cases leader limits bytes leading with ⟨e, -, hresult⟩ | ⟨next, -, hresult⟩
  · rw [hresult]
    exact h
  · rw [hresult, Lags, writer_writeAll]
    exact hw.behind _ _ _ h

theorem trailing_writeOutput (hw : writer.Trails leader step lag) (bytes : Bytes) :
    Trailing step lag (writeOutput writer limits bytes) (writeOutput leader limits bytes) where
  ok s t u s' hst hrun := by
    rcases result_writeOutput_cases writer limits bytes s with ⟨e, -, hresult⟩ | ⟨next, hnext, hresult⟩
    · rw [hresult] at hrun
      cases (Prod.mk.inj hrun).1
    · rw [hresult] at hrun
      obtain ⟨state, hwrite, rfl⟩ := writeAll_eq_ok.mp hrun
      obtain ⟨state', hwrite', hstep⟩ := hw.ok _ _ _ _ _ hst.writers hwrite
      rw [nextOutputBytes_congr hst.outputBytes] at hnext
      obtain ⟨-, rfl⟩ := nextOutputBytes_eq_ok.mp hnext
      rcases result_writeOutput_cases leader limits bytes t with ⟨e, hnext', -⟩ | ⟨next', hnext', hresult'⟩
      · rw [hnext'] at hnext
        cases hnext
      · obtain rfl := Except.ok.inj (hnext'.symm.trans hnext)
        exact ⟨(), _, hresult'.trans (writeAll_eq_ok.mpr ⟨state', hwrite', rfl⟩), rfl,
          ⟨rfl, hst.framesDecoded, hst.checksumsVerified⟩, hstep⟩
  error s t k e s' hst hrun := by
    rcases run_writeOutput_cases writer limits bytes s k with ⟨e', hcase⟩ | ⟨next, hnext, hcase⟩
    · rw [hcase] at hrun
      obtain ⟨-, rfl⟩ := Prod.mk.inj hrun
      exact (Lags.of_inStep hw _ _ hst).writeOutput hw bytes
    · rw [hcase] at hrun
      obtain ⟨e', hwrite⟩ := writeAll_error hrun
      rw [nextOutputBytes_congr hst.outputBytes] at hnext
      rcases result_writeOutput_cases leader limits bytes t with ⟨e, hnext', -⟩ | ⟨next', -, hresult⟩
      · rw [hnext'] at hnext
        cases hnext
      · rw [hresult, Lags, writer_writeAll]
        exact hw.error _ _ _ _ _ _ hst.writers hwrite
  behind s t h := h.writeOutput hw bytes

theorem trailing_finishFrame [Nonempty σ] (hw : writer.Trails leader step lag) (checksum : Bool) :
    Trailing step lag (finishFrame checksum) (finishFrame checksum) := by
  refine trailing_get_bind fun extraction leading heven => ?_
  rw [heven.framesDecoded, heven.checksumsVerified]
  refine (trailing_lift hw _).bind_eq fun framesDecoded =>
    (trailing_lift hw _).bind_eq fun checksumsVerified => ?_
  refine Session.Trails.act (fun s t a s' hst heq => ?_) (fun s t e s' _ heq => ?_) fun s t h => h
  · obtain ⟨-, rfl⟩ := Prod.mk.inj heq
    exact ⟨(), _, rfl, rfl, ⟨hst.outputBytes, rfl, rfl⟩, hst.writers⟩
  · cases (Prod.mk.inj heq).1

/-! ### The frames -/

section Frames

variable {decoder : FrameDecoder δ} {expected : Option Nat} {format : String} {frameIndex : Nat}
  {checksumErrors : Bool}

theorem trailing_frameOutput [Nonempty σ] (hw : writer.Trails leader step lag) (startOutput : Nat) :
    Trailing step lag (frameOutput format startOutput) (frameOutput format startOutput) := by
  refine trailing_get_bind fun extraction leading heven => ?_
  rw [heven.outputBytes]
  exact trailing_lift hw _

theorem trailing_pumpBytes [Nonempty σ] (hw : writer.Trails leader step lag) (startOutput : Nat)
    (bytes : Bytes) : Trailing step lag (pumpBytes writer limits expected format startOutput bytes)
      (pumpBytes leader limits expected format startOutput bytes) := by
  refine Session.Trails.ite (fun _ => trailing_lift hw _) fun _ =>
    (trailing_writeOutput hw bytes).bind_eq fun _ => ?_
  cases expected with
  | none => exact Session.Trails.pure rfl
  | some expected =>
      exact (trailing_frameOutput hw startOutput).bind_eq fun output =>
        Session.Trails.ite (fun _ => trailing_lift hw _) fun _ => Session.Trails.pure rfl

theorem trailing_pumpRounds [Nonempty σ] (hw : writer.Trails leader step lag) (startOutput fuel : Nat) :
    ∀ charged reader, Trailing step lag
      (pumpRounds writer limits decoder expected format frameIndex checksumErrors startOutput fuel
        charged reader)
      (pumpRounds leader limits decoder expected format frameIndex checksumErrors startOutput fuel
        charged reader) := by
  induction fuel with
  | zero => exact fun charged reader => Session.Trails.pure rfl
  | succ fuel ih =>
      intro charged reader
      refine (trailing_lift hw _).bind_eq fun round => ?_
      exact Session.Trails.ite (fun _ => Session.Trails.pure rfl) fun _ =>
        (trailing_pumpBytes hw startOutput _).bind_eq fun _ => ih _ _

theorem trailing_pumpReader [Nonempty σ] (hw : writer.Trails leader step lag) (reader : δ) :
    Trailing step lag
      (pumpReader writer limits decoder expected format frameIndex checksumErrors reader)
      (pumpReader leader limits decoder expected format frameIndex checksumErrors reader) := by
  refine trailing_get_bind fun extraction leading heven => ?_
  rw [heven.outputBytes]
  refine (trailing_pumpRounds hw _ _ _ _).bind_eq fun pumped => ?_
  exact (trailing_frameOutput hw _).bind_eq fun actual =>
    Session.Trails.ite (fun _ => trailing_lift hw _) fun _ =>
      Session.Trails.ite (fun _ => trailing_lift hw _) fun _ => Session.Trails.pure rfl

variable {input : Bytes} {layout : FrameLayout δ φ}

theorem trailing_extractFrame [Nonempty σ] (hw : writer.Trails leader step lag) (frame : φ) :
    Trailing step lag (extractFrame writer limits input layout frameIndex frame)
      (extractFrame leader limits input layout frameIndex frame) := by
  refine (trailing_lift hw _).bind_eq fun opened => (trailing_pumpReader hw _).bind_eq fun reader => ?_
  exact Session.Trails.ite (fun _ => trailing_lift hw _) fun _ =>
    (trailing_lift hw _).bind_eq fun _ => trailing_finishFrame hw _

theorem trailing_extractFrames [Nonempty σ] (hw : writer.Trails leader step lag) (frames : List φ) :
    ∀ frameIndex, Trailing step lag (extractFrames writer limits input layout frameIndex frames)
      (extractFrames leader limits input layout frameIndex frames) := by
  induction frames with
  | nil => exact fun frameIndex => Session.Trails.pure rfl
  | cons frame frames ih =>
      exact fun frameIndex => (trailing_extractFrame hw frame).bind_eq fun _ => ih _

end Frames

end Extraction

open Extraction (Trailing InStep Lags trailing_lift trailing_writeOutput trailing_finishFrame)

/-! ### Codes -/

namespace UnixCompress

variable {σ τ : Type} {step : σ → τ → Nat → Prop} {lag : σ → τ → Prop} {writer : Writer σ}
  {leader : Writer τ} {limits : Limits} {parameters : LzwParameters}

theorem trailing_writeChunks (hw : writer.Trails leader step lag) (chunks : List Bytes) :
    Trailing step lag (writeChunks writer limits chunks) (writeChunks leader limits chunks) := by
  induction chunks with
  | nil => exact Session.Trails.pure rfl
  | cons chunk chunks ih =>
      exact (trailing_lift hw _).bind_eq fun _ => (trailing_writeOutput hw chunk).bind_eq fun _ => ih

theorem trailing_decodeCode (hw : writer.Trails leader step lag) (encodedCode : Nat) (state : LzwState) :
    Trailing step lag (decodeCode writer limits parameters encodedCode state)
      (decodeCode leader limits parameters encodedCode state) := by
  refine Session.Trails.ite (fun _ => trailing_lift hw _) fun _ => ?_
  cases state.previousCode with
  | none =>
      refine Session.Trails.ite (fun _ => trailing_lift hw _) fun _ => ?_
      exact (trailing_lift hw _).bind_eq fun literal => (trailing_lift hw _).bind_eq fun _ =>
        (trailing_writeOutput hw _).bind_eq fun _ => Session.Trails.pure rfl
  | some previous =>
      refine (trailing_lift hw _).bind_eq fun expanded => ?_
      exact (trailing_writeChunks hw _).bind_eq fun _ => (trailing_lift hw _).bind_eq fun _ =>
        Session.Trails.pure rfl

theorem trailing_decodeRound (hw : writer.Trails leader step lag) (state : LzwState) :
    Trailing step lag (decodeRound writer limits parameters state)
      (decodeRound leader limits parameters state) := by
  refine (trailing_lift hw _).bind_eq fun _ => (trailing_lift hw _).bind_eq fun widened =>
    (trailing_lift hw _).bind_eq fun read => ?_
  rcases read with ⟨_ | encodedCode, reader⟩
  · exact Session.Trails.pure rfl
  · exact (trailing_decodeCode hw encodedCode _).bind_eq fun _ => Session.Trails.pure rfl

theorem trailing_decodeLoop (hw : writer.Trails leader step lag) (fuel : Nat) :
    ∀ state, Trailing step lag (decodeLoop writer limits parameters fuel state)
      (decodeLoop leader limits parameters fuel state) := by
  induction fuel with
  | zero => exact fun state => Session.Trails.pure rfl
  | succ fuel ih =>
      intro state
      refine (trailing_decodeRound hw state).bind_eq fun round => ?_
      cases round with
      | inl state => exact ih state
      | inr _ => exact Session.Trails.pure rfl

theorem trailing_extract [Nonempty σ] (hw : writer.Trails leader step lag)
    (layout : UnixCompressLayout) (input : Bytes) :
    Trailing step lag (extract writer limits layout input) (extract leader limits layout input) := by
  refine (trailing_lift hw _).bind_eq fun _ => (trailing_lift hw _).bind_eq fun _ => ?_
  refine Session.Trails.ite (fun _ => trailing_lift hw _) fun _ =>
    (trailing_lift hw _).bind_eq fun _ => Session.Trails.bind_eq ?_ fun _ => trailing_finishFrame hw false
  exact (trailing_lift hw _).bind_eq fun initial => trailing_decodeLoop hw _ _

end UnixCompress

/-! ### Streams -/

namespace CompressedStream

variable {σ τ δ δ' : Type} {step : σ → τ → Nat → Prop} {lag : σ → τ → Prop} {writer : Writer σ}
  {leader : Writer τ} {decoders : StreamDecoders δ δ'} {stream : CompressedStream}

theorem trailing_extractLayout [Nonempty σ] (hw : writer.Trails leader step lag) :
    Trailing step lag (stream.extractLayout decoders writer) (stream.extractLayout decoders leader) := by
  unfold extractLayout
  cases stream.layout with
  | lz4 frames => exact Extraction.trailing_extractFrames hw frames 0
  | zstandard frames => exact Extraction.trailing_extractFrames hw frames 0
  | unixCompress layout => exact UnixCompress.trailing_extract hw layout stream.bytes

theorem trailing_extractTo [Nonempty σ] (hw : writer.Trails leader step lag) :
    Trailing step lag (stream.extractTo decoders writer) (stream.extractTo decoders leader) := by
  refine (trailing_extractLayout hw).bind_eq fun _ =>
    Extraction.trailing_get_bind fun extraction leading heven => ?_
  have hfinish : extraction.finish = leading.finish := by
    rw [Extraction.finish, Extraction.finish, heven.outputBytes, heven.framesDecoded,
      heven.checksumsVerified]
  rw [hfinish, heven.outputBytes]
  exact Session.Trails.ite (fun _ => trailing_lift hw _) fun _ => Session.Trails.pure rfl

/-- What an uninterrupted decompression writes, also when it fails in the end. -/
def output (decoders : StreamDecoders δ δ') (stream : CompressedStream) : Bytes :=
  ((stream.extractTo decoders fallibleVec).result ⟨[], 0, 0, 0⟩).2.writer

theorem recording_trails (writer : Writer σ) : writer.recording.Trails fallibleVec
    (fun state written size => state.1 = written ∧ written.length = size)
    (fun state written => state.1 <+: written) where
  ok bytes s t n s' hst hwrite := by
    obtain ⟨rfl, rfl⟩ := hst
    obtain ⟨-, rfl⟩ := Prod.mk.inj hwrite
    exact ⟨_, rfl, rfl, List.length_append⟩
  error bytes s t n e s' hst hwrite := by
    obtain ⟨rfl, -⟩ := hst
    obtain ⟨-, rfl⟩ := Prod.mk.inj hwrite
    exact List.prefix_refl _
  behind bytes s t h := h.trans (List.prefix_append t bytes)
  lag_of_step s t n hst := hst.1 ▸ List.prefix_refl _

theorem sink_trails : sink.Trails fallibleVec (fun _ written size => written.length = size)
    (fun _ _ => True) where
  ok bytes s t n s' hst _ := ⟨_, rfl, by rw [List.length_append, hst]⟩
  error _ _ _ _ _ _ _ _ := trivial
  behind _ _ _ _ := trivial
  lag_of_step _ _ _ _ := trivial

theorem trails_sink : fallibleVec.Trails sink (fun written _ size => written.length = size)
    (fun _ _ => True) where
  ok bytes s t n s' hst hwrite := by
    obtain ⟨-, rfl⟩ := Prod.mk.inj hwrite
    exact ⟨_, rfl, by rw [List.length_append, hst]⟩
  error _ _ _ _ _ _ _ _ := trivial
  behind _ _ _ _ := trivial
  lag_of_step _ _ _ _ := trivial

theorem decompress_eq_ok_iff {out : Bytes} : (stream.decompress decoders).result = .ok out ↔
    ∃ summary extraction, (stream.extractTo decoders fallibleVec).result ⟨[], 0, 0, 0⟩
      = (.ok summary, extraction) ∧ extraction.writer = out := by
  rw [decompress, Session.result_discard]
  rcases hrun : (stream.extractTo decoders fallibleVec).result ⟨[], 0, 0, 0⟩ with ⟨e | summary, extraction⟩
  · rw [Session.result_bind_error hrun]
    constructor
    · intro h
      cases h
    · rintro ⟨_, _, h, -⟩
      cases (Prod.mk.inj h).1
  · rw [Session.result_bind_ok hrun, Session.result_bind_ok (Extraction.result_get _)]
    constructor
    · intro h
      exact ⟨summary, extraction, rfl, Except.ok.inj h⟩
    · rintro ⟨_, _, h, rfl⟩
      obtain ⟨-, rfl⟩ := Prod.mk.inj h
      rfl

theorem verify_eq_ok_iff {summary : StreamExtraction} :
    (stream.verify decoders).result = .ok summary ↔ ∃ extraction,
      (stream.extractTo decoders sink).result ⟨(), 0, 0, 0⟩ = (.ok summary, extraction) := by
  rw [verify, Session.result_discard]
  exact ⟨fun h => ⟨_, Prod.ext h rfl⟩, fun ⟨_, h⟩ => congrArg Prod.fst h⟩

theorem finish_of_extractTo {before after : Extraction σ} {summary : StreamExtraction}
    (h : (stream.extractTo decoders writer).result before = (.ok summary, after)) :
    after.finish = summary := by
  obtain ⟨⟨⟩, extraction, -, hrest⟩ := Session.bind_eq_ok.mp h
  rw [Session.result_bind_ok (Extraction.result_get _)] at hrest
  split at hrest
  · cases (Session.result_lift_eq_ok.mp hrest).1
  · obtain ⟨hsummary, rfl⟩ := Prod.mk.inj hrest
    exact Except.ok.inj hsummary

/-- Verifying is decompressing into a buffer and counting its bytes. -/
theorem verify_agrees {summary : StreamExtraction} : (stream.verify decoders).result = .ok summary ↔
    ∃ extraction, (stream.extractTo decoders fallibleVec).result ⟨[], 0, 0, 0⟩ = (.ok summary, extraction) ∧
      extraction.writer.length = summary.outputBytes := by
  rw [verify_eq_ok_iff]
  constructor
  · rintro ⟨extraction, h⟩
    obtain ⟨_, leading, hrun, rfl, hstep⟩ := (trailing_extractTo sink_trails).ok _ ⟨[], 0, 0, 0⟩ _ _
      ⟨⟨rfl, rfl, rfl⟩, rfl⟩ h
    refine ⟨leading, hrun, ?_⟩
    rw [← finish_of_extractTo hrun]
    exact hstep.writers
  · rintro ⟨extraction, h, -⟩
    obtain ⟨_, leading, hrun, rfl, -⟩ := (trailing_extractTo trails_sink).ok _ ⟨(), 0, 0, 0⟩ _ _
      ⟨⟨rfl, rfl, rfl⟩, rfl⟩ h
    exact ⟨leading, hrun⟩

/-- The extraction of any writer that records, before its first byte. -/
def fresh (state : σ) : Extraction (Bytes × σ) := ⟨([], state), 0, 0, 0⟩

/--
**No run writes anything else.**

Whatever the writer does, and wherever a run is interrupted, what it has offered to the writer is
the beginning of what an uninterrupted decompression writes.  When it succeeds, it has offered all
of it, decompression succeeds, and the summary counts the bytes.
-/
theorem extractTo_offers (stream : CompressedStream) (decoders : StreamDecoders δ δ')
    (writer : Writer σ) (state : σ) (control : ParseControl) :
    ((stream.extractTo decoders writer.recording).run (fresh state) control).2.writer.1
        <+: stream.output decoders ∧
      ∀ summary extraction,
        (stream.extractTo decoders writer.recording).run (fresh state) control = (.ok summary, extraction) →
          (stream.decompress decoders).result = .ok extraction.writer.1 ∧
            summary.outputBytes = extraction.writer.1.length := by
  have : Nonempty (Bytes × σ) := ⟨([], state)⟩
  have htrails : Trailing _ _ (stream.extractTo decoders writer.recording)
      (stream.extractTo decoders fallibleVec) := trailing_extractTo (recording_trails writer)
  have hfresh : InStep (fun state written size => state.1 = written ∧ written.length = size)
      (fresh state) (⟨[], 0, 0, 0⟩ : Extraction Bytes) := ⟨⟨rfl, rfl, rfl⟩, rfl, rfl⟩
  have hok : ∀ summary extraction, (stream.extractTo decoders writer.recording).run (fresh state) control
      = (.ok summary, extraction) → ∃ leading, (stream.extractTo decoders fallibleVec).result ⟨[], 0, 0, 0⟩
        = (.ok summary, leading) ∧ extraction.writer.1 = leading.writer ∧
          leading.writer.length = summary.outputBytes := by
    intro summary extraction hrun
    obtain ⟨_, leading, hresult, rfl, hstep⟩ := htrails.ok _ _ _ _ hfresh (Session.result_of_run_ok hrun)
    exact ⟨leading, hresult, hstep.writers.1, by
      rw [← finish_of_extractTo hresult]
      exact hstep.writers.2⟩
  refine ⟨?_, fun summary extraction hrun => ?_⟩
  · rcases hrun : (stream.extractTo decoders writer.recording).run (fresh state) control with
      ⟨e | summary, extraction⟩
    · exact htrails.error _ _ _ _ _ hfresh hrun
    · obtain ⟨leading, hresult, hwriter, -⟩ := hok summary extraction hrun
      have houtput : stream.output decoders = extraction.writer.1 := by rw [output, hresult, hwriter]
      exact houtput ▸ List.prefix_refl _
  · obtain ⟨leading, hresult, hwriter, hlength⟩ := hok summary extraction hrun
    exact ⟨decompress_eq_ok_iff.mpr ⟨summary, leading, hresult, hwriter.symm⟩, by rw [hwriter, hlength]⟩

end CompressedStream

end Un7z
