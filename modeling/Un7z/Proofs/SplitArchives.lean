/-
Opening the volumes of an archive.

The volumes of a whole archive have the bytes of the archive, so what opening makes of
them is up to the probe.  It makes an error of a start header that the parser passes
over, and this is the only way in which a split archive differs from a whole one.

Volumes that end too early are those of a stem of the archive.  The parser rejects it,
and the probe asks for more of it as soon as there is a signature to see.
-/
import Un7z.Proofs.Volumes

namespace Un7z

variable {σ : Type}

namespace Parser

variable {bytes : Bytes} {limits : Limits} {raw : RawSignatureHeader} {n : Nat}

/-! ### A stem of an archive -/

/-- A fixed header starts with the signature. -/
theorem signature_of_startHeaderAt (hheader : StartHeaderAt bytes 0 raw) : signature <+: bytes := by
  have hword := hheader.word
  rw [List.drop_zero] at hword
  exact List.IsPrefix.trans ⟨_, rfl⟩ hword

theorem startHeaderAt_take (hheader : StartHeaderAt bytes 0 raw) (hn : fixedHeaderSize ≤ n) :
    StartHeaderAt (bytes.take n) 0 raw := by
  refine ⟨hheader.fits, ?_, hheader.crc⟩
  rw [List.drop_zero]
  refine List.prefix_take_iff.mpr ⟨hheader.word, ?_⟩
  rw [RawSignatureHeader.length_word]
  exact hn

theorem startHeaderAt_of_take {raw' : RawSignatureHeader}
    (h : StartHeaderAt (bytes.take n) 0 raw') : StartHeaderAt bytes 0 raw' := by
  refine ⟨h.fits, ?_, h.crc⟩
  have hword := h.word
  rw [List.drop_zero] at hword ⊢
  exact hword.trans (List.take_prefix _ _)

theorem StartHeaderAt.unique {offset : Nat} {raw' : RawSignatureHeader}
    (h : StartHeaderAt bytes offset raw) (h' : StartHeaderAt bytes offset raw') : raw = raw' :=
  word_unique h.fits h'.fits h.word h'.word

/-- Bytes that start with a signature are a candidate, and the only one. -/
theorem candidate_zero (hsignature : signature <+: bytes) : Candidate bytes limits 0 :=
  ⟨hsignature, Or.inl rfl⟩

theorem eq_zero_of_candidate {offset : Nat} (hsignature : signature <+: bytes)
    (h : Candidate bytes limits offset) : offset = 0 :=
  h.2.resolve_right fun hnot => hnot.1 hsignature

theorem firstDecisive_zero (hsignature : signature <+: bytes) (hdecisive : Decisive bytes 0) :
    FirstDecisive bytes limits 0 :=
  ⟨candidate_zero hsignature, hdecisive, fun _ _ _ => Nat.zero_le _⟩

/-- A header that is cut off is not parsed. -/
theorem parseArchive_truncated (hheader : StartHeaderAt bytes 0 raw)
    (hn : n < declaredEnd 0 raw) (parsed : ParsedArchive) :
    (parseArchive (bytes.take n) limits).result ≠ .ok parsed := by
  intro h
  obtain ⟨offset, raw', hcandidate, hheader', -, -, hend⟩ := parseArchive_startHeader h
  have hle := length_of_word hheader'.word
  have hfixed : signature.length ≤ fixedHeaderSize := by decide
  rw [List.length_take] at hle hend
  have hstem : signature <+: bytes.take n :=
    List.prefix_take_iff.mpr ⟨signature_of_startHeaderAt hheader, by omega⟩
  obtain rfl := eq_zero_of_candidate hstem hcandidate
  obtain rfl := (startHeaderAt_of_take hheader').unique hheader
  omega

/-- Of a header that is cut off behind its signature, the probe asks for more. -/
theorem declaresMore_truncated (hheader : StartHeaderAt bytes 0 raw)
    (hsize : raw.nextSize ≤ limits.maxHeaderBytes) (hlt : declaredEnd 0 raw < 2 ^ 64)
    (hsignature : signature.length ≤ n) (hn : n < declaredEnd 0 raw) :
    DeclaresMore (bytes.take n) limits := by
  have hstem : signature <+: bytes.take n :=
    List.prefix_take_iff.mpr ⟨signature_of_startHeaderAt hheader, hsignature⟩
  have hle : (bytes.take n).length ≤ n := List.length_take_le _ _
  by_cases hcut : (bytes.take n).length < 0 + fixedHeaderSize
  · exact ⟨0, firstDecisive_zero hstem (Or.inl hcut), Or.inl ⟨hcut, by decide⟩⟩
  · have hheader' := startHeaderAt_take hheader (n := n) (by omega)
    exact ⟨0, firstDecisive_zero hstem (Or.inr ⟨raw, hheader'⟩),
      Or.inr ⟨raw, hheader', hsize, hlt, by omega⟩⟩

/-- Too few bytes for a signature are no archive, and the probe asks for no more of them. -/
theorem archiveDeclaresMoreBytes_short (hshort : bytes.length < signature.length)
    (hlimit : bytes.length ≤ limits.maxTotalInputBytes) :
    (archiveDeclaresMoreBytes bytes limits).result = .ok false := by
  have hstart : ¬ signature.isPrefixOf bytes := fun h => by
    have := (List.isPrefixOf_iff_prefix.mp h).length_le
    omega
  rw [archiveDeclaresMoreBytes, Metered.result_bind_ok (checkLimit_of_le hlimit _), if_neg hstart,
    Metered.result_bind_ok (scanBytes_short hshort)]
  rfl

theorem parseArchive_short (hshort : bytes.length < signature.length)
    (hlimit : bytes.length ≤ limits.maxTotalInputBytes) :
    (parseArchive bytes limits).result = .error (.format "7z signature was not found") := by
  have hstart : ¬ signature.isPrefixOf bytes := fun h => by
    have := (List.isPrefixOf_iff_prefix.mp h).length_le
    omega
  rw [parseArchive, Metered.result_bind_ok (checkLimit_of_le hlimit _), if_neg hstart,
    Metered.result_bind_ok (scanBytes_short hshort)]
  rfl

end Parser
namespace Archive

variable {codecs : Codecs} {layout : Layout} {bytes : Bytes} {limits : Limits}
  {password : Option Password} {archive : Archive} {provider : VolumeProvider σ} {base : String}
  {volumes : List Bytes} {ready : σ → Prop} {reading : Nat → Nat → σ → Prop} {state : σ}

/-! ### Volumes that are served -/

theorem needsMore_of_ne_nil (hne : bytes ≠ []) :
    needsMore bytes limits = Parser.archiveDeclaresMoreBytes bytes limits :=
  if_neg (by simpa using hne)

/-- Opening volumes is the probe of their bytes, and then the opening of their bytes. -/
theorem openVolumesResult_served (hserves : provider.Serves base volumes ready reading)
    (hready : ready state) (hflatten : volumes.flatten = bytes) (hne : bytes ≠ [])
    (hcount : volumes.length + 1 < 2 ^ 64) (hmaximum : volumes.length ≤ limits.maxVolumes)
    (hlt : bytes.length < 2 ^ 64) (hlimit : bytes.length ≤ limits.maxTotalInputBytes) :
    (openVolumesResult codecs layout provider (base ++ ".001") limits password state).1
      = (Parser.archiveDeclaresMoreBytes bytes limits).result.bind fun more =>
          (openBytes codecs layout bytes limits password).result.mapError
            (reportedError (Volume.termination base limits volumes.length) more) := by
  subst hflatten
  obtain ⟨state', hread⟩ := Volume.readSequentialVolumes_result hserves hcount
    hmaximum hne hlt hlimit hready
  have hprobe : (readAndProbe provider (base ++ ".001") limits).result state
      = ((Parser.archiveDeclaresMoreBytes volumes.flatten limits).result.map fun more =>
          (⟨volumes.flatten, Volume.termination base limits volumes.length⟩, more), state') := by
    rw [readAndProbe, Session.result_bind_ok hread]
    show ((liftM (needsMore volumes.flatten limits) : Stateful σ Bool) >>= _).result state' = _
    rw [needsMore_of_ne_nil hne]
    cases hmore : (Parser.archiveDeclaresMoreBytes volumes.flatten limits).result with
    | ok more => rw [Session.result_lift_bind hmore]; rfl
    | error error => rw [Session.result_lift_error hmore]; rfl
  rw [openVolumesResult, hprobe]
  cases (Parser.archiveDeclaresMoreBytes volumes.flatten limits).result with
  | ok more => rfl
  | error error => rfl

/-- An archive of nothing. -/
def emptyBytes : Bytes :=
  [55, 122, 188, 175, 39, 28, 0, 4, 8, 168, 52, 184, 0, 0, 0, 0, 0, 0, 0, 0, 2, 0, 0, 0, 0, 0, 0, 0,
    190, 35, 194, 88, 1, 0]

/-- A byte, and a start header that matches its CRC and declares a header of `2 ^ 40` bytes. -/
def misleadingStem : Bytes :=
  [0, 55, 122, 188, 175, 39, 28, 0, 4, 57, 144, 162, 169, 0, 0, 0, 0, 0, 0, 0, 0, 0, 0, 0, 0, 0, 1,
    0, 0, 0, 0, 0, 0]

def byteLayout : Layout := ⟨1, 0, 0, 0, 0, 0, 0, 0, 0, 0⟩

def emptyArchive (bytes : Bytes) : Archive :=
  ⟨bytes, ⟨[], none, none, none⟩, {}, none, ⟨bytes.length, 1, 0, bytes.length + 1⟩⟩

theorem openBytes_empty :
    (openBytes Execute.noCodecs byteLayout emptyBytes {} none).result
      = .ok (emptyArchive emptyBytes) := by decide +kernel

/--
**A truncated set of volumes is missing its next one**, exactly when what there is of it
holds the signature.
-/
theorem openVolumes_truncated_iff {raw : RawSignatureHeader} {n : Nat}
    (hopen : (openBytes codecs layout bytes limits password).result = .ok archive)
    (hheader : Parser.StartHeaderAt bytes 0 raw) (hpos : 0 < n) (hn : n < Parser.declaredEnd 0 raw)
    (hserves : provider.Serves base volumes ready reading) (hready : ready state)
    (hflatten : volumes.flatten = bytes.take n) (hne : ∀ volume ∈ volumes, volume ≠ [])
    (hcount : volumes.length < limits.maxVolumes) :
    (openVolumesResult codecs layout provider (base ++ ".001") limits password state).1
      = .error (.missingVolume (volumeName base volumes.length)) ↔ signature.length ≤ n := by
  obtain ⟨parsed, hparsed, -⟩ := Metered.bind_eq_ok.mp hopen
  obtain ⟨_, hlimit, -⟩ := Metered.bind_eq_ok.mp hparsed
  obtain ⟨offset, raw', hcandidate, hheader', hsize, hlt, hend⟩ :=
    Parser.parseArchive_startHeader hparsed
  obtain rfl := Parser.eq_zero_of_candidate (Parser.signature_of_startHeaderAt hheader) hcandidate
  obtain rfl := hheader'.unique hheader
  have hvolumes := Volume.length_le_length_flatten hne
  have hlength : (bytes.take n).length = n := by
    rw [List.length_take]
    omega
  have hlimit : (bytes.take n).length ≤ limits.maxTotalInputBytes := by
    have := checkLimit_eq_ok.mp hlimit
    omega
  have hnonempty : bytes.take n ≠ [] := List.ne_nil_of_length_pos (by omega)
  rw [hflatten] at hvolumes
  rw [openVolumesResult_served hserves hready hflatten hnonempty (by omega) (by omega) (by omega)
    hlimit]
  by_cases hsignature : signature.length ≤ n
  · have hmore := (Parser.archiveDeclaresMoreBytes_eq_true (by omega) hlimit).mpr
      (Parser.declaresMore_truncated hheader hsize hlt hsignature hn)
    refine iff_of_true ?_ hsignature
    rw [hmore]
    cases hstem : (openBytes codecs layout (bytes.take n) limits password).result with
    | ok archive' =>
        obtain ⟨parsed', hparsed', -⟩ := Metered.bind_eq_ok.mp hstem
        exact absurd hparsed' (Parser.parseArchive_truncated hheader hn parsed')
    | error error =>
        rw [Volume.termination, if_pos hcount]
        rfl
  · have hshort : (bytes.take n).length < signature.length := by omega
    refine iff_of_false ?_ hsignature
    rw [Parser.archiveDeclaresMoreBytes_short hshort hlimit, openBytes,
      Metered.result_bind_error (Parser.parseArchive_short hshort hlimit)]
    simp [Except.bind, Except.mapError, reportedError]

def emptyHeader : RawSignatureHeader where
  major := 0
  minor := 4
  startCrc := 0xb834a808
  nextOffset := 0
  nextSize := 2
  nextCrc := 0x58c223be

/-- Two volumes with the first nine bytes of the empty archive. -/
theorem openVolumes_truncated_iff_nine :
    (openVolumesResult Execute.noCodecs byteLayout
        (memoryVolumeProvider [emptyBytes.take 3, (emptyBytes.take 9).drop 3]) ("a" ++ ".001") {}
        none (0, 0)).1 = .error (.missingVolume (volumeName "a" 2)) :=
  have hheader : Parser.StartHeaderAt emptyBytes 0 emptyHeader :=
    ⟨⟨by decide, by decide⟩, by decide, by decide +kernel⟩
  (openVolumes_truncated_iff (n := 9) openBytes_empty hheader (by decide) (by decide)
    (memoryVolumeProvider_serves "a" _) trivial (by decide) (by decide) (by decide)).mpr (by decide)

/-- A volume with the first three bytes of the empty archive has no signature. -/
theorem openVolumes_truncated_three :
    (openBytes Execute.noCodecs byteLayout emptyBytes {} none).result
        = .ok (emptyArchive emptyBytes) ∧
      (openVolumesResult Execute.noCodecs byteLayout (memoryVolumeProvider [emptyBytes.take 3])
          ("a" ++ ".001") {} none (0, 0)).1
        = .error (.format "7z signature was not found") :=
  ⟨by decide +kernel, by decide +kernel⟩

end Archive

end Un7z
