/-
How far unwrapping a header can go.

The next header of a layer is whatever a decoder made of the layer before, so nothing in
the data shrinks.  What bounds `open_bytes_inner` are its two counters: the depth, and the
bytes decoded so far, to which every layer adds at least one, since no header is empty.
The loops over the folders of one layer spend an allowance in the same way, so the three
of them share a description.  A body computes each of its allowances by a checked
subtraction of what is spent; `Accounted` says that the loop ends, that what is spent
never exceeds the bound, and that the subtractions are exact.
-/
import Un7z.Archive
import Un7z.Lib.Loop
import Un7z.Proofs.Reads

namespace Un7z

open Metered (fail)
open Execute (decodeFolder)
open Metadata (DecodedAdditionalStream verifyDecodedAdditionalFolder processFolders
  processAdditionalStreams)

/-! ### Allowances -/

/-- What a bound leaves, or the error that it leaves less than nothing. -/
abbrev Allowance := Nat → String → Work Nat

namespace Allowance

/-- As the source computes it: a checked subtraction of what is spent. -/
def checked (spent : Nat) : Allowance := fun bound detail => orFormat (checkedSub bound spent) detail

/-- As it is when the subtraction cannot underflow. -/
def exact (spent : Nat) : Allowance := fun bound _ => pure (bound - spent)

theorem checked_of_le {spent bound : Nat} (h : spent ≤ bound) (detail : String) :
    checked spent bound detail = pure (bound - spent) := by
  rw [checked, checkedSub_of_le h]
  rfl

end Allowance

/-- The round of a loop that has spent so much when it comes to its top. -/
def spending {σ α : Type} (body : Allowance → σ → Work (σ ⊕ α)) (spent : σ → Nat) (s : σ) :
    Work (σ ⊕ α) :=
  body (.checked (spent s)) s

/-- The loop with this body runs `m`, and spends within its bound. -/
structure Accounted {σ α : Type} (body : Allowance → σ → Work (σ ⊕ α)) (spent : σ → Nat)
    (bound rounds : Nat) (start : σ) (m : Work α) : Prop where
  /-- After so many rounds there is at most one more, the last. -/
  returns : ∀ control, ∃ n ≤ rounds,
    Loop.Returns (spending body spent) start control n (m.run control)
  rounds : ∀ control n s control', Loop.Visits (spending body spent) start control n s control' →
    n ≤ rounds
  within : ∀ control n s control', Loop.Visits (spending body spent) start control n s control' →
    spent s ≤ bound
  /-- No subtraction underflows: each round decodes with exactly what is left. -/
  exact : ∀ control n s control', Loop.Visits (spending body spent) start control n s control' →
    spending body spent s = body (.exact (spent s)) s

/-- The rule for such a loop: an invariant that bounds its rounds and what it spends. -/
theorem Accounted.of_invariant {σ α : Type} {body : Allowance → σ → Work (σ ⊕ α)}
    {spent : σ → Nat} {bound rounds : Nat} {start : σ} {m : Work α} (Inv : Nat → σ → Prop)
    (run : σ → Work α) (hrun : run start = m) (hstart : Inv 0 start)
    (hround : ∀ n s t, Inv n s → (spending body spent s).result = .ok (.inl t) → Inv (n + 1) t)
    (hrounds : ∀ n s, Inv n s → n ≤ rounds) (hwithin : ∀ n s, Inv n s → spent s ≤ bound)
    (hexact : ∀ s, spent s ≤ bound → spending body spent s = body (.exact (spent s)) s)
    (hunroll : Loop.Unrolls (spending body spent) Inv run) :
    Accounted body spent bound rounds start m where
  returns := hrun ▸ hunroll.returns hstart hround hrounds
  rounds _ n s _ h := hrounds n s (h.invariant hstart hround)
  within _ n s _ h := hwithin n s (h.invariant hstart hround)
  exact _ n s _ h := hexact s (hwithin n s (h.invariant hstart hround))

namespace Archive

/-! ### The folders of an encoded header -/

/-- What the folder loop of `decode_encoded_header` carries. -/
structure HeaderFolders where
  folderIndex : Nat
  folders : List Folder
  decodedTotal : Nat
  header : Bytes

/-- The body of the folder loop of `decode_encoded_header`. -/
def headerFolderBody (codecs : Codecs) (archiveBytes : Bytes) (streams : StreamsInfo)
    (limits : Limits) (maximumOutput : Nat) (password : Option Password)
    (allowance : Allowance) (s : HeaderFolders) : Work (HeaderFolders ⊕ Bytes) :=
  match s.folders with
  | [] => pure (.inr s.header)
  | folder :: folders => do
      checkpoint 1
      let remaining ← allowance (min limits.maxHeaderBytes maximumOutput)
        "decoded-header output accounting underflows"
      let decoded ← mapEncryptedError (folderIsEncrypted folder)
        (decodeFolder codecs archiveBytes streams s.folderIndex password limits remaining)
      verifyEncodedHeaderFolder folder decoded
      let decodedTotal ← orFormat (checkedAdd 64 s.decodedTotal decoded.bytes.length)
        "decoded-header output accounting overflows"
      checkLimit decodedTotal limits.maxHeaderBytes .headerBytes
      checkLimit decodedTotal maximumOutput .totalOutputBytes
      forEach (chunks controlChunkSize decoded.bytes) fun chunk => checkpoint chunk.length
      pure (.inl ⟨s.folderIndex + 1, folders, decodedTotal, s.header ++ decoded.bytes⟩)

variable {codecs : Codecs} {archiveBytes : Bytes} {streams : StreamsInfo} {limits : Limits}
  {maximumOutput : Nat} {password : Option Password}

theorem headerFolders_accounted :
    Accounted
      (headerFolderBody codecs archiveBytes streams limits maximumOutput password)
      HeaderFolders.decodedTotal (min limits.maxHeaderBytes maximumOutput) streams.folders.length
      ⟨0, streams.folders, 0, []⟩
      (decodeHeaderFolders codecs archiveBytes streams limits maximumOutput password 0
        streams.folders 0) := by
  refine .of_invariant (fun n (s : HeaderFolders) =>
      n + s.folders.length = streams.folders.length ∧
        s.decodedTotal ≤ min limits.maxHeaderBytes maximumOutput)
    (fun s => (s.header ++ ·) <$> decodeHeaderFolders codecs archiveBytes streams limits
      maximumOutput password s.folderIndex s.folders s.decodedTotal)
    (by simp) ⟨by simp, Nat.zero_le _⟩ ?_ ?_ ?_ ?_ ?_
  · rintro n ⟨index, folders, total, header⟩ t ⟨hn, hle⟩ h
    cases folders with
    | nil => simp [spending, headerFolderBody] at h
    | cons folder folders =>
        simp only [spending, headerFolderBody, Metered.bind_eq_ok, orFormat_eq_ok,
          checkedAdd_eq_some, checkLimit_eq_ok, Metered.result_pure, Except.ok.injEq,
          Sum.inl.injEq] at h
        obtain ⟨_, -, _, -, decoded, -, _, -, total', ⟨-, rfl⟩, _, hheader, _, hmaximum, _, -, rfl⟩ := h
        exact ⟨by simp only [List.length_cons] at hn ⊢; omega, Nat.le_min.mpr ⟨hheader, hmaximum⟩⟩
  · exact fun n s h => by omega
  · exact fun n s h => h.2
  · rintro ⟨index, folders, total, header⟩ hle
    cases folders with
    | nil => rfl
    | cons folder folders =>
        simp only [spending, headerFolderBody, Allowance.checked_of_le hle, Allowance.exact]
  · rintro n ⟨index, folders, total, header⟩ -
    cases folders with
    | nil => simp [spending, headerFolderBody, decodeHeaderFolders]
    | cons folder folders =>
        simp [spending, headerFolderBody, decodeHeaderFolders, Allowance.checked]

/-! ### The folders of additional streams -/

/-- What the folder loop of `process_additional_streams` carries. -/
structure AdditionalFolders where
  folderIndex : Nat
  folders : List Folder
  totalOutput : Nat
  outputs : List DecodedAdditionalStream

/-- The body of the folder loop of `process_additional_streams`. -/
def additionalFolderBody (codecs : Codecs) (archiveBytes : Bytes) (streams : StreamsInfo)
    (password : Option Password) (limits : Limits) (maximumOutput : Nat)
    (allowance : Allowance) (s : AdditionalFolders) :
    Work (AdditionalFolders ⊕ List DecodedAdditionalStream × Nat) :=
  match s.folders with
  | [] => pure (.inr (s.outputs, s.totalOutput))
  | folder :: folders => do
      checkpoint 1
      let remainingHeader ← allowance limits.maxHeaderBytes
        "external metadata output accounting underflows"
      let remainingTotal ← allowance maximumOutput "external output accounting underflows"
      let encrypted := folderIsEncrypted folder
      let decoded ← mapEncryptedError encrypted (decodeFolder codecs archiveBytes streams
        s.folderIndex password limits (min remainingHeader remainingTotal))
      let totalOutput ← orFormat (checkedAdd 64 s.totalOutput decoded.bytes.length)
        "external metadata output accounting overflows"
      checkLimit totalOutput limits.maxHeaderBytes .headerBytes
      checkLimit totalOutput maximumOutput .totalOutputBytes
      verifyDecodedAdditionalFolder folder decoded encrypted
      pure (.inl ⟨s.folderIndex + 1, folders, totalOutput,
        s.outputs ++ [⟨decoded.bytes, encrypted⟩]⟩)

theorem additionalFolders_accounted :
    Accounted
      (additionalFolderBody codecs archiveBytes streams password limits maximumOutput)
      AdditionalFolders.totalOutput (min limits.maxHeaderBytes maximumOutput)
      streams.folders.length ⟨0, streams.folders, 0, []⟩
      (processAdditionalStreams codecs archiveBytes streams password limits maximumOutput) := by
  refine .of_invariant (fun n (s : AdditionalFolders) =>
      n + s.folders.length = streams.folders.length ∧
        s.totalOutput ≤ min limits.maxHeaderBytes maximumOutput)
    (fun s => (fun out => (s.outputs ++ out.1, out.2)) <$> processFolders codecs archiveBytes
      streams password limits maximumOutput s.folderIndex s.folders s.totalOutput)
    (by simp [processAdditionalStreams]) ⟨by simp, Nat.zero_le _⟩ ?_ ?_ ?_ ?_ ?_
  · rintro n ⟨index, folders, total, outputs⟩ t ⟨hn, hle⟩ h
    cases folders with
    | nil => simp [spending, additionalFolderBody] at h
    | cons folder folders =>
        simp only [spending, additionalFolderBody, Metered.bind_eq_ok, orFormat_eq_ok,
          checkedAdd_eq_some, checkLimit_eq_ok, Metered.result_pure, Except.ok.injEq,
          Sum.inl.injEq] at h
        obtain ⟨_, -, _, -, _, -, decoded, -, total', ⟨-, rfl⟩, _, hheader, _, hmaximum, _, -, rfl⟩ :=
          h
        exact ⟨by simp only [List.length_cons] at hn ⊢; omega, Nat.le_min.mpr ⟨hheader, hmaximum⟩⟩
  · exact fun n s h => by omega
  · exact fun n s h => h.2
  · rintro ⟨index, folders, total, outputs⟩ hle
    obtain ⟨hheader, hmaximum⟩ := Nat.le_min.mp hle
    cases folders with
    | nil => rfl
    | cons folder folders =>
        simp only [spending, additionalFolderBody, Allowance.checked_of_le hheader,
          Allowance.checked_of_le hmaximum, Allowance.exact]
  · rintro n ⟨index, folders, total, outputs⟩ -
    cases folders with
    | nil => simp [spending, additionalFolderBody, processFolders]
    | cons folder folders =>
        simp [spending, additionalFolderBody, processFolders, Allowance.checked]

/-! ### The layers of a header -/

/-- What the loop of `open_bytes_inner` carries. -/
structure Layer where
  depth : Nat
  decodedHeaderBytes : Nat
  nextHeader : ParsedNextHeader

/-- The body of the loop of `open_bytes_inner`. -/
def layerBody (opening : Opening) (allowance : Allowance) (layer : Layer) :
    Work (Layer ⊕ Archive) :=
  let limits := opening.limits
  match layer.nextHeader with
  | .header header => do
      let remaining ← allowance limits.maxTotalOutputBytes
        "external-property output accounting underflows"
      let (header, externalBytes) ← Metadata.resolveExternalProperties opening.codecs header
        opening.bytes opening.password limits remaining
      let _ ← addDecoded limits layer.decodedHeaderBytes externalBytes
        "decoded metadata output accounting overflows"
      let archive ← fromParts opening.layout opening.bytes header limits opening.password
      pure (.inr archive)
  | .encodedHeader streams => do
      let encrypted := streams.folders.any folderIsEncrypted
      let depth ← enterLayer limits layer.depth "encoded-header recursion depth overflows"
      let remaining ← allowance limits.maxTotalOutputBytes
        "decoded-header output accounting underflows"
      let decoded ← mapEncryptedError encrypted (decodeEncodedHeader opening.codecs opening.bytes
        streams limits remaining opening.password)
      let decodedHeaderBytes ← addDecoded limits layer.decodedHeaderBytes decoded.length
        "decoded-header output accounting overflows"
      let nextHeader ← mapEncryptedError encrypted (Parser.parseDecodedNextHeader decoded
        opening.envelope opening.bytes limits)
      pure (.inl ⟨depth, decodedHeaderBytes, nextHeader⟩)
  | .pendingExternalFolders pending => do
      let _ ← enterLayer limits layer.depth "external-folder resolution depth overflows"
      let remaining ← allowance limits.maxTotalOutputBytes
        "external-folder output accounting underflows"
      let decoded ← Metadata.decodeAdditionalStreams opening.codecs opening.bytes
        pending.additionalStreams opening.password limits remaining
      let _ ← addDecoded limits layer.decodedHeaderBytes decoded.totalBytes
        "external-folder output accounting overflows"
      let folderStream ← decoded.get pending.dataIndex
      let resolved ← mapEncryptedError folderStream.encrypted
        (Parser.parseNextHeaderFromExternalFolders pending.headerBytes pending.dataIndex
          folderStream.bytes opening.envelope opening.bytes limits)
      let header ← expectHeader resolved
      let header ← Metadata.applyExternalProperties header decoded limits
      let archive ← fromParts opening.layout opening.bytes header limits opening.password
      pure (.inr archive)

/-- A header that was decoded has a first byte. -/
theorem parseDecodedNextHeader_ne_nil {decoded bytes : Bytes} {envelope : HeaderEnvelope}
    {next : ParsedNextHeader}
    (h : (Parser.parseDecodedNextHeader decoded envelope bytes limits).result = .ok next) :
    decoded ≠ [] := by
  rintro rfl
  obtain ⟨_, -, h⟩ := Metered.bind_eq_ok.mp h
  obtain ⟨_, hparse, -⟩ := Metered.bind_eq_ok.mp h
  obtain ⟨_, -, hparse⟩ := Metered.bind_eq_ok.mp hparse
  obtain ⟨_, hbody, -⟩ := Metered.bind_eq_ok.mp hparse
  obtain ⟨_, _, hkind, -⟩ := Cursor.bind_eq_ok.mp hbody
  obtain ⟨_, _, hcharge, hkind⟩ := Cursor.bind_eq_ok.mp hkind
  obtain ⟨-, rfl⟩ := Cursor.lift_eq_ok.mp hcharge
  obtain ⟨_, _, hread, -⟩ := Cursor.bind_eq_ok.mp hkind
  exact absurd (readBytes_eq_ok.mp hread).2.1 (by decide)

theorem enterLayer_eq_ok {depth next : Nat} {detail : String} :
    (enterLayer limits depth detail).result = .ok next ↔
      depth + 1 < 2 ^ 64 ∧ depth + 1 ≤ limits.maxRecursionDepth ∧ next = depth + 1 := by
  simp only [enterLayer, Metered.bind_eq_ok, orFormat_eq_ok, checkedAdd_eq_some, checkLimit_eq_ok,
    Metered.result_pure, Except.ok.injEq]
  constructor
  · rintro ⟨_, ⟨hlt, rfl⟩, _, hle, rfl⟩
    exact ⟨hlt, hle, rfl⟩
  · rintro ⟨hlt, hle, rfl⟩
    exact ⟨_, ⟨hlt, rfl⟩, (), hle, rfl⟩

theorem addDecoded_eq_ok {spent bytes next : Nat} {detail : String}
    (h : (addDecoded limits spent bytes detail).result = .ok next) :
    spent + bytes ≤ limits.maxTotalOutputBytes ∧ next = spent + bytes := by
  simp only [addDecoded, Metered.bind_eq_ok, orFormat_eq_ok, checkedAdd_eq_some, checkLimit_eq_ok,
    Metered.result_pure, Except.ok.injEq] at h
  obtain ⟨_, ⟨-, rfl⟩, _, hle, rfl⟩ := h
  exact ⟨hle, rfl⟩

/-- The top of iteration `n`: every layer before it was one deeper, and not empty. -/
structure AtLayer (limits : Limits) (n : Nat) (layer : Layer) : Prop where
  depth : layer.depth = n
  depth_le : n ≤ limits.maxRecursionDepth
  le_decoded : n ≤ layer.decodedHeaderBytes
  decoded_le : layer.decodedHeaderBytes ≤ limits.maxTotalOutputBytes

theorem AtLayer.next {opening : Opening} {n : Nat} {layer layer' : Layer}
    (h : AtLayer opening.limits n layer)
    (hround : (spending (layerBody opening) Layer.decodedHeaderBytes layer).result
      = .ok (.inl layer')) : AtLayer opening.limits (n + 1) layer' := by
  obtain ⟨depth, decodedHeaderBytes, nextHeader⟩ := layer
  obtain ⟨rfl, hdepth, hle, hdecoded⟩ := h
  cases nextHeader with
  | header header =>
      simp only [spending, layerBody, Metered.bind_eq_ok, Metered.result_pure, Except.ok.injEq,
        reduceCtorEq, and_false, exists_false] at hround
  | pendingExternalFolders pending =>
      simp only [spending, layerBody, Metered.bind_eq_ok, Metered.result_pure, Except.ok.injEq,
        reduceCtorEq, and_false, exists_false] at hround
  | encodedHeader streams =>
      simp only [spending, layerBody, Metered.bind_eq_ok, enterLayer_eq_ok,
        mapEncryptedError_eq_ok, Metered.result_pure, Except.ok.injEq, Sum.inl.injEq] at hround
      obtain ⟨_, ⟨-, hlimit, rfl⟩, _, -, decoded, -, _, htotal, next, hparse, rfl⟩ := hround
      obtain ⟨hwithin, rfl⟩ := addDecoded_eq_ok htotal
      have hpos : 0 < decoded.length := List.length_pos_iff.mpr (parseDecodedNextHeader_ne_nil hparse)
      exact ⟨rfl, hlimit, by simp only at hle ⊢; omega, hwithin⟩

theorem layers_accounted (opening : Opening) (next : ParsedNextHeader) :
    Accounted (layerBody opening) Layer.decodedHeaderBytes opening.limits.maxTotalOutputBytes
      (min opening.limits.maxRecursionDepth opening.limits.maxTotalOutputBytes) ⟨0, 0, next⟩
      (openLayers opening opening.limits.maxRecursionDepth 0 0 next) := by
  refine .of_invariant (AtLayer opening.limits)
    (fun layer => openLayers opening (opening.limits.maxRecursionDepth - layer.depth) layer.depth
      layer.decodedHeaderBytes layer.nextHeader) rfl
    ⟨rfl, Nat.zero_le _, Nat.zero_le _, Nat.zero_le _⟩ (fun n s t h hround => h.next hround)
    (fun n s h => Nat.le_min.mpr ⟨h.depth_le, h.le_decoded.trans h.decoded_le⟩)
    (fun n s h => h.decoded_le) ?_ ?_
  · rintro ⟨depth, decodedHeaderBytes, nextHeader⟩ hle
    cases nextHeader <;>
      simp only [spending, layerBody, Allowance.checked_of_le hle, Allowance.exact]
  · rintro n ⟨depth, decodedHeaderBytes, nextHeader⟩ h
    obtain ⟨rfl, hdepth, -, -⟩ := h
    cases nextHeader with
    | header header =>
        simp [spending, layerBody, openLayers, resolveHeader, remainingOutput, Allowance.checked]
    | pendingExternalFolders pending =>
        simp [spending, layerBody, openLayers, resolveExternalFolders, remainingOutput,
          Allowance.checked]
    | encodedHeader streams =>
        -- as long as a layer may be entered there is fuel, and a refusal needs none
        have henter : ∀ {depth' : Nat}, (enterLayer opening.limits depth
            "encoded-header recursion depth overflows").result = .ok depth' →
            depth' = depth + 1 ∧ opening.limits.maxRecursionDepth - depth
              = opening.limits.maxRecursionDepth - depth' + 1 := by
          intro depth' hdepth'
          obtain ⟨-, hle, rfl⟩ := enterLayer_eq_ok.mp hdepth'
          exact ⟨rfl, by omega⟩
        cases hfuel : opening.limits.maxRecursionDepth - depth with
        | zero =>
            simp only [hfuel, openLayers, spending, layerBody, bind_assoc]
            refine Metered.bind_congr_ok fun depth' hdepth' => ?_
            have := (henter hdepth').2
            omega
        | succ fuel =>
            simp only [hfuel, openLayers, spending, layerBody, bind_assoc, pure_bind, Sum.elim_inl,
              unwrapEncodedHeader, remainingOutput, Allowance.checked]
            refine Metered.bind_congr_ok fun depth' hdepth' => ?_
            obtain rfl : fuel = opening.limits.maxRecursionDepth - depth' := by
              have := (henter hdepth').2
              omega
            rfl

/--
**Unwrapping a header ends, and accounts for what it decodes**: for the layers, for the
folders of an encoded header, and for the folders of additional streams.
-/
theorem openLayers_accounting (opening : Opening) (next : ParsedNextHeader) :
    Accounted (layerBody opening) Layer.decodedHeaderBytes opening.limits.maxTotalOutputBytes
        (min opening.limits.maxRecursionDepth opening.limits.maxTotalOutputBytes) ⟨0, 0, next⟩
        (openLayers opening opening.limits.maxRecursionDepth 0 0 next) ∧
      ∀ streams maximumOutput,
        Accounted (headerFolderBody opening.codecs opening.bytes streams opening.limits
            maximumOutput opening.password) HeaderFolders.decodedTotal
          (min opening.limits.maxHeaderBytes maximumOutput) streams.folders.length
          ⟨0, streams.folders, 0, []⟩
          (decodeHeaderFolders opening.codecs opening.bytes streams opening.limits maximumOutput
            opening.password 0 streams.folders 0) ∧
        Accounted (additionalFolderBody opening.codecs opening.bytes streams opening.password
            opening.limits maximumOutput) AdditionalFolders.totalOutput
          (min opening.limits.maxHeaderBytes maximumOutput) streams.folders.length
          ⟨0, streams.folders, 0, []⟩
          (processAdditionalStreams opening.codecs opening.bytes streams opening.password
            opening.limits maximumOutput) :=
  ⟨layers_accounted opening next,
    fun _ _ => ⟨headerFolders_accounted, additionalFolders_accounted⟩⟩

end Archive

end Un7z
