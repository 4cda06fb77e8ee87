/-
Archives that were split into volumes.

`Serves` is what a provider of volumes promises: it opens them by their names, in any
reads that take a byte at least, and says which one is missing.  Whatever the reads, the
bytes that come out are those of the volumes, one after the other; so what opening makes
of a split archive is up to the probe.
-/
import Un7z.Volume
import Un7z.Proofs.CompletenessProbe
import Un7z.Proofs.OpenedArchive

namespace Un7z

variable {σ : Type}

/-- The name of a volume: `base.001`, `base.002` and so on. -/
def volumeName (base : String) (index : Nat) : String :=
  base ++ "." ++ Volume.paddedOrdinal (index + 1)

/--
The provider serves these volumes: `ready` says that it can be asked for a volume, and
`reading` how far into which volume it is.
-/
structure VolumeProvider.Serves (provider : VolumeProvider σ) (base : String)
    (volumes : List Bytes) (ready : σ → Prop) (reading : Nat → Nat → σ → Prop) : Prop where
  ready_of_reading : ∀ {index position state}, reading index position state → ready state
  openVolume : ∀ {index bytes state}, ready state → volumes[index]? = some bytes →
    ∃ state', provider.openVolume index (volumeName base index) state = (.ok (), state') ∧
      reading index 0 state'
  missing : ∀ {index state}, ready state → volumes.length ≤ index →
    ∃ state', provider.openVolume index (volumeName base index) state
      = (.error (.missingVolume (volumeName base index)), state')
  len : ∀ {index position bytes state}, reading index position state →
    volumes[index]? = some bytes →
    ∃ state', provider.len state = (.ok bytes.length, state') ∧ reading index position state'
  seek : ∀ {index position state}, reading index position state →
    ∃ state', provider.seek 0 state = (.ok (), state') ∧ reading index 0 state'
  /-- A read takes at least a byte, and may take fewer than it was asked for. -/
  read : ∀ {index position bytes state maximum}, reading index position state →
    volumes[index]? = some bytes → position < bytes.length → 0 < maximum →
    ∃ taken state', provider.read maximum state = (.ok taken, state') ∧
      0 < taken.count ∧ taken.count ≤ maximum ∧ position + taken.count ≤ bytes.length ∧
      taken.target.take taken.count = (bytes.drop position).take taken.count ∧
      reading index (position + taken.count) state'

/-- Volumes in memory are served, whatever the name of the first. -/
theorem memoryVolumeProvider_serves (base : String) (volumes : List Bytes) :
    (memoryVolumeProvider volumes).Serves base volumes (fun _ => True)
      (fun index position state => state = (index, position)) where
  ready_of_reading _ := trivial
  openVolume {index bytes state} _ hbytes := by
    have hindex : index < volumes.length := (List.getElem?_eq_some_iff.mp hbytes).1
    exact ⟨(index, 0), if_pos hindex, rfl⟩
  missing {index state} _ hindex := ⟨state, if_neg (by omega)⟩
  len {index position bytes state} hreading hbytes := by
    subst hreading
    exact ⟨_, by simp only [memoryVolumeProvider, hbytes, Option.getD_some], rfl⟩
  seek {index position state} hreading := by
    subst hreading
    exact ⟨_, rfl, rfl⟩
  read {index position bytes state maximum} hreading hbytes hposition hmaximum := by
    subst hreading
    have htaken : ((volumes[index]?.getD []).drop position).take maximum
        = (bytes.drop position).take maximum := by rw [hbytes, Option.getD_some]
    have hlength : ((bytes.drop position).take maximum).length
        = min maximum (bytes.length - position) := by rw [List.length_take, List.length_drop]
    simp only [memoryVolumeProvider, htaken]
    refine ⟨_, _, rfl, by dsimp only; omega, by dsimp only; omega, by dsimp only; omega, ?_, rfl⟩
    refine List.take_left.trans (List.take_eq_take_iff.mpr ?_)
    dsimp only
    rw [List.length_drop]
    omega

namespace Volume

variable {provider : VolumeProvider σ} {base : String} {volumes : List Bytes}
  {ready : σ → Prop} {reading : Nat → Nat → σ → Prop} {limits : Limits}

/-! ### Names -/

theorem stripSuffix_append (base suffix : String) :
    stripSuffix (base ++ suffix) suffix = some base := by
  have hsuffix : suffix.toList <:+ (base ++ suffix).toList := by
    rw [String.toList_append]
    exact List.suffix_append _ _
  rw [stripSuffix, if_pos hsuffix, String.toList_append, List.length_append,
    Nat.add_sub_cancel, List.take_left, String.ofList_toList]

/-- The volumes of `base.001` have the names they should have. -/
theorem sequentialName_result (base : String) {index : Nat} (hindex : index + 1 < 2 ^ 64) :
    (sequentialName (base ++ ".001") index).result = .ok (volumeName base index) := by
  unfold sequentialName
  by_cases hzero : index = 0
  · subst hzero
    rw [if_pos rfl, volumeName, String.append_assoc]
    rfl
  · rw [if_neg hzero, Metered.result_bind_ok (orFormat_eq_ok.mpr (stripSuffix_append base ".001")),
      Metered.result_bind_ok (orFormat_eq_ok.mpr (checkedAdd_of_lt hindex))]
    rfl

/-! ### One volume -/

theorem io_result {α : Type} {method : σ → IoResult α × σ} {state state' : σ} {a : α}
    (h : method state = (.ok a, state')) : (io method).result state = (.ok a, state') := by
  rw [io, Session.result_act, h]
  rfl

/-- One read takes some of what is left of the volume. -/
theorem readChunk_result (hserves : provider.Serves base volumes ready reading) {index : Nat}
    {bytes : Bytes} (hbytes : volumes[index]? = some bytes) (hlt : bytes.length < 2 ^ 64)
    {position : Nat} {state : σ} (hreading : reading index position state)
    (hposition : position < bytes.length) :
    ∃ count state', 0 < count ∧ position + count ≤ bytes.length ∧
      (readChunk provider (bytes.length - position)).result state
        = (.ok ((bytes.drop position).take count, bytes.length - (position + count)), state') ∧
      reading index (position + count) state' := by
  have hmaximum : 0 < min (bytes.length - position) controlChunkSize := by
    have hchunk : controlChunkSize = 4096 := rfl
    omega
  obtain ⟨taken, state', hread, hpos, hle, hend, htaken, hnext⟩ :=
    hserves.read hreading hbytes hposition hmaximum
  have hrange : (checkedRange taken.target 0 taken.count "volume read result exceeds its buffer"
      "volume read result exceeds its buffer").result
      = .ok ((bytes.drop position).take taken.count) := by
    refine checkedRange_eq_ok.mpr ⟨by omega, ?_, htaken.symm⟩
    rw [taken.target_length]
    omega
  refine ⟨taken.count, state', hpos, hend, ?_, hnext⟩
  rw [readChunk, Session.result_lift_bind (result_checkpoint 0),
    Session.result_bind_ok (io_result hread), if_neg (by omega),
    Session.result_lift_bind (result_checkpoint taken.count),
    Session.result_lift_bind (orFormat_eq_ok.mpr (checkedSub_of_le (by omega))),
    Session.result_lift_bind hrange, Nat.sub_add_eq]
  rfl

/-- The read loop reads what is left of the volume. -/
theorem readRemaining_result (hserves : provider.Serves base volumes ready reading) {index : Nat}
    {bytes : Bytes} (hbytes : volumes[index]? = some bytes) (hlt : bytes.length < 2 ^ 64)
    (fuel : Nat) : ∀ (output : Bytes) {position : Nat} {state : σ},
      reading index position state → position ≤ bytes.length → bytes.length - position ≤ fuel →
      ∃ state', (readRemaining provider fuel (bytes.length - position) output).result state
          = (.ok (output ++ bytes.drop position), state') ∧ ready state' := by
  induction fuel with
  | zero =>
      intro output position state hreading hle hfuel
      refine ⟨state, ?_, hserves.ready_of_reading hreading⟩
      rw [List.drop_of_length_le (by omega), List.append_nil]
      rfl
  | succ fuel ih =>
      intro output position state hreading hle hfuel
      by_cases hend : position = bytes.length
      · subst hend
        rw [List.drop_length, List.append_nil, Nat.sub_self]
        exact ⟨state, rfl, hserves.ready_of_reading hreading⟩
      · obtain ⟨count, next, hpos, hcount, hread, hnext⟩ :=
          readChunk_result hserves hbytes hlt hreading (by omega)
        obtain ⟨last, hrest, hlast⟩ :=
          ih (output ++ (bytes.drop position).take count) hnext hcount (by omega)
        refine ⟨last, ?_, hlast⟩
        obtain ⟨remaining, hremaining⟩ : ∃ remaining, bytes.length - position = remaining + 1 :=
          ⟨bytes.length - position - 1, by omega⟩
        rw [hremaining] at hread ⊢
        rw [readRemaining, Session.result_bind_ok hread]
        show (readRemaining provider fuel (bytes.length - (position + count)) _).result next = _
        rw [hrest, List.append_assoc, ← List.drop_drop, List.take_append_drop]

/-- **A volume is appended**, in whatever pieces it comes. -/
theorem appendVolume_result (hserves : provider.Serves base volumes ready reading) {index : Nat}
    {bytes : Bytes} (hbytes : volumes[index]? = some bytes) (output : Bytes) {position : Nat}
    {state : σ} (hreading : reading index position state)
    (hlt : output.length + bytes.length < 2 ^ 64)
    (hlimit : output.length + bytes.length ≤ limits.maxTotalInputBytes) :
    ∃ state', (appendVolume provider limits output).result state
      = (.ok (output ++ bytes), state') ∧ ready state' := by
  obtain ⟨measured, hlen, hreading⟩ := hserves.len hreading hbytes
  obtain ⟨sought, hseek, hreading⟩ := hserves.seek hreading
  obtain ⟨last, hread, hlast⟩ := readRemaining_result hserves hbytes (by omega) bytes.length
    output hreading (Nat.zero_le _) (Nat.sub_le _ _)
  refine ⟨last, ?_, hlast⟩
  rw [appendVolume, Session.result_lift_bind (result_checkpoint 0),
    Session.result_bind_ok (io_result hlen),
    Session.result_lift_bind (orFormat_eq_ok.mpr (checkedAdd_of_lt hlt)),
    Session.result_lift_bind (checkLimit_of_le hlimit _),
    Session.result_bind_ok (io_result hseek)]
  exact hread

/-! ### All volumes -/

/-- How reading so many volumes ends. -/
def termination (base : String) (limits : Limits) (count : Nat) : VolumeTermination :=
  if count < limits.maxVolumes then
    .missing (volumeName base count)
  else
    .limit (count + 1) limits.maxVolumes

theorem openVolume_result (hserves : provider.Serves base volumes ready reading) {index : Nat}
    {bytes : Bytes} (hbytes : volumes[index]? = some bytes) {state : σ} (hready : ready state) :
    ∃ state', (openVolume provider index (volumeName base index)).result state
      = (.ok none, state') ∧ reading index 0 state' := by
  obtain ⟨state', hopen, hreading⟩ := hserves.openVolume hready hbytes
  exact ⟨state', by rw [openVolume, Session.result_act, hopen], hreading⟩

theorem openVolume_missing (hserves : provider.Serves base volumes ready reading) {index : Nat}
    (hindex : volumes.length ≤ index) {state : σ} (hready : ready state) :
    ∃ state', (openVolume provider index (volumeName base index)).result state
      = (.ok (some (.missing (volumeName base index))), state') := by
  obtain ⟨state', hopen⟩ := hserves.missing hready hindex
  exact ⟨state', by rw [openVolume, Session.result_act, hopen]⟩

/-- The volumes from `index` on, after the bytes of those before. -/
theorem readVolumesFrom_result (hserves : provider.Serves base volumes ready reading)
    (hcount : volumes.length + 1 < 2 ^ 64) (hmaximum : volumes.length ≤ limits.maxVolumes)
    (hne : volumes.flatten ≠ []) (hlt : volumes.flatten.length < 2 ^ 64)
    (hlimit : volumes.flatten.length ≤ limits.maxTotalInputBytes) (left : Nat) :
    ∀ (fuel index : Nat) {state : σ}, index + left = volumes.length →
      index + fuel = limits.maxVolumes → ready state →
      ∃ state', (readVolumesFrom provider (base ++ ".001") limits fuel index
          (volumes.take index).flatten).result state
        = (.ok ⟨volumes.flatten, termination base limits volumes.length⟩, state') := by
  induction left with
  | zero =>
      intro fuel index state hindex hfuel hready
      obtain rfl : index = volumes.length := hindex
      rw [List.take_length]
      cases fuel with
      | zero =>
          have hlast : (volumeLimit limits volumes.length volumes.flatten).result
              = .ok ⟨volumes.flatten, termination base limits volumes.length⟩ := by
            rw [volumeLimit, Metered.result_bind_ok (orFormat_eq_ok.mpr (checkedAdd_of_lt hcount)),
              if_neg (by simpa using hne), termination, if_neg (by omega)]
            rfl
          exact ⟨state, Session.result_lift_ok hlast⟩
      | succ fuel =>
          obtain ⟨state', hopen⟩ := openVolume_missing hserves (Nat.le_refl _) hready
          refine ⟨state', ?_⟩
          rw [readVolumesFrom, termination, if_pos (by omega),
            Session.result_lift_bind (orFormat_eq_ok.mpr (checkedAdd_of_lt hcount)),
            Session.result_lift_bind (result_checkpoint 0),
            Session.result_lift_bind (sequentialName_result base hcount),
            Session.result_bind_ok hopen]
          rfl
  | succ left ih =>
      intro fuel index state hindex hfuel hready
      have hin : index < volumes.length := by omega
      have hbytes := List.getElem?_eq_getElem hin
      have hflatten : (volumes.take (index + 1)).flatten
          = (volumes.take index).flatten ++ volumes[index] := by
        rw [List.take_add_one, hbytes, List.flatten_append]
        simp
      have htotal : ((volumes.take (index + 1)).flatten).length ≤ volumes.flatten.length := by
        have hsplit := congrArg List.flatten (List.take_append_drop (index + 1) volumes)
        rw [List.flatten_append] at hsplit
        rw [← hsplit, List.length_append]
        exact Nat.le_add_right _ _
      rw [hflatten, List.length_append] at htotal
      obtain ⟨fuel, rfl⟩ : ∃ fuel', fuel = fuel' + 1 := ⟨fuel - 1, by omega⟩
      obtain ⟨opened, hopen, hreading⟩ := openVolume_result hserves hbytes hready
      obtain ⟨appended, happend, hready⟩ := appendVolume_result hserves hbytes
        (volumes.take index).flatten hreading (by omega)
        (show _ ≤ limits.maxTotalInputBytes by omega)
      obtain ⟨last, hrest⟩ := ih fuel (index + 1) (by omega) (by omega) hready
      refine ⟨last, ?_⟩
      rw [readVolumesFrom,
        Session.result_lift_bind (orFormat_eq_ok.mpr (checkedAdd_of_lt (by omega))),
        Session.result_lift_bind (result_checkpoint 0),
        Session.result_lift_bind (sequentialName_result base (by omega)),
        Session.result_bind_ok hopen]
      show (appendVolume provider limits _ >>= _).result opened = _
      rw [Session.result_bind_ok happend, ← hflatten]
      exact hrest

/-- **Reading volumes** yields their bytes, and says which volume would come next. -/
theorem readSequentialVolumes_result (hserves : provider.Serves base volumes ready reading)
    (hcount : volumes.length + 1 < 2 ^ 64) (hmaximum : volumes.length ≤ limits.maxVolumes)
    (hne : volumes.flatten ≠ []) (hlt : volumes.flatten.length < 2 ^ 64)
    (hlimit : volumes.flatten.length ≤ limits.maxTotalInputBytes) {state : σ}
    (hready : ready state) :
    ∃ state', (readSequentialVolumes provider (base ++ ".001") limits).result state
      = (.ok ⟨volumes.flatten, termination base limits volumes.length⟩, state') :=
  readVolumesFrom_result hserves hcount hmaximum hne hlt hlimit volumes.length limits.maxVolumes
    0 (Nat.zero_add _) (Nat.zero_add _) hready

/-- Volumes that are not empty are no more than their bytes. -/
theorem length_le_length_flatten (hne : ∀ volume ∈ volumes, volume ≠ []) :
    volumes.length ≤ volumes.flatten.length := by
  have hle := List.length_le_sum_of_one_le (volumes.map List.length) fun length hmem => by
    obtain ⟨volume, hvolume, rfl⟩ := List.mem_map.mp hmem
    exact List.length_pos_iff.mpr (hne volume hvolume)
  rwa [List.length_map, ← List.length_flatten] at hle

end Volume

namespace Parser

variable {bytes : Bytes} {limits : Limits}

/-- The probe stops at a start header that it makes an error of. -/
def Misleading (bytes : Bytes) (limits : Limits) : Prop :=
  ∃ offset raw, FirstDecisive bytes limits offset ∧ StartHeaderAt bytes offset raw ∧
    (limits.maxHeaderBytes < raw.nextSize ∨ 2 ^ 64 ≤ declaredEnd offset raw)

theorem exists_firstDecisive {offset : Nat} (hcandidate : Candidate bytes limits offset)
    (hdecisive : Decisive bytes offset) :
    ∃ first ≤ offset, FirstDecisive bytes limits first := by
  classical
  have hexists : ∃ o, Candidate bytes limits o ∧ Decisive bytes o := ⟨offset, hcandidate, hdecisive⟩
  obtain ⟨hcandidate', hdecisive'⟩ := Nat.find_spec hexists
  exact ⟨Nat.find hexists, Nat.find_min' hexists ⟨hcandidate, hdecisive⟩, hcandidate', hdecisive',
    fun o hc hd => Nat.find_min' hexists ⟨hc, hd⟩⟩

/-- **On bytes that parse**, the probe has an answer unless it is misled. -/
theorem probe_of_parsed {parsed : ParsedArchive} (hlt : bytes.length < 2 ^ 64)
    (h : (parseArchive bytes limits).result = .ok parsed) :
    (∃ more, (archiveDeclaresMoreBytes bytes limits).result = .ok more) ↔
      ¬ Misleading bytes limits := by
  obtain ⟨_, hlimit, -⟩ := Metered.bind_eq_ok.mp h
  obtain ⟨offset, raw, hcandidate, hheader, -⟩ := parseArchive_startHeader h
  obtain ⟨first, hle, hfirst⟩ := exists_firstDecisive hcandidate (Or.inr ⟨raw, hheader⟩)
  have hend := length_of_word hheader.word
  -- a header that is whole lies behind, so this one is not cut off
  obtain ⟨raw', hheader'⟩ := hfirst.decisive.resolve_left (by omega)
  have hresult : (archiveDeclaresMoreBytes bytes limits).result
      = (verdict bytes first limits raw').map (·.getD false) := by
    rcases archiveDeclaresMoreBytes_result hlt (checkLimit_eq_ok.mp hlimit) with
      ⟨o, ho, hresult⟩ | ⟨hnone, -⟩
    · obtain rfl := ho.unique hfirst
      rw [hresult, outcomeAt, candidateDeclaresMoreBytes_word hheader'.fits hheader'.word hlt,
        if_pos hheader'.crc]
    · exact absurd ⟨first, hfirst⟩ hnone
  rw [hresult, verdict]
  by_cases hsize : raw'.nextSize > limits.maxHeaderBytes
  · rw [if_pos hsize]
    exact iff_of_false (by simp [Except.map])
      (not_not.mpr ⟨first, raw', hfirst, hheader', Or.inl hsize⟩)
  rw [if_neg hsize]
  by_cases hfits : declaredEnd first raw' < 2 ^ 64
  · rw [if_pos hfits]
    refine iff_of_true ⟨_, rfl⟩ ?_
    rintro ⟨o, raw'', ho, hheader'', hbad⟩
    obtain rfl := ho.unique hfirst
    obtain rfl := word_unique hheader''.fits hheader'.fits hheader''.word hheader'.word
    omega
  · rw [if_neg hfits]
    exact iff_of_false (by simp [Except.map])
      (not_not.mpr ⟨first, raw', hfirst, hheader', Or.inr (by omega)⟩)

end Parser

namespace Archive

variable {codecs : Codecs} {layout : Layout} {bytes : Bytes} {limits : Limits}
  {password : Option Password} {archive : Archive}

/-! ### The length of an archive -/

theorem addAccounted_eq_ok {context : String} (sizes : List Nat) : ∀ {total total' : Nat},
    (addAccounted context sizes total).result = .ok total' →
    total' = total + sizes.sum ∧ (sizes ≠ [] → total' < 2 ^ 64) := by
  induction sizes with
  | nil =>
      intro total total' h
      obtain rfl := Except.ok.inj h
      exact ⟨rfl, fun h => absurd rfl h⟩
  | cons size sizes ih =>
      intro total total' h
      simp only [addAccounted, Metered.bind_eq_ok, orFormat_eq_ok, checkedAdd_eq_some] at h
      obtain ⟨_, ⟨hlt, rfl⟩, h⟩ := h
      obtain ⟨rfl, hlast⟩ := ih h
      refine ⟨by rw [List.sum_cons, Nat.add_assoc], fun _ => ?_⟩
      cases sizes with
      | nil => simpa using hlt
      | cons _ _ => exact hlast (List.cons_ne_nil _ _)

theorem addAccountedPart_le {α : Type} {part : Option α} {account : α → Work Nat}
    {context : String} {total total' : Nat}
    (h : (addAccountedPart part account context total).result = .ok total') : total ≤ total' := by
  cases part with
  | none => exact Nat.le_of_eq (Except.ok.inj h)
  | some value =>
      obtain ⟨bytes, -, h⟩ := Metered.bind_eq_ok.mp h
      rw [(addAccounted_eq_ok _ h).1]
      exact Nat.le_add_right _ _

/-- What an archive takes is counted, its bytes and its header record included. -/
theorem fromParts_length {header : ArchiveHeader}
    (h : (fromParts layout bytes header limits password).result = .ok archive) :
    bytes.length + layout.archiveHeader < 2 ^ 64 := by
  simp only [fromParts, measureArchiveResources, accountedMetadata, Metered.bind_eq_ok] at h
  obtain ⟨_, ⟨metadataBytes, ⟨_, -, _, hfirst, _, hadditional, _, hmain, hfiles⟩, _, htotal, -⟩, -⟩ :=
    h
  have hle : layout.archiveHeader ≤ metadataBytes := by
    have hproperties := (addAccounted_eq_ok _ hfirst).1
    have := addAccountedPart_le hadditional
    have := addAccountedPart_le hmain
    have := addAccountedPart_le hfiles
    omega
  obtain ⟨rfl, hlt⟩ := addAccounted_eq_ok _ htotal
  have := hlt (List.cons_ne_nil _ _)
  simp only [List.sum_cons] at this
  omega

theorem openLayers_fromParts {opening : Opening} (fuel : Nat) :
    ∀ {depth decodedHeaderBytes : Nat} {nextHeader : ParsedNextHeader},
      (openLayers opening fuel depth decodedHeaderBytes nextHeader).result = .ok archive →
      ∃ header, (fromParts opening.layout opening.bytes header opening.limits
        opening.password).result = .ok archive := by
  have hplain : ∀ {decodedHeaderBytes : Nat} {header : ArchiveHeader},
      (resolveHeader opening decodedHeaderBytes header).result = .ok archive →
      ∃ header, (fromParts opening.layout opening.bytes header opening.limits
        opening.password).result = .ok archive := by
    intro decodedHeaderBytes header h
    simp only [resolveHeader, Metered.bind_eq_ok, Prod.exists] at h
    obtain ⟨_, -, header', _, -, _, -, h⟩ := h
    exact ⟨header', h⟩
  have hpending : ∀ {decodedHeaderBytes : Nat} {pending : PendingExternalFolderHeader},
      (resolveExternalFolders opening decodedHeaderBytes pending).result = .ok archive →
      ∃ header, (fromParts opening.layout opening.bytes header opening.limits
        opening.password).result = .ok archive := by
    intro decodedHeaderBytes pending h
    simp only [resolveExternalFolders, Metered.bind_eq_ok] at h
    obtain ⟨_, -, _, -, _, -, _, -, _, -, _, -, header, -, h⟩ := h
    exact ⟨header, h⟩
  induction fuel with
  | zero =>
      intro depth decodedHeaderBytes nextHeader h
      cases nextHeader with
      | header header => exact hplain h
      | encodedHeader streams =>
          obtain ⟨_, -, h⟩ := Metered.bind_eq_ok.mp h
          exact absurd h (by simp)
      | pendingExternalFolders pending =>
          obtain ⟨_, -, h⟩ := Metered.bind_eq_ok.mp h
          exact hpending h
  | succ fuel ih =>
      intro depth decodedHeaderBytes nextHeader h
      cases nextHeader with
      | header header => exact hplain h
      | encodedHeader streams =>
          obtain ⟨_, -, h⟩ := Metered.bind_eq_ok.mp h
          obtain ⟨⟨nextHeader, _⟩, -, h⟩ := Metered.bind_eq_ok.mp h
          exact ih h
      | pendingExternalFolders pending =>
          obtain ⟨_, -, h⟩ := Metered.bind_eq_ok.mp h
          exact hpending h

theorem openBytes_length (h : (openBytes codecs layout bytes limits password).result = .ok archive) :
    bytes.length + layout.archiveHeader < 2 ^ 64 := by
  obtain ⟨parsed, -, h⟩ := Metered.bind_eq_ok.mp h
  obtain ⟨header, h⟩ := openLayers_fromParts _ h
  exact fromParts_length h

end Archive

end Un7z
