/-
What the completeness probe finds.

`archive_declares_more_bytes` walks over the signatures in the bytes and stops at the
first one that decides: its fixed header is cut off, or its start header matches its CRC.
Here that is said of the bytes alone.  `RawSignatureHeader.word` is the fixed header as it
is stored, `StartHeaderAt` a valid one, and `FirstDecisive` the signature the walk stops
at; the parser accepts a candidate only where there is such a header.
-/
import Un7z.Parser
import Un7z.Proofs.Reads

namespace Un7z

open Cursor (Decodes)
open Grammar (leBytes)

/-! ### Fixed headers -/

theorem decodes_readU64Le {value : Nat} (h : value < 2 ^ 64) :
    Decodes readU64Le (leBytes 8 value) value := by
  have hvalue : leValue (leBytes 8 value) = value := by
    rw [leValue_leBytes]
    exact Nat.mod_eq_of_lt h
  have hbind := (decodes_readBytes (leBytes 8 value)).bind
    (f := fun bytes => if bytes.length = 8 then (pure (leValue bytes) : Reads Nat)
      else liftM (formatErr "truncated little-endian u64" : Work Nat))
    (by rw [if_pos (length_leBytes 8 _), hvalue]; exact Decodes.pure value)
  rw [List.append_nil, length_leBytes] at hbind
  exact hbind

namespace RawSignatureHeader

/-- The fields that the start CRC is about. -/
def fields (raw : RawSignatureHeader) : Bytes :=
  leBytes 8 raw.nextOffset ++ (leBytes 8 raw.nextSize ++ leBytes 4 raw.nextCrc.toNat)

/-- The fixed header as it is stored. -/
def word (raw : RawSignatureHeader) : Bytes :=
  signature ++ ([raw.major] ++ ([raw.minor] ++ (leBytes 4 raw.startCrc.toNat ++ raw.fields)))

structure Fits (raw : RawSignatureHeader) : Prop where
  nextOffset : raw.nextOffset < 2 ^ 64
  nextSize : raw.nextSize < 2 ^ 64

variable {raw : RawSignatureHeader} {bytes : Bytes}

@[simp] theorem length_fields : raw.fields.length = 20 := by simp [fields]

@[simp] theorem length_word : raw.word.length = fixedHeaderSize := by
  simp [word, signature, fixedHeaderSize]

theorem drop_word : (raw.word.drop startHeaderOffset).take startHeaderSize = raw.fields := by
  have hword : raw.word = (signature ++ [raw.major] ++ [raw.minor] ++ leBytes 4 raw.startCrc.toNat)
      ++ raw.fields := by simp [word]
  have hlength : (signature ++ [raw.major] ++ [raw.minor] ++ leBytes 4 raw.startCrc.toNat).length
      = startHeaderOffset := by simp [signature, startHeaderOffset]
  rw [hword, ← hlength, List.drop_left, List.take_of_length_le (by simp [startHeaderSize])]

/-- A list that is long enough has a first part of this length. -/
theorem exists_split {n : Nat} {rest : Bytes} (h : n ≤ rest.length) :
    ∃ first last, first.length = n ∧ last.length = rest.length - n ∧ rest = first ++ last :=
  ⟨rest.take n, rest.drop n, by rw [List.length_take]; omega, List.length_drop,
    (List.take_append_drop n rest).symm⟩

/-- Whatever follows a signature is a fixed header, once it is long enough. -/
theorem exists_word (hsignature : signature <+: bytes) (hlength : fixedHeaderSize ≤ bytes.length) :
    ∃ raw : RawSignatureHeader, raw.Fits ∧ raw.word <+: bytes := by
  obtain ⟨rest, rfl⟩ := hsignature
  have hrest : 26 ≤ rest.length := by
    have hsignature : signature.length = 6 := rfl
    rw [List.length_append, hsignature] at hlength
    have hfixed : fixedHeaderSize = 32 := rfl
    omega
  obtain ⟨major, rest, hmajor, hlen, rfl⟩ := exists_split (show 1 ≤ rest.length by omega)
  obtain ⟨minor, rest, hminor, hlen, rfl⟩ := exists_split (show 1 ≤ rest.length by omega)
  obtain ⟨startCrc, rest, hstartCrc, hlen, rfl⟩ := exists_split (show 4 ≤ rest.length by omega)
  obtain ⟨nextOffset, rest, hnextOffset, hlen, rfl⟩ := exists_split (show 8 ≤ rest.length by omega)
  obtain ⟨nextSize, rest, hnextSize, hlen, rfl⟩ := exists_split (show 8 ≤ rest.length by omega)
  obtain ⟨nextCrc, rest, hnextCrc, hlen, rfl⟩ := exists_split (show 4 ≤ rest.length by omega)
  obtain ⟨major, rfl⟩ := List.length_eq_one_iff.mp hmajor
  obtain ⟨minor, rfl⟩ := List.length_eq_one_iff.mp hminor
  obtain ⟨startCrc, hstart, rfl⟩ := exists_leBytes hstartCrc
  obtain ⟨nextOffset, hoffset, rfl⟩ := exists_leBytes hnextOffset
  obtain ⟨nextSize, hsize, rfl⟩ := exists_leBytes hnextSize
  obtain ⟨nextCrc, hcrc, rfl⟩ := exists_leBytes hnextCrc
  refine ⟨⟨major, minor, UInt32.ofNat startCrc, nextOffset, nextSize, UInt32.ofNat nextCrc⟩,
    ⟨hoffset, hsize⟩, rest, ?_⟩
  have hword : ∀ value < 256 ^ 4, (UInt32.ofNat value).toNat = value := fun value h =>
    UInt32.toNat_ofNat_of_lt h
  simp [word, fields, hword _ hstart, hword _ hcrc]

end RawSignatureHeader

namespace Parser

open RawSignatureHeader

variable {bytes : Bytes} {offset : Nat} {limits : Limits} {raw : RawSignatureHeader}

theorem decodes_signatureFields (h : raw.Fits) : Decodes parseSignatureFields raw.word raw := by
  unfold parseSignatureFields word
  refine (decodes_readBytes signature).bind ?_
  rw [if_neg (not_not.mpr rfl)]
  refine (decodes_readU8 raw.major).bind ((decodes_readU8 raw.minor).bind
    ((decodes_readU32Le raw.startCrc).bind ((decodes_readU64Le h.nextOffset).bind
      ((decodes_readU64Le h.nextSize).bind ?_))))
  have hlast := (decodes_readU32Le raw.nextCrc).bind (f := fun nextCrc =>
      (pure { raw with nextCrc } : Reads RawSignatureHeader)) (Decodes.pure raw)
  rw [List.append_nil] at hlast
  exact hlast

/-- A fixed header is read back from its word. -/
theorem parseRawSignatureHeader_word (h : raw.Fits) :
    (parseRawSignatureHeader raw.word).result = .ok raw := by
  have hvalid : (BoundedReader.new raw.word).bytes.length < 2 ^ 64 := by
    show raw.word.length < 2 ^ 64
    rw [length_word]
    decide
  obtain ⟨reader, hread, -, -⟩ :=
    decodes_readBytes raw.word (BoundedReader.new raw.word) [] hvalid (List.append_nil _).symm
  obtain ⟨child, hparse, -, hrest⟩ :=
    decodes_signatureFields h (BoundedReader.new raw.word) [] hvalid (List.append_nil _).symm
  have hend : child.position = child.bytes.length := by
    have hlength := child.length_remaining
    have hle := child.position_le
    rw [show child.remaining = [] from hrest, List.length_nil] at hlength
    omega
  rw [length_word] at hread
  have hexact : (parseExact fixedHeaderSize "fixed 7z header was not consumed exactly"
      parseSignatureFields (BoundedReader.new raw.word)).result = .ok (raw, reader) := by
    rw [parseExact, Cursor.result_bind_ok hread]
    refine Cursor.bind_eq_ok.mpr ⟨(raw, child), reader, ?_, ?_⟩
    · exact Cursor.lift_eq_ok.mpr ⟨hparse, rfl⟩
    · refine Cursor.bind_eq_ok.mpr ⟨(), reader, Cursor.lift_eq_ok.mpr ⟨?_, rfl⟩, rfl⟩
      rw [finish, if_pos hend]
      rfl
  rw [parseRawSignatureHeader, StateT.run', Metered.result_map, hexact]
  rfl

/-! ### Candidates -/

/-- A start header at this offset that matches its CRC. -/
structure StartHeaderAt (bytes : Bytes) (offset : Nat) (raw : RawSignatureHeader) : Prop where
  fits : raw.Fits
  word : raw.word <+: bytes.drop offset
  crc : crc32 raw.fields = raw.startCrc

/-- Where the next header ends that a fixed header declares. -/
def declaredEnd (offset : Nat) (raw : RawSignatureHeader) : Nat :=
  offset + fixedHeaderSize + raw.nextOffset + raw.nextSize

theorem word_unique {raw' : RawSignatureHeader} (h : raw.Fits) (h' : raw'.Fits)
    (hword : raw.word <+: bytes) (hword' : raw'.word <+: bytes) : raw = raw' := by
  have hsame : raw.word = raw'.word :=
    (List.prefix_of_prefix_length_le hword hword' (by simp)).eq_of_length (by simp)
  have hparse := parseRawSignatureHeader_word h
  rw [hsame, parseRawSignatureHeader_word h'] at hparse
  exact (Except.ok.inj hparse).symm

theorem length_of_word (hword : raw.word <+: bytes.drop offset) :
    offset + fixedHeaderSize ≤ bytes.length := by
  have hle := hword.length_le
  rw [length_word, List.length_drop] at hle
  have hpos : fixedHeaderSize = 32 := rfl
  omega

/-- The bytes of a fixed header. -/
theorem checkedRange_word {overflowDetail truncatedDetail : String}
    (hword : raw.word <+: bytes.drop offset) (hlt : offset + fixedHeaderSize < 2 ^ 64) :
    (checkedRange bytes offset fixedHeaderSize overflowDetail truncatedDetail).result
      = .ok raw.word := by
  refine checkedRange_eq_ok.mpr ⟨hlt, length_of_word hword, ?_⟩
  rw [← (length_word : raw.word.length = fixedHeaderSize)]
  exact (List.prefix_iff_eq_take.mp hword)

theorem checkedRange_fields {overflowDetail truncatedDetail : String} :
    (checkedRange raw.word startHeaderOffset startHeaderSize overflowDetail truncatedDetail).result
      = .ok raw.fields :=
  checkedRange_eq_ok.mpr ⟨by decide, by rw [length_word]; decide, drop_word.symm⟩

/-- A candidate whose fixed header is cut off. -/
theorem candidateDeclaresMoreBytes_cut (hcut : bytes.length < offset + fixedHeaderSize)
    (hlt : offset + fixedHeaderSize < 2 ^ 64) :
    (candidateDeclaresMoreBytes bytes offset limits).result = .ok (some true) := by
  rw [candidateDeclaresMoreBytes, Metered.result_bind_ok (orFormat_eq_ok.mpr
    (checkedAdd_of_lt hlt)), if_pos hcut]
  rfl

/-- The verdict on a start header that matches its CRC. -/
def verdict (bytes : Bytes) (offset : Nat) (limits : Limits) (raw : RawSignatureHeader) :
    Except Error (Option Bool) :=
  if raw.nextSize > limits.maxHeaderBytes then
    .error (.limitExceeded .headerBytes raw.nextSize limits.maxHeaderBytes)
  else if declaredEnd offset raw < 2 ^ 64 then
    .ok (some (decide (declaredEnd offset raw > bytes.length)))
  else
    .error (formatError "declared archive end overflows")

theorem candidateDeclaresMoreBytes_word (hfits : raw.Fits) (hword : raw.word <+: bytes.drop offset)
    (hlt : bytes.length < 2 ^ 64) :
    (candidateDeclaresMoreBytes bytes offset limits).result
      = if crc32 raw.fields = raw.startCrc then verdict bytes offset limits raw else .ok none := by
  have hle := length_of_word hword
  rw [candidateDeclaresMoreBytes, Metered.result_bind_ok (orFormat_eq_ok.mpr
    (checkedAdd_of_lt (by omega))), if_neg (by omega),
    Metered.result_bind_ok (checkedRange_word hword (by omega)),
    Metered.result_bind_ok (parseRawSignatureHeader_word hfits),
    Metered.result_bind_ok checkedRange_fields, Metered.result_bind_ok (result_checksum _)]
  by_cases hcrc : crc32 raw.fields = raw.startCrc
  · rw [if_neg (not_not.mpr hcrc), if_pos hcrc]
    by_cases hsize : raw.nextSize > limits.maxHeaderBytes
    · rw [if_pos hsize, verdict, if_pos hsize]
      rfl
    · rw [if_neg hsize, verdict, if_neg hsize]
      by_cases hend : declaredEnd offset raw < 2 ^ 64
      · have hrequired : (checkedAdd 64 (offset + fixedHeaderSize) raw.nextOffset).bind
            (checkedAdd 64 · raw.nextSize) = some (declaredEnd offset raw) := by
          rw [checkedAdd_of_lt (by rw [declaredEnd] at hend; omega), Option.bind_some,
            checkedAdd_of_lt hend]
          rfl
        rw [if_pos hend, hrequired]
        rfl
      · have hrequired : (checkedAdd 64 (offset + fixedHeaderSize) raw.nextOffset).bind
            (checkedAdd 64 · raw.nextSize) = none := by
          rw [Option.bind_eq_none_iff]
          intro stop hstop
          obtain ⟨-, rfl⟩ := checkedAdd_eq_some.mp hstop
          exact if_neg hend
        rw [if_neg hend, hrequired]
        rfl
  · rw [if_pos hcrc, if_neg hcrc]
    rfl

/-! ### The walk -/

/-- A signature that the scan comes to: the first bytes, or else one within the limit. -/
def Candidate (bytes : Bytes) (limits : Limits) (offset : Nat) : Prop :=
  signature <+: bytes.drop offset ∧
    (offset = 0 ∨ ¬ signature <+: bytes ∧ offset ≤ limits.sfxScanLimit)

/-- A signature at which the probe makes up its mind. -/
def Decisive (bytes : Bytes) (offset : Nat) : Prop :=
  bytes.length < offset + fixedHeaderSize ∨ ∃ raw, StartHeaderAt bytes offset raw

/-- The signature at which the probe stops. -/
structure FirstDecisive (bytes : Bytes) (limits : Limits) (offset : Nat) : Prop where
  candidate : Candidate bytes limits offset
  decisive : Decisive bytes offset
  first : ∀ o, Candidate bytes limits o → Decisive bytes o → offset ≤ o

theorem candidateDeclaresMoreBytes_eq_none (hsignature : signature <+: bytes.drop offset)
    (hlt : bytes.length < 2 ^ 64) :
    (candidateDeclaresMoreBytes bytes offset limits).result = .ok none ↔
      ¬ Decisive bytes offset := by
  by_cases hcut : bytes.length < offset + fixedHeaderSize
  · refine iff_of_false (fun h => ?_) (not_not.mpr (Or.inl hcut))
    by_cases hfixed : offset + fixedHeaderSize < 2 ^ 64
    · rw [candidateDeclaresMoreBytes_cut hcut hfixed] at h
      exact absurd h (by simp)
    · have hnone : checkedAdd 64 offset fixedHeaderSize = none := if_neg hfixed
      rw [candidateDeclaresMoreBytes, hnone] at h
      exact absurd h (by simp)
  · obtain ⟨raw, hfits, hword⟩ := exists_word hsignature (by rw [List.length_drop]; omega)
    rw [candidateDeclaresMoreBytes_word hfits hword hlt]
    by_cases hcrc : crc32 raw.fields = raw.startCrc
    · rw [if_pos hcrc]
      refine iff_of_false (fun h => ?_) (not_not.mpr (Or.inr ⟨raw, hfits, hword, hcrc⟩))
      unfold verdict at h
      split at h
      · exact absurd h (by simp)
      split at h <;> exact absurd h (by simp)
    · rw [if_neg hcrc]
      refine iff_of_true rfl fun h => ?_
      obtain hcut' | ⟨raw', hfits', hword', hcrc'⟩ := h
      · exact hcut hcut'
      · rw [word_unique hfits' hfits hword' hword] at hcrc'
        exact hcrc hcrc'

/-- The windows of the first `stop` bytes, from `start` on. -/
theorem window_eq_signature {stop start : Nat} {windows : Bytes} (hstop : stop ≤ bytes.length)
    (hwindows : windows = (bytes.take stop).drop start)
    (hlong : ¬ windows.length < signature.length) :
    (windows.take signature.length = signature ↔ signature <+: bytes.drop start) ∧
      start + signature.length ≤ stop := by
  have hsix : signature.length = 6 := rfl
  have hlength := congrArg List.length hwindows
  rw [List.length_drop, List.length_take] at hlength
  refine ⟨?_, by omega⟩
  rw [hwindows, List.drop_take, List.take_take, List.prefix_iff_eq_take,
    Nat.min_eq_left (by omega), eq_comm]

theorem windows_rest {stop start : Nat} {byte : UInt8} {rest : Bytes}
    (hwindows : byte :: rest = (bytes.take stop).drop start) :
    rest = (bytes.take stop).drop (start + 1) := by
  rw [← List.tail_drop, ← hwindows]
  rfl

/-- What the walk returns once it has stopped. -/
def outcomeAt (bytes : Bytes) (limits : Limits) (offset : Nat) : Except Error Bool :=
  (candidateDeclaresMoreBytes bytes offset limits).result.map (·.getD false)

/-- The walk from `start` on, over the windows of the first `stop` bytes, ends with `result`. -/
def Walked (bytes : Bytes) (limits : Limits) (stop start : Nat) (result : Except Error Bool) :
    Prop :=
  (result = .ok false ∧ ∀ o, start ≤ o → o + signature.length ≤ stop →
    signature <+: bytes.drop o → ¬ Decisive bytes o) ∨
  ∃ o, start ≤ o ∧ o + signature.length ≤ stop ∧ signature <+: bytes.drop o ∧
    Decisive bytes o ∧
    (∀ o', start ≤ o' → signature <+: bytes.drop o' → Decisive bytes o' → o ≤ o') ∧
    result = outcomeAt bytes limits o

/-- A window that does not decide is passed over. -/
theorem Walked.skip {stop start : Nat} {result : Except Error Bool}
    (hskip : signature <+: bytes.drop start → ¬ Decisive bytes start)
    (h : Walked bytes limits stop (start + 1) result) :
    Walked bytes limits stop start result := by
  rcases h with ⟨hresult, hnone⟩ | ⟨o, hstart, hstop, hsignature, hdecisive, hfirst, hresult⟩
  · refine Or.inl ⟨hresult, fun o ho hstop hsignature => ?_⟩
    rcases Nat.eq_or_lt_of_le ho with rfl | ho
    · exact hskip hsignature
    · exact hnone o ho hstop hsignature
  · refine Or.inr ⟨o, by omega, hstop, hsignature, hdecisive, fun o' ho' hs hd => ?_, hresult⟩
    rcases Nat.eq_or_lt_of_le ho' with rfl | ho'
    · exact absurd hd (hskip hs)
    · exact hfirst o' ho' hs hd

/-- No signature fits into what is left. -/
theorem Walked.done {stop start : Nat} (hshort : stop - start < signature.length) :
    Walked bytes limits stop start (.ok false) := by
  refine Or.inl ⟨rfl, fun o _ _ _ => ?_⟩
  have hsix : signature.length = 6 := rfl
  omega

/-- A window that decides ends the walk. -/
theorem Walked.stop {stop start : Nat} (hstop : start + signature.length ≤ stop)
    (hsignature : signature <+: bytes.drop start) (hdecisive : Decisive bytes start) :
    Walked bytes limits stop start (outcomeAt bytes limits start) :=
  Or.inr ⟨start, Nat.le_refl _, hstop, hsignature, hdecisive, fun _ ho' _ _ => ho', rfl⟩

theorem probeCandidates_walked {stop : Nat} (hlt : bytes.length < 2 ^ 64)
    (hstop : stop ≤ bytes.length) (windows : Bytes) :
    ∀ start, windows = (bytes.take stop).drop start →
      Walked bytes limits stop start (probeCandidates bytes limits start windows).result := by
  have hdone : ∀ {windows : Bytes} {start : Nat}, windows = (bytes.take stop).drop start →
      windows.length < signature.length → Walked bytes limits stop start (.ok false) := by
    intro windows start hwindows hshort
    rw [hwindows, List.length_drop, List.length_take, Nat.min_eq_left hstop] at hshort
    exact .done hshort
  induction windows with
  | nil => exact fun start hwindows => hdone hwindows (by decide)
  | cons byte rest ih =>
      intro start hwindows
      have hrest := windows_rest hwindows
      unfold probeCandidates
      by_cases hshort : (byte :: rest).length < signature.length
      · rw [if_pos hshort]
        exact hdone hwindows hshort
      rw [if_neg hshort, Metered.result_bind_ok (result_checkpoint 1)]
      obtain ⟨hwindow, hwithin⟩ := window_eq_signature hstop hwindows hshort
      by_cases hsignature : signature <+: bytes.drop start
      · rw [if_neg (not_not.mpr (hwindow.mpr hsignature))]
        have hnone : (candidateDeclaresMoreBytes bytes start limits).result = .ok none ↔
            ¬ Decisive bytes start := candidateDeclaresMoreBytes_eq_none hsignature hlt
        by_cases hdecisive : Decisive bytes start
        · have hwalked : Walked bytes limits stop start (outcomeAt bytes limits start) :=
            .stop hwithin hsignature hdecisive
          cases hresult : (candidateDeclaresMoreBytes bytes start limits).result with
          | error e =>
              rw [outcomeAt, hresult] at hwalked
              rwa [Metered.result_bind_error hresult]
          | ok decided =>
              rw [outcomeAt, hresult] at hwalked
              rw [Metered.result_bind_ok hresult]
              cases decided with
              | some more => exact hwalked
              | none => exact absurd hdecisive (hnone.mp hresult)
        · rw [Metered.result_bind_ok (hnone.mpr hdecisive)]
          exact (ih (start + 1) hrest).skip fun _ => hdecisive
      · rw [if_pos (mt hwindow.mp hsignature)]
        exact (ih (start + 1) hrest).skip fun h => absurd h hsignature

theorem scanBytes_result (hlt : bytes.length < 2 ^ 64) (hlong : signature.length ≤ bytes.length) :
    (scanBytes bytes limits).result = .ok (some (bytes.take
      (min (bytes.length - signature.length) limits.sfxScanLimit + signature.length))) := by
  have hstop : min (bytes.length - signature.length) limits.sfxScanLimit + signature.length
      ≤ bytes.length := by omega
  have hrange : (checkedRange bytes 0 (min (bytes.length - signature.length) limits.sfxScanLimit
      + signature.length) "SFX scan range overflows" "truncated SFX scan range").result
      = .ok (bytes.take (min (bytes.length - signature.length) limits.sfxScanLimit
        + signature.length)) :=
    checkedRange_eq_ok.mpr ⟨by omega, by omega, rfl⟩
  rw [scanBytes, checkedSub_of_le hlong]
  show (orFormat _ _ >>= _).result = _
  rw [Metered.result_bind_ok (orFormat_eq_ok.mpr (checkedAdd_of_lt (by omega))),
    Metered.result_bind_ok hrange]
  rfl

theorem scanBytes_short (hshort : bytes.length < signature.length) :
    (scanBytes bytes limits).result = .ok none := by
  have hnone : checkedSub bytes.length signature.length = none := if_neg (by omega)
  rw [scanBytes, hnone]
  rfl

theorem FirstDecisive.unique {offset' : Nat} (h : FirstDecisive bytes limits offset)
    (h' : FirstDecisive bytes limits offset') : offset = offset' :=
  Nat.le_antisymm (h.first _ h'.candidate h'.decisive) (h'.first _ h.candidate h.decisive)

/-- **The completeness probe** asks the first signature that decides. -/
theorem archiveDeclaresMoreBytes_result (hlt : bytes.length < 2 ^ 64)
    (hlimit : bytes.length ≤ limits.maxTotalInputBytes) :
    (∃ offset, FirstDecisive bytes limits offset ∧
      (archiveDeclaresMoreBytes bytes limits).result = outcomeAt bytes limits offset) ∨
    (¬ ∃ offset, FirstDecisive bytes limits offset) ∧
      (archiveDeclaresMoreBytes bytes limits).result = .ok false := by
  have hsix : signature.length = 6 := rfl
  rw [archiveDeclaresMoreBytes, Metered.result_bind_ok (checkLimit_of_le hlimit _)]
  by_cases hstart : signature <+: bytes
  · -- the first bytes are the only candidate
    have honly : ∀ o, Candidate bytes limits o → o = 0 := fun o h => by
      rcases h.2 with rfl | ⟨hnot, -⟩
      · rfl
      · exact absurd hstart hnot
    have hresult : ((candidateDeclaresMoreBytes bytes 0 limits >>= fun declared =>
        pure (declared.getD false) : Work Bool)).result = outcomeAt bytes limits 0 := by
      rw [Metered.result_bind, outcomeAt]
      cases (candidateDeclaresMoreBytes bytes 0 limits).result <;> rfl
    rw [if_pos (List.isPrefixOf_iff_prefix.mpr hstart), hresult]
    by_cases hdecisive : Decisive bytes 0
    · exact Or.inl ⟨0, ⟨⟨hstart, Or.inl rfl⟩, hdecisive, fun o _ _ => Nat.zero_le o⟩, rfl⟩
    · have hfirst : signature <+: bytes.drop 0 := hstart
      refine Or.inr ⟨fun ⟨o, h⟩ => hdecisive (honly o h.candidate ▸ h.decisive), ?_⟩
      rw [outcomeAt, (candidateDeclaresMoreBytes_eq_none hfirst hlt).mpr hdecisive]
      rfl
  · rw [if_neg (mt List.isPrefixOf_iff_prefix.mp hstart)]
    have hwithin : ∀ o, Candidate bytes limits o → o + signature.length
        ≤ min (bytes.length - signature.length) limits.sfxScanLimit + signature.length := by
      intro o h
      have hle := h.1.length_le
      rw [List.length_drop] at hle
      have hscan : o ≤ limits.sfxScanLimit := by
        rcases h.2 with rfl | h
        · exact Nat.zero_le _
        · exact h.2
      omega
    by_cases hlong : signature.length ≤ bytes.length
    · rw [Metered.result_bind_ok (scanBytes_result hlt hlong)]
      have hwalked : Walked bytes limits
          (min (bytes.length - signature.length) limits.sfxScanLimit + signature.length) 0
          (probeCandidates bytes limits 0 (bytes.take (min (bytes.length - signature.length)
            limits.sfxScanLimit + signature.length))).result :=
        probeCandidates_walked hlt (by omega) _ 0 List.drop_zero.symm
      rcases hwalked with ⟨hresult, hnone⟩ |
        ⟨o, -, hstop, hsignature, hdecisive, hfirst, hresult⟩
      · exact Or.inr ⟨fun ⟨o, h⟩ => hnone o (Nat.zero_le o) (hwithin o h.candidate) h.candidate.1
          h.decisive, hresult⟩
      · exact Or.inl ⟨o, ⟨⟨hsignature, Or.inr ⟨hstart, by omega⟩⟩, hdecisive,
          fun o' h hd => hfirst o' (Nat.zero_le _) h.1 hd⟩, hresult⟩
    · rw [Metered.result_bind_ok (scanBytes_short (by omega))]
      refine Or.inr ⟨fun ⟨o, h⟩ => ?_, rfl⟩
      have hle := h.candidate.1.length_le
      rw [List.length_drop] at hle
      omega

/-- The signature at which the probe stops calls for bytes that are not there. -/
def DeclaresMore (bytes : Bytes) (limits : Limits) : Prop :=
  ∃ offset, FirstDecisive bytes limits offset ∧
    (bytes.length < offset + fixedHeaderSize ∧ offset + fixedHeaderSize < 2 ^ 64 ∨
      ∃ raw, StartHeaderAt bytes offset raw ∧ raw.nextSize ≤ limits.maxHeaderBytes ∧
        declaredEnd offset raw < 2 ^ 64 ∧ bytes.length < declaredEnd offset raw)

theorem verdict_eq_true :
    verdict bytes offset limits raw = .ok (some true) ↔ raw.nextSize ≤ limits.maxHeaderBytes ∧
      declaredEnd offset raw < 2 ^ 64 ∧ bytes.length < declaredEnd offset raw := by
  unfold verdict
  by_cases hsize : raw.nextSize > limits.maxHeaderBytes
  · rw [if_pos hsize]
    exact iff_of_false (by simp) fun h => absurd h.1 (by omega)
  · rw [if_neg hsize]
    by_cases hend : declaredEnd offset raw < 2 ^ 64
    · rw [if_pos hend]
      simp only [Except.ok.injEq, Option.some.injEq, decide_eq_true_eq]
      exact ⟨fun h => ⟨by omega, hend, h⟩, fun h => h.2.2⟩
    · rw [if_neg hend]
      exact iff_of_false (by simp) fun h => hend h.2.1

theorem outcomeAt_eq_true (hlt : bytes.length < 2 ^ 64) (hdecisive : Decisive bytes offset) :
    outcomeAt bytes limits offset = .ok true ↔
      bytes.length < offset + fixedHeaderSize ∧ offset + fixedHeaderSize < 2 ^ 64 ∨
        ∃ raw, StartHeaderAt bytes offset raw ∧ raw.nextSize ≤ limits.maxHeaderBytes ∧
          declaredEnd offset raw < 2 ^ 64 ∧ bytes.length < declaredEnd offset raw := by
  rw [outcomeAt]
  by_cases hcut : bytes.length < offset + fixedHeaderSize
  · have hnot : ∀ raw, ¬ StartHeaderAt bytes offset raw := fun raw h => by
      have := length_of_word h.word
      omega
    by_cases hfixed : offset + fixedHeaderSize < 2 ^ 64
    · rw [candidateDeclaresMoreBytes_cut hcut hfixed]
      exact iff_of_true rfl (Or.inl ⟨hcut, hfixed⟩)
    · have hnone : checkedAdd 64 offset fixedHeaderSize = none := if_neg hfixed
      rw [candidateDeclaresMoreBytes, hnone]
      refine iff_of_false (by simp [Except.map]) ?_
      rintro (⟨-, h⟩ | ⟨raw, h, -⟩)
      · exact hfixed h
      · exact hnot raw h
  · obtain ⟨raw, hheader⟩ := hdecisive.resolve_left hcut
    rw [candidateDeclaresMoreBytes_word hheader.fits hheader.word hlt, if_pos hheader.crc]
    have hmap : (verdict bytes offset limits raw).map (·.getD false) = .ok true ↔
        verdict bytes offset limits raw = .ok (some true) := by
      rcases verdict bytes offset limits raw with _ | _ | _ | _ <;> simp [Except.map]
    rw [hmap, verdict_eq_true]
    constructor
    · exact fun h => Or.inr ⟨raw, hheader, h⟩
    · rintro (⟨h, -⟩ | ⟨raw', hheader', h⟩)
      · exact absurd h hcut
      · rwa [word_unique hheader'.fits hheader.fits hheader'.word hheader.word] at h

/-- **The probe asks for more** when its signature does. -/
theorem archiveDeclaresMoreBytes_eq_true (hlt : bytes.length < 2 ^ 64)
    (hlimit : bytes.length ≤ limits.maxTotalInputBytes) :
    (archiveDeclaresMoreBytes bytes limits).result = .ok true ↔ DeclaresMore bytes limits := by
  rcases archiveDeclaresMoreBytes_result hlt hlimit with ⟨offset, hfirst, hresult⟩ | ⟨hnone, hresult⟩
  · rw [hresult, outcomeAt_eq_true hlt hfirst.decisive]
    exact ⟨fun h => ⟨offset, hfirst, h⟩, fun ⟨offset', hfirst', h⟩ => hfirst.unique hfirst' ▸ h⟩
  · rw [hresult]
    exact iff_of_false (by simp) fun ⟨offset, hfirst, _⟩ => hnone ⟨offset, hfirst⟩

/-! ### What the parser accepts -/

/-- A candidate that is accepted has a start header, and all of the header it declares. -/
theorem parseCandidate_eq_ok {envelope : HeaderEnvelope}
    (h : (parseCandidate bytes offset limits).result = .ok envelope)
    (hsignature : signature <+: bytes.drop offset) :
    ∃ raw, StartHeaderAt bytes offset raw ∧ raw.nextSize ≤ limits.maxHeaderBytes ∧
      declaredEnd offset raw < 2 ^ 64 ∧ declaredEnd offset raw ≤ bytes.length := by
  simp only [parseCandidate, Metered.bind_eq_ok, refuse_eq_ok, orFormat_eq_ok,
    checkedAdd_eq_some, result_checksum, Except.ok.injEq] at h
  obtain ⟨_, -, candidateBytes, hrange, raw, hparse, startFields, hfields, _, rfl, hcrc, -, hsize, _,
    ⟨-, rfl⟩, _, ⟨-, rfl⟩, _, hnext, -⟩ := h
  obtain ⟨hlt, hle, -⟩ := checkedRange_eq_ok.mp hrange
  obtain ⟨hend, hend', -⟩ := checkedRange_eq_ok.mp hnext
  obtain ⟨raw', hfits, hword⟩ := exists_word hsignature (by rw [List.length_drop]; omega)
  obtain rfl : raw'.word = candidateBytes :=
    Except.ok.inj ((checkedRange_word hword hlt).symm.trans hrange)
  obtain rfl : raw' = raw := Except.ok.inj ((parseRawSignatureHeader_word hfits).symm.trans hparse)
  obtain rfl : raw'.fields = startFields := Except.ok.inj (checkedRange_fields.symm.trans hfields)
  exact ⟨raw', ⟨hfits, hword, not_not.mp hcrc⟩, Nat.le_of_not_lt hsize, hend, hend'⟩

theorem scanBytes_eq_some {scan : Bytes} (h : (scanBytes bytes limits).result = .ok (some scan)) :
    ∃ stop ≤ bytes.length, stop ≤ limits.sfxScanLimit + signature.length ∧
      scan = bytes.take stop := by
  unfold scanBytes at h
  cases hlast : checkedSub bytes.length signature.length with
  | none =>
      rw [hlast] at h
      exact absurd h (by simp)
  | some lastPossibleOffset =>
      rw [hlast] at h
      simp only [Metered.bind_eq_ok, orFormat_eq_ok, checkedAdd_eq_some, checkedRange_eq_ok,
        Metered.result_pure, Except.ok.injEq, Option.some.injEq] at h
      obtain ⟨stop, ⟨-, rfl⟩, _, ⟨-, hle, rfl⟩, rfl⟩ := h
      exact ⟨_, by omega, by omega, rfl⟩

/-- What the scan comes to is a signature in its range. -/
theorem scanCandidates_eq_ok {parsed : ParsedArchive} {stop : Nat} (hstop : stop ≤ bytes.length)
    (windows : Bytes) : ∀ {start : Nat} {firstError : Option Error},
      windows = (bytes.take stop).drop start →
      (scanCandidates bytes limits start windows firstError).result = .ok parsed →
      ∃ o, o + signature.length ≤ stop ∧ signature <+: bytes.drop o ∧
        (validatedCandidate bytes o limits).result = .ok parsed := by
  induction windows with
  | nil =>
      intro start firstError _ h
      exact absurd h (by simp [scanCandidates])
  | cons byte rest ih =>
      intro start firstError hwindows h
      have hrest := windows_rest hwindows
      unfold scanCandidates at h
      by_cases hshort : (byte :: rest).length < signature.length
      · rw [if_pos hshort] at h
        exact absurd h (by simp)
      rw [if_neg hshort, Metered.result_bind_ok (result_checkpoint 1)] at h
      obtain ⟨hwindow, hwithin⟩ := window_eq_signature hstop hwindows hshort
      by_cases hsignature : signature <+: bytes.drop start
      · rw [if_neg (not_not.mpr (hwindow.mpr hsignature))] at h
        cases hcandidate : (validatedCandidate bytes start limits).result with
        | ok archive =>
            rw [Metered.result_bind_ok (Metered.result_attempt_ok hcandidate)] at h
            obtain rfl := Except.ok.inj h
            exact ⟨start, hwithin, hsignature, hcandidate⟩
        | error error =>
            by_cases hfatal : candidateErrorIsFatal error
            · rw [Metered.result_bind_error
                ((Metered.result_attempt_error hcandidate).trans (if_pos hfatal))] at h
              exact absurd h (by simp)
            · rw [Metered.result_bind_ok
                ((Metered.result_attempt_error hcandidate).trans (if_neg hfatal))] at h
              exact ih hrest h
      · rw [if_pos (mt hwindow.mp hsignature)] at h
        exact ih hrest h

/-- Whatever the scan passes over, an archive that is parsed is a validated candidate. -/
theorem parseArchive_candidate {parsed : ParsedArchive}
    (h : (parseArchive bytes limits).result = .ok parsed) :
    ∃ offset, Candidate bytes limits offset ∧
      (validatedCandidate bytes offset limits).result = .ok parsed := by
  unfold parseArchive at h
  obtain ⟨_, -, h⟩ := Metered.bind_eq_ok.mp h
  by_cases hstart : signature <+: bytes
  · rw [if_pos (List.isPrefixOf_iff_prefix.mpr hstart)] at h
    exact ⟨0, ⟨hstart, Or.inl rfl⟩, h⟩
  · rw [if_neg (mt List.isPrefixOf_iff_prefix.mp hstart)] at h
    obtain ⟨scan, hscan, h⟩ := Metered.bind_eq_ok.mp h
    cases scan with
    | none => exact absurd h (by simp)
    | some scan =>
        obtain ⟨stop, hstop, hlimit, rfl⟩ := scanBytes_eq_some hscan
        obtain ⟨o, hwithin, hsignature, hvalid⟩ := scanCandidates_eq_ok hstop _ List.drop_zero.symm h
        exact ⟨o, ⟨hsignature, Or.inr ⟨hstart, by omega⟩⟩, hvalid⟩

/-- An archive that is parsed has a candidate with all of its header. -/
theorem parseArchive_startHeader {parsed : ParsedArchive}
    (h : (parseArchive bytes limits).result = .ok parsed) :
    ∃ offset raw, Candidate bytes limits offset ∧ StartHeaderAt bytes offset raw ∧
      raw.nextSize ≤ limits.maxHeaderBytes ∧ declaredEnd offset raw < 2 ^ 64 ∧
      declaredEnd offset raw ≤ bytes.length := by
  obtain ⟨offset, hcandidate, hvalid⟩ := parseArchive_candidate h
  obtain ⟨envelope, hparse, -⟩ := Metered.bind_eq_ok.mp hvalid
  obtain ⟨raw, hheader⟩ := parseCandidate_eq_ok hparse hcandidate.1
  exact ⟨offset, raw, hcandidate, hheader⟩

end Parser

end Un7z
