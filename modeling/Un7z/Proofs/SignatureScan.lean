/-
What the signature scan selects.

`FullyValid` says what it takes for a candidate to be an archive, check by check, and
`Selected` what `parse_archive` is to return: the first candidate that is fully valid,
and without one the error of the first candidate, or that there is none.  The scan keeps
the first error it has met, and `Rejected` is its invariant: every candidate behind it is
invalid, and the error kept is the one of the first of them.  That it is never stopped on
its way is `skips_validatedCandidate`.
-/
import Un7z.Proofs.CandidateErrors
import Un7z.Proofs.CompletenessProbe

namespace Un7z

namespace Parser

open RawSignatureHeader

variable {bytes : Bytes} {limits : Limits} {offset : Nat}

/-! ### Valid candidates -/

/-- The stored header that a fixed header declares. -/
def declaredHeader (bytes : Bytes) (offset : Nat) (raw : RawSignatureHeader) : Bytes :=
  (bytes.drop (offset + fixedHeaderSize + raw.nextOffset)).take raw.nextSize

/-- What the envelope of a candidate records. -/
def envelopeOf (offset : Nat) (raw : RawSignatureHeader) (kind : NextHeaderKind) :
    HeaderEnvelope :=
  ⟨offset, ⟨raw.major, raw.minor⟩, offset + fixedHeaderSize + raw.nextOffset, raw.nextSize,
    raw.nextCrc, kind⟩

/-- A candidate that passes every check up to its header, and the fixed header it has. -/
structure Sound (bytes : Bytes) (limits : Limits) (offset : Nat) (raw : RawSignatureHeader)
    (kind : NextHeaderKind) : Prop where
  /-- The start header is there and matches its CRC. -/
  header : StartHeaderAt bytes offset raw
  major : raw.major = 0
  /-- The header is within its limit, and within the bytes. -/
  limit : raw.nextSize ≤ limits.maxHeaderBytes
  bounds : declaredEnd offset raw < 2 ^ 64 ∧ declaredEnd offset raw ≤ bytes.length
  /-- The header matches its CRC and is of a known kind. -/
  crc : crc32 (declaredHeader bytes offset raw) = raw.nextCrc
  kind : (nextHeaderKind (declaredHeader bytes offset raw)).result = .ok kind

/-- A candidate whose header also parses and validates. -/
structure FullyValid (bytes : Bytes) (limits : Limits) (offset : Nat) (parsed : ParsedArchive) :
    Prop where
  sound : ∃ raw kind, Sound bytes limits offset raw kind ∧
    parsed.envelope = envelopeOf offset raw kind ∧
    ∃ next state, (Raw.parseNextHeader (declaredHeader bytes offset raw) {} limits).result
        = .ok (next, state) ∧
      (Validate.validateNextHeader next parsed.envelope bytes limits).result = .ok parsed.nextHeader

theorem parseCandidate_eq_ok_iff (hlt : bytes.length < 2 ^ 64)
    (hsignature : signature <+: bytes.drop offset) {envelope : HeaderEnvelope} :
    (parseCandidate bytes offset limits).result = .ok envelope ↔
      ∃ raw kind, Sound bytes limits offset raw kind ∧ envelope = envelopeOf offset raw kind := by
  constructor
  · intro h
    obtain ⟨raw, hheader, hlimit, hend, hend'⟩ := parseCandidate_eq_ok h hsignature
    have hle := length_of_word hheader.word
    simp only [parseCandidate, Metered.bind_eq_ok, refuse_eq_ok, orFormat_eq_ok,
      checkedAdd_eq_some, result_checksum, Except.ok.injEq] at h
    obtain ⟨_, -, candidateBytes, hrange, raw', hparse, startFields, -, _, rfl, -, hmajor, -, _,
      ⟨-, rfl⟩, _, ⟨-, rfl⟩, nextHeader, hnext, _, rfl, hcrc, kind, hkind, h⟩ := h
    obtain rfl : raw.word = candidateBytes :=
      Except.ok.inj ((checkedRange_word hheader.word (by omega)).symm.trans hrange)
    obtain rfl : raw = raw' :=
      Except.ok.inj ((parseRawSignatureHeader_word hheader.fits).symm.trans hparse)
    obtain ⟨-, -, rfl⟩ := checkedRange_eq_ok.mp hnext
    exact ⟨raw, kind, ⟨hheader, not_not.mp hmajor, hlimit, ⟨hend, hend'⟩, not_not.mp hcrc, hkind⟩,
      (Except.ok.inj h).symm⟩
  · rintro ⟨raw, kind, h, rfl⟩
    obtain ⟨hend, hend'⟩ := h.bounds
    have hle := length_of_word h.header.word
    rw [declaredEnd] at hend hend'
    have hnext : ∀ o t, (checkedRange bytes (offset + fixedHeaderSize + raw.nextOffset)
        raw.nextSize o t).result = .ok (declaredHeader bytes offset raw) := fun o t =>
      checkedRange_eq_ok.mpr ⟨hend, hend', rfl⟩
    rw [parseCandidate, Metered.result_bind_ok (result_checkpoint _),
      Metered.result_bind_ok (checkedRange_word h.header.word (by omega)),
      Metered.result_bind_ok (parseRawSignatureHeader_word h.header.fits),
      Metered.result_bind_ok checkedRange_fields, Metered.result_bind_ok (result_checksum _),
      if_neg (not_not.mpr h.header.crc), if_neg (not_not.mpr h.major), if_neg (Nat.not_lt.mpr h.limit),
      Metered.result_bind_ok (orFormat_eq_ok.mpr (checkedAdd_of_lt (by omega))),
      Metered.result_bind_ok (orFormat_eq_ok.mpr (checkedAdd_of_lt (by omega))),
      Metered.result_bind_ok (hnext _ _), Metered.result_bind_ok (result_checksum _),
      if_neg (not_not.mpr h.crc), Metered.result_bind_ok h.kind]
    rfl

/-- A candidate is accepted exactly when it is fully valid. -/
theorem validatedCandidate_eq_ok_iff (hlt : bytes.length < 2 ^ 64)
    (hsignature : signature <+: bytes.drop offset) {parsed : ParsedArchive} :
    (validatedCandidate bytes offset limits).result = .ok parsed ↔
      FullyValid bytes limits offset parsed := by
  simp only [validatedCandidate, Metered.bind_eq_ok, parseCandidate_eq_ok_iff hlt hsignature,
    checkedRange_eq_ok]
  constructor
  · rintro ⟨_, ⟨raw, kind, hsound, rfl⟩, _, ⟨-, -, rfl⟩, next, hparse, validated, hvalid, h⟩
    obtain rfl := Except.ok.inj h
    exact ⟨raw, kind, hsound, rfl, next.1, next.2, hparse, hvalid⟩
  · rintro ⟨raw, kind, hsound, henvelope, next, state, hparse, hvalid⟩
    rw [henvelope] at hvalid
    refine ⟨_, ⟨raw, kind, hsound, rfl⟩, _, ⟨hsound.bounds.1, hsound.bounds.2, rfl⟩, (next, state),
      hparse, parsed.nextHeader, hvalid, ?_⟩
    rw [← henvelope]
    rfl

/-! ### The selection -/

/-- What `parse_archive` is to return. -/
inductive Selected (bytes : Bytes) (limits : Limits) : Except Error ParsedArchive → Prop
  /-- The first candidate that is fully valid. -/
  | valid {offset : Nat} {parsed : ParsedArchive} (hcandidate : Candidate bytes limits offset)
      (hvalid : FullyValid bytes limits offset parsed)
      (hfirst : ∀ o < offset, Candidate bytes limits o → ∀ p, ¬ FullyValid bytes limits o p) :
      Selected bytes limits (.ok parsed)
  /-- None is valid: what is wrong with the first candidate. -/
  | invalid {offset : Nat} {error : Error} (hcandidate : Candidate bytes limits offset)
      (hfirst : ∀ o < offset, ¬ Candidate bytes limits o)
      (hnone : ∀ o, Candidate bytes limits o → ∀ p, ¬ FullyValid bytes limits o p)
      (herror : (validatedCandidate bytes offset limits).result = .error error) :
      Selected bytes limits (.error error)
  /-- There is no candidate. -/
  | missing (hnone : ∀ o, ¬ Candidate bytes limits o) :
      Selected bytes limits (.error (formatError "7z signature was not found"))

/-- The candidates behind `start` are invalid, and this is what is wrong with the first. -/
structure Rejected (bytes : Bytes) (limits : Limits) (start : Nat) (firstError : Option Error) :
    Prop where
  invalid : ∀ o < start, Candidate bytes limits o → ∀ p, ¬ FullyValid bytes limits o p
  none : firstError = none → ∀ o < start, ¬ Candidate bytes limits o
  some : ∀ error, firstError = some error → ∃ offset, Candidate bytes limits offset ∧
    (∀ o < offset, ¬ Candidate bytes limits o) ∧
    (validatedCandidate bytes offset limits).result = .error error

theorem Rejected.start : Rejected bytes limits 0 Option.none :=
  ⟨fun _ h => absurd h (Nat.not_lt_zero _), fun _ _ h => absurd h (Nat.not_lt_zero _),
    fun _ h => absurd h (by simp)⟩

variable {start : Nat} {firstError : Option Error}

/-- No candidate at `start`. -/
theorem Rejected.skip (h : Rejected bytes limits start firstError)
    (hskip : ¬ Candidate bytes limits start) : Rejected bytes limits (start + 1) firstError := by
  refine ⟨fun o ho hcandidate => ?_, fun hnone o ho hcandidate => ?_, h.some⟩
  · rcases Nat.lt_succ_iff_lt_or_eq.mp ho with ho | rfl
    · exact h.invalid o ho hcandidate
    · exact absurd hcandidate hskip
  · rcases Nat.lt_succ_iff_lt_or_eq.mp ho with ho | rfl
    · exact h.none hnone o ho hcandidate
    · exact hskip hcandidate

/-- A candidate at `start` that is not valid; what is wrong with it counts if it is the first. -/
theorem Rejected.reject {error : Error} (h : Rejected bytes limits start firstError)
    (hcandidate : Candidate bytes limits start)
    (hinvalid : ∀ p, ¬ FullyValid bytes limits start p)
    (herror : (validatedCandidate bytes start limits).result = .error error) :
    Rejected bytes limits (start + 1) (firstError.or (Option.some error)) := by
  refine ⟨fun o ho hcandidate => ?_, fun hnone => ?_, fun e he => ?_⟩
  · rcases Nat.lt_succ_iff_lt_or_eq.mp ho with ho | rfl
    · exact h.invalid o ho hcandidate
    · exact hinvalid
  · cases firstError <;> simp at hnone
  · cases firstError with
    | none =>
        obtain rfl : error = e := by simpa using he
        exact ⟨start, hcandidate, h.none rfl, herror⟩
    | some first => exact h.some e (by simpa using he)

/-- All candidates are behind. -/
theorem Rejected.selected (h : Rejected bytes limits start firstError)
    (hall : ∀ o, Candidate bytes limits o → o < start) :
    Selected bytes limits (.error (firstError.getD (formatError "7z signature was not found"))) := by
  cases firstError with
  | none => exact .missing fun o ho => h.none rfl o (hall o ho) ho
  | some error =>
      obtain ⟨offset, hcandidate, hfirst, herror⟩ := h.some error rfl
      exact .invalid hcandidate hfirst (fun o ho => h.invalid o (hall o ho) ho) herror

/-- The window loop, from a state in which every candidate behind it has been rejected. -/
theorem scanCandidates_selected {stop : Nat} (hlt : bytes.length < 2 ^ 64)
    (hstop : stop ≤ bytes.length)
    (hwithin : ∀ o, Candidate bytes limits o ↔
      signature <+: bytes.drop o ∧ o + signature.length ≤ stop) (windows : Bytes) :
    ∀ {start : Nat} {firstError : Option Error}, windows = (bytes.take stop).drop start →
      Rejected bytes limits start firstError →
      Selected bytes limits (scanCandidates bytes limits start windows firstError).result := by
  have hdone : ∀ {windows : Bytes} {start : Nat}, windows = (bytes.take stop).drop start →
      windows.length < signature.length → ∀ o, Candidate bytes limits o → o < start := by
    intro windows start hwindows hshort o ho
    have hle := ((hwithin o).mp ho).2
    rw [hwindows, List.length_drop, List.length_take, Nat.min_eq_left hstop] at hshort
    omega
  induction windows with
  | nil => exact fun hwindows h => h.selected (hdone hwindows (by decide))
  | cons byte rest ih =>
      intro start firstError hwindows h
      have hrest := windows_rest hwindows
      unfold scanCandidates
      by_cases hshort : (byte :: rest).length < signature.length
      · rw [if_pos hshort]
        exact h.selected (hdone hwindows hshort)
      rw [if_neg hshort, Metered.result_bind_ok (result_checkpoint 1)]
      obtain ⟨hwindow, hfits⟩ := window_eq_signature hstop hwindows hshort
      by_cases hsignature : signature <+: bytes.drop start
      · have hcandidate : Candidate bytes limits start := (hwithin start).mpr ⟨hsignature, hfits⟩
        have hvalid : ∀ {p}, (validatedCandidate bytes start limits).result = .ok p ↔
            FullyValid bytes limits start p := validatedCandidate_eq_ok_iff hlt hsignature
        rw [if_neg (not_not.mpr (hwindow.mpr hsignature))]
        cases hresult : (validatedCandidate bytes start limits).result with
        | ok parsed =>
            rw [Metered.result_bind_ok (Metered.result_attempt_ok hresult)]
            exact .valid hcandidate (hvalid.mp hresult) h.invalid
        | error error =>
            have hskip : candidateErrorIsFatal error = false :=
              skips_validatedCandidate bytes start limits error hresult
            rw [Metered.result_bind_ok ((Metered.result_attempt_error hresult).trans
              (if_neg (by simp [hskip])))]
            refine ih hrest (h.reject hcandidate (fun p hp => ?_) hresult)
            rw [hvalid.mpr hp] at hresult
            exact absurd hresult (by simp)
      · rw [if_pos (mt hwindow.mp hsignature)]
        exact ih hrest (h.skip fun hc => hsignature hc.1)

theorem FullyValid.unique {parsed parsed' : ParsedArchive} (hlt : bytes.length < 2 ^ 64)
    (hsignature : signature <+: bytes.drop offset) (h : FullyValid bytes limits offset parsed)
    (h' : FullyValid bytes limits offset parsed') : parsed = parsed' := by
  have hresult := (validatedCandidate_eq_ok_iff hlt hsignature).mpr h
  rw [(validatedCandidate_eq_ok_iff hlt hsignature).mpr h'] at hresult
  exact (Except.ok.inj hresult).symm

/-- There is one selection. -/
theorem Selected.unique {r r' : Except Error ParsedArchive} (hlt : bytes.length < 2 ^ 64)
    (h : Selected bytes limits r) (h' : Selected bytes limits r') : r = r' := by
  cases h with
  | @valid o p hcandidate hvalid hfirst =>
      cases h' with
      | @valid o' p' hcandidate' hvalid' hfirst' =>
          obtain rfl : o = o' := by
            rcases Nat.lt_trichotomy o o' with hlt | rfl | hlt
            · exact absurd hvalid (hfirst' o hlt hcandidate p)
            · rfl
            · exact absurd hvalid' (hfirst o' hlt hcandidate' p')
          rw [hvalid.unique hlt hcandidate.1 hvalid']
      | invalid _ _ hnone' => exact absurd hvalid (hnone' o hcandidate p)
      | missing hnone' => exact absurd hcandidate (hnone' o)
  | @invalid o e hcandidate hfirst hnone herror =>
      cases h' with
      | valid hcandidate' hvalid' => exact absurd hvalid' (hnone _ hcandidate' _)
      | @invalid o' e' hcandidate' hfirst' _ herror' =>
          obtain rfl : o = o' := by
            rcases Nat.lt_trichotomy o o' with hlt | rfl | hlt
            · exact absurd hcandidate (hfirst' o hlt)
            · rfl
            · exact absurd hcandidate' (hfirst o' hlt)
          exact herror.symm.trans herror'
      | missing hnone' => exact absurd hcandidate (hnone' o)
  | missing hnone =>
      cases h' with
      | valid hcandidate' => exact absurd hcandidate' (hnone _)
      | invalid hcandidate' => exact absurd hcandidate' (hnone _)
      | missing => rfl

/-- What `parse_archive` returns is the selection. -/
theorem parseArchive_selects (hlt : bytes.length < 2 ^ 64)
    (hlimit : bytes.length ≤ limits.maxTotalInputBytes) :
    Selected bytes limits (parseArchive bytes limits).result := by
  have hsix : signature.length = 6 := rfl
  rw [parseArchive, Metered.result_bind_ok (checkLimit_of_le hlimit _)]
  by_cases hstart : signature <+: bytes
  · -- the first bytes are the only candidate
    rw [if_pos (List.isPrefixOf_iff_prefix.mpr hstart)]
    have hsignature : signature <+: bytes.drop 0 := hstart
    have hfirst : Candidate bytes limits 0 := ⟨hsignature, Or.inl rfl⟩
    have honly : ∀ o, Candidate bytes limits o → o = 0 := fun o h =>
      h.2.resolve_right fun h => h.1 hstart
    have hvalid : ∀ {p}, (validatedCandidate bytes 0 limits).result = .ok p ↔
        FullyValid bytes limits 0 p := validatedCandidate_eq_ok_iff hlt hsignature
    cases hresult : (validatedCandidate bytes 0 limits).result with
    | ok parsed => exact .valid hfirst (hvalid.mp hresult) fun o ho => absurd ho (Nat.not_lt_zero o)
    | error error =>
        refine .invalid hfirst (fun o ho => absurd ho (Nat.not_lt_zero o)) (fun o ho p hp => ?_)
          hresult
        rw [honly o ho] at hp
        rw [hvalid.mpr hp] at hresult
        exact absurd hresult (by simp)
  · rw [if_neg (mt List.isPrefixOf_iff_prefix.mp hstart)]
    by_cases hlong : signature.length ≤ bytes.length
    · rw [Metered.result_bind_ok (scanBytes_result hlt hlong)]
      refine scanCandidates_selected hlt (by omega) (fun o => ?_) _ List.drop_zero.symm .start
      constructor
      · rintro ⟨hsignature, hwithin⟩
        have hle := hsignature.length_le
        rw [List.length_drop] at hle
        refine ⟨hsignature, ?_⟩
        rcases hwithin with rfl | ⟨-, hscan⟩ <;> omega
      · rintro ⟨hsignature, hstop⟩
        exact ⟨hsignature, Or.inr ⟨hstart, by omega⟩⟩
    · rw [Metered.result_bind_ok (scanBytes_short (by omega))]
      refine .missing fun o h => ?_
      have hle := h.1.length_le
      rw [List.length_drop] at hle
      omega

/-- **The scan selects the first valid archive**, whatever the candidates before it are. -/
theorem parseArchive_selected (hlt : bytes.length < 2 ^ 64)
    (hlimit : bytes.length ≤ limits.maxTotalInputBytes) (result : Except Error ParsedArchive) :
    (parseArchive bytes limits).result = result ↔ Selected bytes limits result :=
  ⟨fun h => h ▸ parseArchive_selects hlt hlimit, (parseArchive_selects hlt hlimit).unique hlt⟩

/-- A signature that the end of the input cuts off is the only candidate here. -/
theorem parseArchive_selected_cut :
    Selected (0 :: signature) {} (.error (formatError "truncated fixed 7z header")) :=
  (parseArchive_selected (by decide) (by decide) _).mp (by decide +kernel)

end Parser

end Un7z
