/-
Reading a member through a `MemberReader`.

A reader that has read `n` bytes of its member has position `n`, and its checksum is
that of those bytes (`MemberReader.Reached`).  Every read keeps that, so reading to the
end yields the member, and `finish` compares the checksum of all of it.
-/
import Un7z.Extract
import Un7z.Delivery

namespace Un7z

namespace Archive

namespace MemberReader

/-- The bytes of the member. -/
def member (reader : MemberReader) : Bytes :=
  (reader.data.drop reader.start).take (reader.stop - reader.start)

/-- The range of the member lies inside the folder output. -/
structure Ranged (reader : MemberReader) : Prop where
  start_le : reader.start ≤ reader.stop
  stop_le : reader.stop ≤ reader.data.length
  size_lt : reader.data.length < 2 ^ 64

/-- The reader, further on. -/
def seek (reader : MemberReader) (position : Nat) (checksum : Crc32) : MemberReader :=
  { reader with position, checksum }

/-- The reader has read `count` bytes of the member of `base`. -/
def Reached (base : MemberReader) (count : Nat) (reader : MemberReader) : Prop :=
  count ≤ base.member.length ∧ ∃ checksum,
    Crc32.new.update (base.member.take count) = .ok checksum ∧ reader = base.seek count checksum

variable {base reader : MemberReader} {count : Nat}

theorem Ranged.length_member (h : base.Ranged) : base.member.length = base.stop - base.start := by
  have hstart := h.start_le
  have hstop := h.stop_le
  simp only [member, List.length_take, List.length_drop]
  omega

theorem updateChecksum_result {chunk : Bytes} {checksum : Crc32}
    (h : reader.checksum.update chunk = .ok checksum) :
    (updateChecksum chunk).result reader = (.ok (), reader.seek reader.position checksum) := by
  rw [updateChecksum, Session.result_act, h]
  rfl

/-- The chunk loop folds all of the chunks into the checksum. -/
theorem chargeChunks_result (pieces : List Bytes) :
    ∀ {reader : MemberReader} {checksum : Crc32},
      reader.checksum.update pieces.flatten = .ok checksum →
      (chargeChunks pieces).result reader = (.ok (), reader.seek reader.position checksum) := by
  induction pieces with
  | nil =>
      intro reader checksum h
      obtain rfl := Except.ok.inj h
      rfl
  | cons piece rest ih =>
      intro reader checksum h
      obtain ⟨next, hnext⟩ := Crc32.update_ok piece reader.checksum
      have hrest : next.update rest.flatten = .ok checksum := by
        rwa [List.flatten_cons, Crc32.update_append, hnext] at h
      rw [chargeChunks, Session.result_lift_bind (result_checkpoint piece.length),
        Session.result_bind_ok (updateChecksum_result hnext)]
      exact ih hrest

theorem advance_result (h : reader.position + count < 2 ^ 64) :
    (advance count).result reader
      = (.ok (), reader.seek (reader.position + count) reader.checksum) := by
  rw [advance, Session.result_act, checkedAdd_of_lt h]
  rfl

theorem get_result (reader : MemberReader) : get.result reader = (.ok reader, reader) :=
  Session.result_act _ _

theorem size_result (h : base.Ranged) : base.size.result = .ok (base.stop - base.start) :=
  orFormat_eq_ok.mpr (checkedSub_of_le h.start_le)

/-- The source of a read is what comes next of the member, as much as fits into the buffer. -/
theorem sourceBytes_result {bufferLength : Nat} {checksum : Crc32} (h : base.Ranged)
    (hcount : count ≤ base.member.length) :
    ((base.seek count checksum).sourceBytes bufferLength).result
      = .ok ((base.member.drop count).take bufferLength) := by
  have hlength := h.length_member
  have hstart := h.start_le
  have hstop := h.stop_le
  have hlt := h.size_lt
  have hposition : checkedAdd 64 (base.seek count checksum).start
      (base.seek count checksum).position = some (base.start + count) :=
    checkedAdd_of_lt (show base.start + count < 2 ^ 64 by omega)
  rw [sourceBytes, Metered.result_bind_ok (orFormat_eq_ok.mpr hposition)]
  have hunread : (base.seek count checksum).unread = base.stop - base.start - count := rfl
  rw [hunread, checkedRange_eq_ok]
  refine ⟨by omega, show _ ≤ base.data.length by omega, ?_⟩
  show _ = (base.data.drop (base.start + count)).take _
  rw [member, List.drop_take, List.drop_drop, List.take_take, Nat.min_comm]

theorem length_take_drop_le (h : base.Ranged) (bufferLength : Nat)
    (hcount : count ≤ base.member.length) :
    count + ((base.member.drop count).take bufferLength).length ≤ base.member.length ∧
      base.member.length < 2 ^ 64 := by
  have hlength := h.length_member
  have := h.stop_le
  have := h.size_lt
  rw [List.length_take, List.length_drop]
  omega

/-- One read, whatever the checksum is by now. -/
theorem readChunk_seek (h : base.Ranged) (hcount : count ≤ base.member.length)
    (checksum : Crc32) (bufferLength : Nat) :
    ∃ next, checksum.update ((base.member.drop count).take bufferLength) = .ok next ∧
      (readChunk bufferLength).result (base.seek count checksum)
        = (.ok ((base.member.drop count).take bufferLength),
            base.seek (count + ((base.member.drop count).take bufferLength).length) next) := by
  obtain ⟨hsum, hlt⟩ := length_take_drop_le h bufferLength hcount
  have hlength := h.length_member
  have hsize : (base.seek count checksum).size.result = .ok (base.stop - base.start) :=
    orFormat_eq_ok.mpr (checkedSub_of_le h.start_le)
  have hsource := @sourceBytes_result base count bufferLength checksum h hcount
  rw [readChunk, Session.result_bind_ok (get_result _), Session.result_lift_bind hsize]
  by_cases hdone : bufferLength = 0 ∨ (base.seek count checksum).position ≥ base.stop - base.start
  · have hnone : (base.member.drop count).take bufferLength = [] := by
      rw [List.take_eq_nil_iff, List.drop_eq_nil_iff, hlength]
      exact hdone
    rw [if_pos hdone, hnone]
    exact ⟨checksum, rfl, rfl⟩
  · rw [if_neg hdone, Session.result_lift_bind hsource]
    generalize (base.member.drop count).take bufferLength = source at *
    obtain ⟨next, hnext⟩ := Crc32.update_ok source checksum
    have hcharge : (chargeChunks (chunks controlChunkSize source)).result
        (base.seek count checksum) = (.ok (), base.seek count next) :=
      chargeChunks_result _ (by rw [chunks_controlChunkSize]; exact hnext)
    have hadvance := @advance_result (base.seek count next) source.length
      (show count + source.length < 2 ^ 64 by omega)
    rw [Session.result_bind_ok hcharge, Session.result_bind_ok hadvance]
    exact ⟨next, hnext, rfl⟩

/-- **One read** yields the next bytes of the member, as many as fit into the buffer. -/
theorem readChunk_result (h : base.Ranged) (hreached : base.Reached count reader)
    (bufferLength : Nat) :
    ∃ next, (readChunk bufferLength).result reader
        = (.ok ((base.member.drop count).take bufferLength), next) ∧
      base.Reached (count + ((base.member.drop count).take bufferLength).length) next := by
  obtain ⟨hcount, checksum, hchecksum, rfl⟩ := hreached
  obtain ⟨next, hnext, hread⟩ := readChunk_seek h hcount checksum bufferLength
  refine ⟨_, hread, (length_take_drop_le h bufferLength hcount).1, next, ?_, rfl⟩
  have htake : (base.member.drop count).take ((base.member.drop count).take bufferLength).length
      = (base.member.drop count).take bufferLength := by
    rw [List.length_take, ← List.take_take, List.take_length]
  rw [List.take_add, Crc32.update_append, hchecksum, htake]
  exact hnext

theorem take_append_drop_take (bytes : Bytes) (count : Nat) :
    bytes.take count ++ bytes.drop (bytes.take count).length = bytes := by
  by_cases h : count ≤ bytes.length
  · rw [List.length_take_of_le h, List.take_append_drop]
  · rw [List.take_of_length_le (by omega), List.drop_length, List.append_nil]

/-- **Reading to the end** yields the rest of the member. -/
theorem readAll_result {bufferLength : Nat} (hbuffer : 0 < bufferLength) (h : base.Ranged)
    (fuel : Nat) : ∀ {count : Nat} {reader : MemberReader}, base.Reached count reader →
      base.member.length - count ≤ fuel →
      ∃ last, (readAll bufferLength fuel).result reader = (.ok (base.member.drop count), last) ∧
        base.Reached base.member.length last := by
  induction fuel with
  | zero =>
      intro count reader hreached hfuel
      obtain ⟨next, hread, hnext⟩ := readChunk_result h hreached bufferLength
      obtain rfl : count = base.member.length := by
        have := hreached.1
        omega
      rw [readAll, Session.result_bind_ok hread]
      simp only [List.drop_length, List.take_nil, List.length_nil, Nat.add_zero] at hnext ⊢
      exact ⟨next, rfl, hnext⟩
  | succ fuel ih =>
      intro count reader hreached hfuel
      obtain ⟨next, hread, hnext⟩ := readChunk_result h hreached bufferLength
      rw [readAll, Session.result_bind_ok hread]
      generalize hbytes : (base.member.drop count).take bufferLength = bytes at hnext
      cases bytes with
      | nil =>
          -- an empty read is the end of the member
          have hend : base.member.drop count = [] := by
            simpa [Nat.ne_of_gt hbuffer] using hbytes
          have hcount : count = base.member.length :=
            Nat.le_antisymm hreached.1 (List.drop_eq_nil_iff.mp hend)
          rw [hend]
          exact ⟨next, rfl, hcount ▸ hnext⟩
      | cons byte rest =>
          obtain ⟨last, hrest, hlast⟩ := ih hnext (by
            rw [List.length_cons]
            omega)
          refine ⟨last, ?_, hlast⟩
          show Session.result (readAll bufferLength fuel >>= _) next = _
          rw [Session.result_bind_ok hrest, Session.result_pure, ← hbytes, ← List.drop_drop,
            take_append_drop_take]

/-- The reader of a member, before anything is read. -/
theorem reached_new (data : Bytes) (start stop : Nat) (expectedCrc : Option UInt32)
    (mismatch encrypted : Bool) (memberIndex : Nat) :
    (new data start stop expectedCrc mismatch encrypted memberIndex).Reached 0
      (new data start stop expectedCrc mismatch encrypted memberIndex) :=
  ⟨Nat.zero_le _, .new, rfl, rfl⟩

/-- The member and its folder match their digests, as far as they have any. -/
def Matches (reader : MemberReader) : Prop :=
  (∀ crc, reader.expectedCrc = some crc → crc32 reader.member = crc) ∧
    reader.folderCrcMismatch = false

/-- With the checksum of the whole member, the digests are found as they are. -/
theorem checkDigests_eq_ok {checksum : Crc32}
    (hchecksum : Crc32.new.update base.member = .ok checksum) :
    (base.seek base.member.length checksum).checkDigests.result = .ok () ↔ base.Matches := by
  have hfinal : checksum.finalize = crc32 base.member := by
    rw [crc32, Crc32.checksum, hchecksum]
    rfl
  have hexpected : ¬ (base.seek base.member.length checksum).expectedCrc.any
      (checksum.finalize ≠ ·) ↔ ∀ crc, base.expectedCrc = some crc → crc32 base.member = crc := by
    rw [hfinal]
    show ¬ base.expectedCrc.any _ ↔ _
    cases base.expectedCrc <;> simp
  have hfolder : ¬ (base.seek base.member.length checksum).folderCrcMismatch = true ↔
      base.folderCrcMismatch = false := by
    rw [Bool.not_eq_true]
    exact Iff.rfl
  rw [Matches, ← hexpected, ← hfolder, checkDigests, refuse_eq_ok, refuse_eq_ok]
  exact and_congr_right fun _ => and_iff_left rfl

/-- A reader that has read what it says it has compares the digests of the whole member. -/
theorem finish_checks (h : base.Ranged) (hreached : base.Reached count reader) :
    ∃ outcome last, finish.result reader = (outcome, last) ∧ (outcome = .ok () ↔ base.Matches) := by
  have hfuel : base.member.length - count ≤ reader.unread := by
    obtain ⟨-, _, -, rfl⟩ := hreached
    rw [h.length_member]
    exact Nat.le_refl _
  obtain ⟨last, hread, hlast⟩ := readAll_result (by decide : 0 < 8192) h _ hreached hfuel
  obtain ⟨-, checksum, hchecksum, rfl⟩ := hlast
  rw [List.take_length] at hchecksum
  refine ⟨_, base.seek base.member.length checksum, ?_, checkDigests_eq_ok hchecksum⟩
  rw [finish, Session.result_bind_ok (get_result _), Session.result_bind_ok hread,
    Session.result_bind_ok (get_result _)]
  exact Session.result_lift _ _

/-- A member that matches its digests is finished, whatever was read of it before. -/
theorem finish_result (h : base.Ranged) (hreached : base.Reached count reader)
    (hcrc : ∀ crc, base.expectedCrc = some crc → crc32 base.member = crc)
    (hfolder : base.folderCrcMismatch = false) :
    ∃ last, finish.result reader = (.ok (), last) := by
  obtain ⟨outcome, last, hfinish, hiff⟩ := finish_checks h hreached
  rw [hiff.mpr ⟨hcrc, hfolder⟩] at hfinish
  exact ⟨last, hfinish⟩

end MemberReader

/-- **Reading a member**: all of its bytes, once they match their digests. -/
theorem readMember_result {reader : MemberReader} (h : reader.Ranged)
    (hreached : reader.Reached 0 reader)
    (hcrc : ∀ crc, reader.expectedCrc = some crc → crc32 reader.member = crc)
    (hfolder : reader.folderCrcMismatch = false) :
    (readMember.discard reader).result = .ok reader.member := by
  have hfuel : reader.member.length - 0 ≤ reader.unread := by
    obtain ⟨-, _, -, hreader⟩ := hreached
    rw [h.length_member, hreader]
    exact Nat.le_refl _
  obtain ⟨last, hread, hlast⟩ :=
    MemberReader.readAll_result (by decide : 0 < 8192) h _ hreached hfuel
  obtain ⟨after, hfinish⟩ := MemberReader.finish_result h hlast hcrc hfolder
  rw [Session.result_discard, readMember, Session.result_bind_ok (MemberReader.get_result _),
    Session.result_bind_ok hread, Session.result_bind_ok hfinish]
  rfl

end Archive

end Un7z
