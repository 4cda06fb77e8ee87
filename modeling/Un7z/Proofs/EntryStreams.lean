/-
Entries and substreams are matched one to one.

Three bit vectors are read from the properties of a files record, in whatever order these
stand.  The file loop takes them apart with two cursors: one moves at every entry whose
empty-stream bit is set, through the other two vectors; the other one moves at every entry
whose bit is clear, through the substreams.  `Sorted` says where both stand in the middle
of the loop, by what is left in front of them.
-/
import Un7z.Proofs.OpenedArchive
import Un7z.Proofs.HeaderWords

namespace Un7z

open Grammar (bitAt)

/-! ### Bit vectors -/

namespace Raw

theorem readU8_eq_ok {reader next : BoundedReader} {byte : UInt8}
    (h : (readU8 reader).result = .ok (byte, next)) :
    reader.remaining = byte :: next.remaining := by
  have hread : (Un7z.readU8 reader).result = .ok (byte, next) := h
  obtain ⟨bytes, r₁, hbytes, hhead⟩ := Cursor.bind_eq_ok.mp hread
  obtain ⟨-, hle, rfl, hsame, hposition⟩ := readBytes_eq_ok.mp hbytes
  have hlength := reader.length_remaining
  cases hrest : reader.remaining with
  | nil =>
      rw [hrest, List.length_nil] at hlength
      omega
  | cons first rest =>
      rw [hrest] at hhead
      obtain ⟨rfl, rfl⟩ := Cursor.pure_eq_ok.mp hhead
      have htail : r₁.remaining = rest := by
        show r₁.bytes.drop r₁.position = rest
        rw [hsame, hposition, ← List.drop_drop]
        show reader.remaining.drop 1 = rest
        rw [hrest]
        rfl
      rw [htail]

/-- What the bit loop has read, inside `byte` with `j` bits of it read. -/
theorem parseBitsFrom_eq_ok (count : Nat) :
    ∀ {byte : UInt8} {j : Nat} {reader next : BoundedReader} {values : List Bool}, j ≤ 8 →
      (parseBitsFrom count byte (UInt8.ofNat (0x80 >>> j)) reader).result = .ok (values, next) →
      ∃ word, reader.remaining = word ++ next.remaining ∧ values.length = count ∧
        word.length + 1 = max 1 ((j + count + 7) / 8) ∧
        ∀ i (h : i < values.length), bitAt (byte :: word) (j + i) = values[i] := by
  induction count with
  | zero =>
      intro byte j reader next values hj h
      obtain ⟨rfl, rfl⟩ := Cursor.pure_eq_ok.mp h
      exact ⟨[], rfl, rfl, by simp only [List.length_nil]; omega, fun i hi => absurd hi (by simp)⟩
  | succ count ih =>
      -- inside a byte, or at the start of the next one
      have hbit : ∀ {byte : UInt8} {j : Nat} {reader next : BoundedReader} {values : List Bool},
          j < 8 → (parseBitsFrom count byte (UInt8.ofNat (0x80 >>> (j + 1))) reader).result
            = .ok (values, next) →
          ∃ word, reader.remaining = word ++ next.remaining ∧ values.length = count ∧
            word.length + 1 = max 1 ((j + (count + 1) + 7) / 8) ∧
            ∀ i (h : i < (byte.toNat.testBit (7 - j) :: values).length),
              bitAt (byte :: word) (j + i) = (byte.toNat.testBit (7 - j) :: values)[i] := by
        intro byte j reader next values hj h
        obtain ⟨word, hword, hlength, hwidth, hbits⟩ := ih hj h
        refine ⟨word, hword, hlength, by omega, fun i hi => ?_⟩
        cases i with
        | zero => simp [bitAt, Nat.div_eq_of_lt hj, Nat.mod_eq_of_lt hj]
        | succ i =>
            have hnext := hbits i (Nat.lt_of_succ_lt_succ hi)
            rw [Nat.succ_add_eq_add_succ] at hnext
            exact hnext
      intro byte j reader next values hj h
      rcases Nat.lt_or_eq_of_le hj with hlt | rfl
      · rw [parseBitsFrom, if_neg (mask_ne_zero hlt), mask_shift hlt] at h
        obtain ⟨rest, r₁, hrest, h⟩ := Cursor.bind_eq_ok.mp h
        obtain ⟨rfl, rfl⟩ := Cursor.pure_eq_ok.mp h
        obtain ⟨word, hword, hlength, hwidth, hbits⟩ := @hbit byte j _ _ _ hlt hrest
        rw [and_mask byte hlt]
        exact ⟨word, hword, by rw [List.length_cons, hlength], hwidth, hbits⟩
      · rw [parseBitsFrom, if_pos (by decide)] at h
        obtain ⟨first, r₁, hfirst, h⟩ := Cursor.bind_eq_ok.mp h
        obtain ⟨rest, r₂, hrest, h⟩ := Cursor.bind_eq_ok.mp h
        obtain ⟨rfl, rfl⟩ := Cursor.pure_eq_ok.mp h
        obtain ⟨word, hword, hlength, hwidth, hbits⟩ := @hbit first 0 _ _ _ (by decide) hrest
        have hmask : decide (first &&& 0x80 ≠ 0) = first.toNat.testBit (7 - 0) :=
          and_mask first (show 0 < 8 by decide)
        rw [hmask]
        refine ⟨first :: word, ?_, by rw [List.length_cons, hlength], ?_, fun i hi => ?_⟩
        · rw [readU8_eq_ok hfirst, hword]
          rfl
        · rw [List.length_cons]
          omega
        · rw [← hbits i hi]
          simp [bitAt, Nat.add_div_left, Nat.add_mod_left]

end Raw

namespace Validate

theorem parsePlainBits_eq_ok {property : RawProperty} {count : Nat} {values : List Bool}
    (h : (parsePlainBits property count).result = .ok values) :
    values.length = count ∧ property.data ∈ Grammar.bits values := by
  obtain ⟨⟨bits, reader⟩, hbits, h⟩ := Metered.bind_eq_ok.mp h
  obtain ⟨_, hfinish, h⟩ := Metered.bind_eq_ok.mp h
  obtain rfl := Except.ok.inj h
  obtain ⟨_, r₁, hcheck, hbits⟩ := Cursor.bind_eq_ok.mp hbits
  obtain ⟨-, rfl⟩ := Cursor.lift_eq_ok.mp hcheck
  obtain ⟨word, hword, hlength, hwidth, hvalues⟩ :=
    @Raw.parseBitsFrom_eq_ok _ 0 8 _ _ _ le_rfl hbits
  have hend : reader.remaining = [] := by
    unfold finish at hfinish
    split at hfinish
    · rename_i hposition
      exact List.drop_eq_nil_of_le (Nat.le_of_eq hposition.symm)
    · exact absurd hfinish (by simp)
  rw [hend, List.append_nil, BoundedReader.remaining_new] at hword
  subst hword
  refine ⟨hlength, by omega, fun i hi => ?_⟩
  rw [← hvalues i hi]
  simp [bitAt, Nat.add_div_left, Nat.add_mod_left]

/-! ### Properties -/

theorem knownPropertySlot_eq_ok {slot slot' : Option RawProperty} {property : RawProperty}
    (h : (knownPropertySlot slot property).result = .ok slot') :
    slot = none ∧ slot' = some property := by
  obtain ⟨hslot, h⟩ := refuseFormat_eq_ok.mp h
  exact ⟨by simpa using hslot, (Except.ok.inj h).symm⟩

/-- What a property does to the slot of one identifier. -/
def Sorts (id : UInt8) (get : PropertySlots → Option RawProperty) : Prop :=
  ∀ (slots slots' : PropertySlots) (property : RawProperty),
    (sortProperty slots property).result = .ok slots' →
    (property.id = id → get slots = none ∧ get slots' = some property) ∧
      (property.id ≠ id → get slots' = get slots)

/-- A property of another kind leaves the slots of the three bit vectors as they are. -/
theorem sortProperty_other {slots slots' : PropertySlots} {property : RawProperty}
    (h : (sortProperty slots property).result = .ok slots') (hstream : property.id ≠ idEmptyStream)
    (hfile : property.id ≠ idEmptyFile) (hanti : property.id ≠ idAnti) :
    slots'.emptyStream = slots.emptyStream ∧ slots'.emptyFile = slots.emptyFile ∧
      slots'.anti = slots.anti := by
  unfold sortProperty at h
  rw [if_neg hstream, if_neg hfile, if_neg hanti] at h
  -- the six slots of values
  iterate 6
    split at h
    · obtain ⟨_, -, h⟩ := Metered.bind_eq_ok.mp h
      obtain rfl := Except.ok.inj h
      exact ⟨rfl, rfl, rfl⟩
  split at h
  · obtain ⟨-, h⟩ := refuseFormat_eq_ok.mp h
    obtain rfl := Except.ok.inj h
    exact ⟨rfl, rfl, rfl⟩
  · obtain ⟨_, -, h⟩ := Metered.bind_eq_ok.mp h
    obtain rfl := Except.ok.inj h
    exact ⟨rfl, rfl, rfl⟩

theorem sortProperty_emptyStream {slots slots' : PropertySlots} {property : RawProperty}
    (h : (sortProperty slots property).result = .ok slots') (hid : property.id = idEmptyStream) :
    slots.emptyStream = none ∧ slots' = { slots with emptyStream := some property } := by
  unfold sortProperty at h
  rw [if_pos hid] at h
  obtain ⟨slot, hslot, h⟩ := Metered.bind_eq_ok.mp h
  obtain ⟨hnone, rfl⟩ := knownPropertySlot_eq_ok hslot
  exact ⟨hnone, (Except.ok.inj h).symm⟩

theorem sortProperty_emptyFile {slots slots' : PropertySlots} {property : RawProperty}
    (h : (sortProperty slots property).result = .ok slots') (hid : property.id = idEmptyFile) :
    slots.emptyFile = none ∧ slots' = { slots with emptyFile := some property } := by
  unfold sortProperty at h
  rw [if_neg (by rw [hid]; decide), if_pos hid] at h
  obtain ⟨slot, hslot, h⟩ := Metered.bind_eq_ok.mp h
  obtain ⟨hnone, rfl⟩ := knownPropertySlot_eq_ok hslot
  exact ⟨hnone, (Except.ok.inj h).symm⟩

theorem sortProperty_anti {slots slots' : PropertySlots} {property : RawProperty}
    (h : (sortProperty slots property).result = .ok slots') (hid : property.id = idAnti) :
    slots.anti = none ∧ slots' = { slots with anti := some property } := by
  unfold sortProperty at h
  rw [if_neg (by rw [hid]; decide), if_neg (by rw [hid]; decide), if_pos hid] at h
  obtain ⟨slot, hslot, h⟩ := Metered.bind_eq_ok.mp h
  obtain ⟨hnone, rfl⟩ := knownPropertySlot_eq_ok hslot
  exact ⟨hnone, (Except.ok.inj h).symm⟩

theorem sorts_emptyStream : Sorts idEmptyStream PropertySlots.emptyStream := by
  intro slots slots' property h
  refine ⟨fun hid => ?_, fun hid => ?_⟩
  · obtain ⟨hnone, rfl⟩ := sortProperty_emptyStream h hid
    exact ⟨hnone, rfl⟩
  · by_cases hfile : property.id = idEmptyFile
    · rw [(sortProperty_emptyFile h hfile).2]
    by_cases hanti : property.id = idAnti
    · rw [(sortProperty_anti h hanti).2]
    · exact (sortProperty_other h hid hfile hanti).1

theorem sorts_emptyFile : Sorts idEmptyFile PropertySlots.emptyFile := by
  intro slots slots' property h
  refine ⟨fun hid => ?_, fun hid => ?_⟩
  · obtain ⟨hnone, rfl⟩ := sortProperty_emptyFile h hid
    exact ⟨hnone, rfl⟩
  · by_cases hstream : property.id = idEmptyStream
    · rw [(sortProperty_emptyStream h hstream).2]
    by_cases hanti : property.id = idAnti
    · rw [(sortProperty_anti h hanti).2]
    · exact (sortProperty_other h hstream hid hanti).2.1

theorem sorts_anti : Sorts idAnti PropertySlots.anti := by
  intro slots slots' property h
  refine ⟨fun hid => ?_, fun hid => ?_⟩
  · obtain ⟨hnone, rfl⟩ := sortProperty_anti h hid
    exact ⟨hnone, rfl⟩
  · by_cases hstream : property.id = idEmptyStream
    · rw [(sortProperty_emptyStream h hstream).2]
    by_cases hfile : property.id = idEmptyFile
    · rw [(sortProperty_emptyFile h hfile).2]
    · exact (sortProperty_other h hstream hfile hid).2.2

/-- Wherever it stands, the one property of an identifier ends up in its slot. -/
theorem Sorts.filter_eq {id : UInt8} {get : PropertySlots → Option RawProperty} (h : Sorts id get)
    (properties : List RawProperty) : ∀ {slots slots' : PropertySlots},
      (sortProperties properties slots).result = .ok slots' →
      (get slots).toList ++ properties.filter (·.id = id) = (get slots').toList := by
  induction properties with
  | nil =>
      intro slots slots' hsort
      obtain rfl := Except.ok.inj hsort
      exact List.append_nil _
  | cons property rest ih =>
      intro slots slots' hsort
      obtain ⟨middle, hmiddle, hsort⟩ := Metered.bind_eq_ok.mp hsort
      rw [← ih hsort]
      obtain ⟨hsame, hother⟩ := h slots middle property hmiddle
      by_cases hid : property.id = id
      · obtain ⟨hnone, hsome⟩ := hsame hid
        rw [hnone, hsome, List.filter_cons_of_pos (by simpa using hid)]
        rfl
      · rw [hother hid, List.filter_cons_of_neg (by simpa using hid)]

end Validate

/-- The bits that the property of this identifier stores; they are clear if it is absent. -/
def RawFilesInfo.Stores (raw : RawFilesInfo) (id : UInt8) (bits : List Bool) : Prop :=
  (∃ property, raw.properties.filter (·.id = id) = [property] ∧ property.data ∈ Grammar.bits bits) ∨
    raw.properties.filter (·.id = id) = [] ∧ bits = List.replicate bits.length false

namespace Validate

theorem plainBits_stores {raw : RawFilesInfo} {id : UInt8} {slot : Option RawProperty}
    {count : Nat} {bits : List Bool} (hslot : raw.properties.filter (·.id = id) = slot.toList)
    (h : (plainBits slot count).result = .ok bits) :
    bits.length = count ∧ raw.Stores id bits := by
  cases slot with
  | none =>
      obtain rfl := Except.ok.inj h
      refine ⟨List.length_replicate, .inr ⟨hslot, ?_⟩⟩
      rw [List.length_replicate]
  | some property =>
      obtain ⟨hlength, hmem⟩ := parsePlainBits_eq_ok h
      exact ⟨hlength, .inl ⟨property, hslot, hmem⟩⟩

/-! ### The file loop -/

/-- The items whose bit has this value. -/
def pick {α : Type} (bits : List Bool) (value : Bool) (items : List α) : List α :=
  ((bits.zip items).filter (·.1 == value)).map Prod.snd

theorem pick_cons {α : Type} (bit : Bool) (bits : List Bool) (value : Bool) (item : α)
    (items : List α) :
    pick (bit :: bits) value (item :: items)
      = if bit == value then item :: pick bits value items else pick bits value items := by
  unfold pick
  rw [List.zip_cons_cons, List.filter_cons]
  split <;> rfl

/-- What the loop makes of the entries from `fileIndex` on: those with a stream take the
mappings from one cursor on, the others the two bits from the other cursor on. -/
structure Sorted (bits : FileBits) (mappings : List FileStream) (empty : List Bool)
    (files : List FileEntry) (cursors last : FileCursors) : Prop where
  length : files.length = empty.length
  streams : (pick empty false files).map (·.stream) ++ (mappings.drop last.stream).map some
    = (mappings.drop cursors.stream).map some
  plain : ∀ entry ∈ pick empty false files, entry.emptyFile = false ∧ entry.antiItem = false
  unmapped : ∀ entry ∈ pick empty true files, entry.stream = none
  flags : (pick empty true files).map (fun entry => (entry.emptyFile, entry.antiItem))
      ++ (bits.emptyFileBits.zip bits.antiBits).drop last.empty
    = (bits.emptyFileBits.zip bits.antiBits).drop cursors.empty

variable {bits : FileBits} {vectors : FileVectors} {mappings : List FileStream}

theorem drop_of_getElem? {α : Type} {items : List α} {i : Nat} {item : α}
    (h : items[i]? = some item) : items.drop i = item :: items.drop (i + 1) := by
  obtain ⟨hlt, rfl⟩ := List.getElem?_eq_some_iff.mp h
  exact List.drop_eq_getElem_cons hlt

/-- An entry without a stream. -/
theorem buildFile_empty {fileIndex : Nat} {cursors next : FileCursors} {file : FileEntry}
    (h : (buildFile bits vectors mappings fileIndex cursors).result = .ok (file, next))
    (hbit : bits.emptyStreams[fileIndex]? = some true) :
    file.stream = none ∧ next = { cursors with empty := cursors.empty + 1 } ∧
      (bits.emptyFileBits.zip bits.antiBits)[cursors.empty]?
        = some (file.emptyFile, file.antiItem) := by
  simp only [buildFile, Metered.bind_eq_ok, orFormat_eq_ok, Prod.exists, Metered.result_pure,
    Except.ok.injEq, Prod.mk.injEq] at h
  obtain ⟨_, -, isEmptyStream, hempty, isEmptyFile, isAnti, bitCursors, hbits, stream,
    streamCursors, hstream, _, -, _, -, _, -, _, -, _, -, _, -, rfl, rfl⟩ := h
  obtain rfl : isEmptyStream = true := by
    rw [hbit] at hempty
    exact (Option.some.inj hempty).symm
  obtain ⟨rfl, rfl⟩ : stream = none ∧ streamCursors = bitCursors := by
    simpa [fileStream, eq_comm] using hstream
  simp only [emptyBits, if_true, Metered.bind_eq_ok, orFormat_eq_ok, checkedAdd_eq_some,
    Metered.result_pure, Except.ok.injEq, Prod.mk.injEq] at hbits
  obtain ⟨_, hfile, _, hanti, _, ⟨-, rfl⟩, ⟨rfl, rfl⟩, rfl⟩ := hbits
  exact ⟨rfl, rfl, List.getElem?_zip_eq_some.mpr ⟨hfile, hanti⟩⟩

/-- An entry with a stream. -/
theorem buildFile_stream {fileIndex : Nat} {cursors next : FileCursors} {file : FileEntry}
    (h : (buildFile bits vectors mappings fileIndex cursors).result = .ok (file, next))
    (hbit : bits.emptyStreams[fileIndex]? = some false) :
    mappings[cursors.stream]? = file.stream ∧ file.stream.isSome ∧
      next = { cursors with stream := cursors.stream + 1 } ∧ file.emptyFile = false ∧
      file.antiItem = false := by
  simp only [buildFile, Metered.bind_eq_ok, orFormat_eq_ok, Prod.exists, Metered.result_pure,
    Except.ok.injEq, Prod.mk.injEq] at h
  obtain ⟨_, -, isEmptyStream, hempty, isEmptyFile, isAnti, bitCursors, hbits, stream,
    streamCursors, hstream, _, -, _, -, _, -, _, -, _, -, _, -, rfl, rfl⟩ := h
  obtain rfl : isEmptyStream = false := by
    rw [hbit] at hempty
    exact (Option.some.inj hempty).symm
  simp only [emptyBits, Bool.false_eq_true, if_false, Metered.result_pure, Except.ok.injEq,
    Prod.mk.injEq] at hbits
  obtain ⟨⟨rfl, rfl⟩, rfl⟩ := hbits
  simp only [fileStream, Bool.false_eq_true, if_false, Metered.bind_eq_ok, orFormat_eq_ok,
    checkedAdd_eq_some, Metered.result_pure, Except.ok.injEq, Prod.mk.injEq] at hstream
  obtain ⟨value, hvalue, _, ⟨-, rfl⟩, rfl, rfl⟩ := hstream
  exact ⟨hvalue, rfl, rfl, rfl, rfl⟩

theorem buildFiles_sorted (count : Nat) :
    ∀ {fileIndex : Nat} {cursors last : FileCursors} {files : List FileEntry},
      (buildFiles bits vectors mappings count fileIndex cursors).result = .ok (files, last) →
      fileIndex + count = bits.emptyStreams.length →
      Sorted bits mappings (bits.emptyStreams.drop fileIndex) files cursors last := by
  induction count with
  | zero =>
      intro fileIndex cursors last files h hcount
      obtain ⟨rfl, rfl⟩ : files = [] ∧ last = cursors := by
        simpa [buildFiles, eq_comm] using h
      rw [List.drop_eq_nil_of_le (by omega)]
      exact ⟨rfl, rfl, by simp [pick], by simp [pick], rfl⟩
  | succ count ih =>
      intro fileIndex cursors last files h hcount
      obtain ⟨⟨file, middle⟩, hfile, h⟩ := Metered.bind_eq_ok.mp h
      obtain ⟨⟨rest, last'⟩, hrest, h⟩ := Metered.bind_eq_ok.mp h
      obtain ⟨rfl, rfl⟩ := Prod.mk.inj (Except.ok.inj h)
      obtain ⟨hlength, hstreams, hplain, hunmapped, hflags⟩ := ih hrest (by omega)
      have hbit : bits.emptyStreams[fileIndex]? = some bits.emptyStreams[fileIndex] :=
        List.getElem?_eq_getElem (by omega)
      rw [drop_of_getElem? hbit]
      cases hvalue : bits.emptyStreams[fileIndex] with
      | true =>
          rw [hvalue] at hbit
          obtain ⟨hnone, rfl, hbits⟩ := buildFile_empty hfile hbit
          refine ⟨congrArg Nat.succ hlength, ?_, ?_, ?_, ?_⟩ <;> rw [pick_cons]
          · exact hstreams
          · exact hplain
          · exact List.forall_mem_cons.mpr ⟨hnone, hunmapped⟩
          · rw [drop_of_getElem? hbits]
            exact congrArg (_ :: ·) hflags
      | false =>
          rw [hvalue] at hbit
          obtain ⟨hstream, hsome, rfl, hempty, hanti⟩ := buildFile_stream hfile hbit
          obtain ⟨mapping, hmapping⟩ := Option.isSome_iff_exists.mp hsome
          refine ⟨congrArg Nat.succ hlength, ?_, ?_, ?_, ?_⟩ <;> rw [pick_cons]
          · rw [drop_of_getElem? (hstream.trans hmapping), List.map_cons, ← hmapping]
            exact congrArg (_ :: ·) hstreams
          · exact List.forall_mem_cons.mpr ⟨⟨hempty, hanti⟩, hplain⟩
          · exact hunmapped
          · exact hflags

/-! ### The whole record -/

theorem parseFileBits_eq_ok {raw : RawFilesInfo} {slots : PropertySlots} {bits : FileBits}
    (hsort : (sortProperties raw.properties {}).result = .ok slots)
    (h : (parseFileBits slots raw.count).result = .ok bits) :
    (bits.emptyStreams.length = raw.count ∧ raw.Stores idEmptyStream bits.emptyStreams) ∧
      (bits.emptyFileBits.length = bits.emptyStreams.count true ∧
        raw.Stores idEmptyFile bits.emptyFileBits) ∧
      bits.antiBits.length = bits.emptyStreams.count true ∧ raw.Stores idAnti bits.antiBits := by
  obtain ⟨empty, hempty, h⟩ := Metered.bind_eq_ok.mp h
  obtain ⟨file, hfile, h⟩ := Metered.bind_eq_ok.mp h
  obtain ⟨anti, hanti, h⟩ := Metered.bind_eq_ok.mp h
  obtain rfl := Except.ok.inj h
  exact ⟨plainBits_stores (sorts_emptyStream.filter_eq _ hsort) hempty,
    plainBits_stores (sorts_emptyFile.filter_eq _ hsort) hfile,
    plainBits_stores (sorts_anti.filter_eq _ hsort) hanti⟩

theorem nodup_substreamMappings (folderIndex start : Nat) (substreams : List Substream) :
    (substreamMappings folderIndex start substreams).Nodup := by
  refine List.Nodup.of_map FileStream.substreamIndex ?_
  have hindices : (substreamMappings folderIndex start substreams).map FileStream.substreamIndex
      = List.range' start substreams.length := by
    rw [← List.zipIdx_map_snd start substreams, substreamMappings, List.map_map]
    rfl
  rw [hindices]
  exact List.nodup_range'

theorem nodup_folderMajor (folders : List Folder) :
    ∀ start, (folderMajor start folders).Nodup := by
  induction folders with
  | nil => intro start; exact List.nodup_nil
  | cons folder rest ih =>
      intro start
      rw [Archive.folderMajor_cons]
      refine List.nodup_append.mpr ⟨nodup_substreamMappings _ _ _, ih (start + 1), ?_⟩
      rintro a hfirst b hlater rfl
      obtain ⟨p, -, rfl⟩ := List.mem_map.mp hfirst
      obtain ⟨f, _, k, substream, -, -, heq⟩ := Archive.mem_folderMajor.mp hlater
      injection heq with hindex
      omega

end Validate

open Validate (pick)

/-- **Entries and substreams** are matched one to one, and the flags of the entries without a
stream are the bits stored for these. -/
theorem Validate.validateFiles_matched {raw : RawFilesInfo}
    {mainStreams additionalStreams : Option StreamsInfo} {limits : Limits} {files : FilesInfo}
    (h : (validateFiles raw mainStreams additionalStreams limits).result = .ok files) :
    ∃ empty emptyFile anti : List Bool,
      (raw.Stores idEmptyStream empty ∧ raw.Stores idEmptyFile emptyFile ∧ raw.Stores idAnti anti) ∧
      (empty.length = raw.count ∧ files.entries.length = raw.count ∧
        emptyFile.length = empty.count true ∧ anti.length = empty.count true) ∧
      (pick empty false files.entries).map (·.stream)
        = (folderMajor 0 (sectionFolders mainStreams)).map some ∧
      (∀ f folder k substream, (sectionFolders mainStreams)[f]? = some folder →
        folder.substreams[k]? = some substream →
        files.entries.countP (·.stream = some ⟨f, k, substream.size, substream.crc⟩) = 1) ∧
      (∀ entry ∈ pick empty true files.entries, entry.stream = none) ∧
      (pick empty true files.entries).map (fun entry => (entry.emptyFile, entry.antiItem))
        = emptyFile.zip anti ∧
      ∀ entry ∈ pick empty false files.entries,
        entry.emptyFile = false ∧ entry.antiItem = false := by
  have hmapped := validateFiles_mapped h
  simp only [validateFiles, Metered.bind_eq_ok, refuseFormat_eq_ok, Prod.exists,
    Metered.result_pure, Except.ok.injEq, not_or, not_not] at h
  obtain ⟨_, -, slots, hslots, bits, hbits, vectors, external, -, mappings, hmappings, -, entries,
    last, hfiles, ⟨hfile, hanti, hend⟩, rfl⟩ := h
  obtain ⟨⟨hcount, hempty⟩, ⟨hfileCount, hfileBits⟩, hantiCount, hantiBits⟩ :=
    parseFileBits_eq_ok hslots hbits
  obtain ⟨hlength, hstreams, hplain, hunmapped, hflags⟩ :=
    buildFiles_sorted _ hfiles (by rw [Nat.zero_add, hcount])
  obtain rfl := collectStreamMappings_eq_ok hmappings
  rw [List.drop_zero] at hlength hstreams hplain hunmapped hflags
  refine ⟨bits.emptyStreams, bits.emptyFileBits, bits.antiBits, ⟨hempty, hfileBits, hantiBits⟩,
    ⟨hcount, hlength.trans hcount, hfileCount, hantiCount⟩, ?_, ?_, hunmapped, ?_, hplain⟩
  · rwa [hend, List.drop_length, List.map_nil, List.append_nil, List.drop_zero] at hstreams
  · intro f folder k substream hfolder hsubstream
    have hmem : (⟨f, k, substream.size, substream.crc⟩ : FileStream)
        ∈ folderMajor 0 (sectionFolders mainStreams) :=
      Archive.mem_folderMajor.mpr ⟨f, folder, k, substream, hfolder, hsubstream, by rw [Nat.zero_add]⟩
    have hone := List.count_eq_one_of_mem (nodup_folderMajor _ _) hmem
    rw [← hmapped.streams, List.count_filterMap] at hone
    rw [← hone]
    refine List.countP_congr fun entry _ => ?_
    simp
  · have hzip : (bits.emptyFileBits.zip bits.antiBits).drop last.empty = [] := by
      refine List.drop_eq_nil_of_le ?_
      rw [List.length_zip]
      omega
    rwa [hzip, List.append_nil, List.drop_zero] at hflags

/-- An anti-item and a file of five bytes. -/
theorem Validate.validateFiles_matched_two :
    let folder : Folder := ⟨[], [], [], [], 0, [], none, [⟨some 5, none⟩], 0, 0⟩
    ∃ files, (validateFiles ⟨2, [⟨idAnti, [0x80]⟩, ⟨idEmptyStream, [0x80]⟩]⟩
        (some ⟨0, [], [folder], 1⟩) none {}).result = .ok files ∧
      files.entries.countP (·.stream = some ⟨0, 0, some 5, none⟩) = 1 := by
  intro folder
  have hvalid : (validateFiles ⟨2, [⟨idAnti, [0x80]⟩, ⟨idEmptyStream, [0x80]⟩]⟩
      (some ⟨0, [], [folder], 1⟩) none {}).result
        = .ok ⟨[⟨none, false, false, true, none, none, none, none, none, none⟩,
          ⟨none, true, false, false, none, none, none, none, none,
            some ⟨0, 0, some 5, none⟩⟩], [], []⟩ := by
    decide +kernel
  obtain ⟨_, _, _, -, -, -, hone, -⟩ := validateFiles_matched hvalid
  exact ⟨_, hvalid, hone 0 folder 0 ⟨some 5, none⟩ rfl rfl⟩

end Un7z
