/-
The next-header parser is exactly its grammar.

`HeaderWords` has one direction: the words of a header parse to it.  The other is that
the parser looks at nothing but the word it accepts.  Every parse function is `Local`,
by following its sequence of reads; the property list is the one that needs an
argument, because its fuel is the length of what lies ahead and so does depend on the
input.  `parsePropertyListFrom_fuel` takes that dependence away: a success with some
fuel is the same success with any fuel that covers the bytes it read.

A local parser that must use up its input accepts no proper prefix and no proper
extension of what it accepts.
-/
import Un7z.Proofs.HeaderWords

namespace Un7z

open Cursor (Decodes Starves Local Parses)

/-! ### Locality of the parse functions -/

theorem local_chargedU8 : Local Raw.readU8 :=
  (Local.lift _).bind fun _ => local_readU8

theorem local_chargedU32Le : Local Raw.readU32Le :=
  (Local.lift _).bind fun _ => local_readU32Le

theorem local_readUint : Local Raw.readUint :=
  (Local.lift _).bind fun _ => local_read7zUint

theorem local_chargedBytes (length : Nat) : Local (Raw.readBytes length) :=
  (local_readBytes length).bind fun _ => (Local.lift _).bind fun _ => Local.pure _

theorem local_readMany {α : Type} {item : Reads α} (h : Local item) (count : Nat) :
    Local (Raw.readMany item count) := by
  induction count with
  | zero => exact Local.pure []
  | succ count ih => exact h.bind fun _ => ih.bind fun _ => Local.pure _

theorem local_parseBitsFrom (count : Nat) :
    ∀ byte mask, Local (Raw.parseBitsFrom count byte mask) := by
  induction count with
  | zero => intro byte mask; exact Local.pure []
  | succ count ih =>
      intro byte mask
      rw [Raw.parseBitsFrom]
      exact Local.ite (local_chargedU8.bind fun _ => (ih _ _).bind fun _ => Local.pure _)
        ((ih _ _).bind fun _ => Local.pure _)

theorem local_parseBits (count : Nat) : Local (Raw.parseBits count) :=
  (Local.lift _).bind fun _ => local_parseBitsFrom count 0 0

theorem local_readIfDefined {α : Type} {item : Reads α} (h : Local item) (isDefined : Bool) :
    Local (Raw.readIfDefined item isDefined) :=
  Local.ite (h.bind fun _ => Local.pure _) (Local.pure _)

theorem local_parseDefinedDigests (defined : List Bool) :
    Local (Raw.parseDefinedDigests defined) := by
  induction defined with
  | nil => exact Local.pure []
  | cons isDefined defined ih =>
      exact (local_readIfDefined local_chargedU32Le isDefined).bind fun _ =>
        ih.bind fun _ => Local.pure _

theorem local_parseDigests (count : Nat) : Local (Raw.parseDigests count) := by
  refine Local.ite (Local.pure []) ((Local.lift _).bind fun _ => local_chargedU8.bind fun _ => ?_)
  exact Local.ite ((local_parseBits count).bind fun _ => local_parseDefinedDigests _)
    ((Local.pure _).bind fun _ => local_parseDefinedDigests _)

theorem local_parseSizes (count : Nat) : Local (Raw.parseSizes count) :=
  (Local.lift _).bind fun _ => local_readMany local_readUint count

theorem local_optionalSection {α : Type} {id expected : UInt8} {body : Reads α}
    (h : Local body) : Local (Raw.optionalSection id expected body) :=
  Local.ite (h.bind fun _ => local_chargedU8.bind fun _ => Local.pure _) (Local.pure _)

theorem local_parsePackInfo (state : ParseState) (limits : Limits) :
    Local (Raw.parsePackInfo state limits) := by
  refine local_readUint.bind fun _ => local_readUint.bind fun streams => ?_
  refine Local.ite (Local.lift _) ((Local.lift _).bind fun _ => local_chargedU8.bind fun _ => ?_)
  refine (local_optionalSection (local_parseSizes streams)).bind fun ⟨_, _⟩ => ?_
  refine (local_optionalSection (local_parseDigests streams)).bind fun ⟨_, _⟩ => ?_
  exact Local.ite (Local.lift _) (Local.pure _)

theorem local_parseCoderStreams (flags : UInt8) : Local (Raw.parseCoderStreams flags) :=
  Local.ite
    (local_readUint.bind fun _ => local_readUint.bind fun _ =>
      Local.ite (Local.lift _) (Local.pure _))
    (Local.pure _)

theorem local_parseCoderProperties (flags : UInt8) (limits : Limits) :
    Local (Raw.parseCoderProperties flags limits) :=
  Local.ite (local_readUint.bind fun _ => (Local.lift _).bind fun _ => local_chargedBytes _)
    (Local.pure _)

theorem local_parseCoder (limits : Limits) : Local (Raw.parseCoder limits) := by
  refine local_chargedU8.bind fun flags => Local.ite (Local.lift _) (Local.ite (Local.lift _)
    (Local.ite (Local.lift _) ?_))
  refine (local_chargedBytes _).bind fun _ => (local_parseCoderStreams flags).bind fun ⟨_, _⟩ => ?_
  exact (local_parseCoderProperties flags limits).bind fun _ => Local.pure _

theorem local_parseCoders (limits : Limits) (count : Nat) :
    ∀ input output, Local (Raw.parseCoders limits count input output) := by
  induction count with
  | zero => intro input output; exact Local.pure _
  | succ count ih =>
      intro input output
      refine (local_parseCoder limits).bind fun _ => (Local.lift _).bind fun _ =>
        (Local.lift _).bind fun _ => (ih _ _).bind fun ⟨_, _⟩ => Local.pure _

theorem local_parseBindPair : Local Raw.parseBindPair :=
  local_readUint.bind fun _ => local_readUint.bind fun _ => Local.pure _

theorem local_parsePackedIndices (count : Nat) : Local (Raw.parsePackedIndices count) :=
  Local.ite (Local.pure _) ((local_readMany local_readUint count).bind fun _ => Local.pure _)

theorem local_parseFolder (state : ParseState) (limits : Limits) :
    Local (Raw.parseFolder state limits) := by
  refine local_readUint.bind fun count => Local.ite (Local.lift _) ((Local.lift _).bind fun _ =>
    (Local.lift _).bind fun _ => (local_parseCoders limits count 0 0).bind fun ⟨_, _, _⟩ => ?_)
  refine (Local.lift _).bind fun _ => (Local.lift _).bind fun _ => (Local.lift _).bind fun _ =>
    Local.ite (Local.lift _) ?_
  refine (Local.lift _).bind fun binds => (local_readMany local_parseBindPair binds).bind fun _ =>
    (Local.lift _).bind fun packed => Local.ite (Local.lift _) ?_
  exact (local_parsePackedIndices packed).bind fun _ => Local.pure _

theorem local_parseFolders (limits : Limits) (count : Nat) :
    ∀ state, Local (Raw.parseFolders limits count state) := by
  induction count with
  | zero => intro state; exact Local.pure _
  | succ count ih =>
      intro state
      exact (local_parseFolder state limits).bind fun ⟨_, _⟩ =>
        (ih _).bind fun ⟨_, _⟩ => Local.pure _

theorem local_parseUnpackSizes (folders : List RawFolder) :
    Local (Raw.parseUnpackSizes folders) := by
  induction folders with
  | nil => exact Local.pure []
  | cons folder folders ih =>
      exact (local_parseSizes _).bind fun _ => ih.bind fun _ => Local.pure _

theorem local_parseUnpackInfoTail (count : Nat) (folders : List RawFolder) :
    Local (Raw.parseUnpackInfoTail count folders) := by
  refine local_chargedU8.bind fun _ => Local.ite (Local.lift _)
    ((local_parseUnpackSizes folders).bind fun _ => local_chargedU8.bind fun _ => ?_)
  refine (local_optionalSection (local_parseDigests count)).bind fun ⟨_, _⟩ => ?_
  exact Local.ite (Local.lift _) (Local.pure _)

theorem local_parseUnpackInfo (state : ParseState) (limits : Limits)
    (external : Option ExternalFolderData) :
    Local (Raw.parseUnpackInfo state limits external) := by
  refine local_chargedU8.bind fun _ => Local.ite (Local.lift _)
    (local_readUint.bind fun count => Local.ite (Local.lift _) ?_)
  refine (Local.lift _).bind fun _ => (Local.lift _).bind fun _ => local_chargedU8.bind fun _ =>
    Local.ite ?_ (local_readUint.bind fun _ => ?_)
  · exact (local_parseFolders limits count _).bind fun ⟨_, _⟩ =>
      (local_parseUnpackInfoTail count _).bind fun _ => Local.pure _
  · cases external with
    | none => exact Local.pure _
    | some source =>
        exact Local.ite (Local.lift _) ((Local.lift _).bind fun ⟨_, _⟩ =>
          (local_parseUnpackInfoTail count _).bind fun _ => Local.pure _)

theorem local_parseSubstreamCounts (id : UInt8) (count : Nat) :
    Local (Raw.parseSubstreamCounts id count) :=
  Local.ite ((local_readMany local_readUint count).bind fun _ =>
    local_chargedU8.bind fun _ => Local.pure _) (Local.pure _)

theorem local_parseSubstreamsInfo (unpack : RawUnpackInfo) (state : ParseState)
    (limits : Limits) : Local (Raw.parseSubstreamsInfo unpack state limits) := by
  refine local_chargedU8.bind fun _ => (local_parseSubstreamCounts _ _).bind fun ⟨_, _⟩ => ?_
  refine (Local.lift _).bind fun ⟨_, sizes⟩ => (Local.lift _).bind fun _ => ?_
  refine (local_optionalSection (local_parseSizes sizes)).bind fun ⟨_, _⟩ => ?_
  refine (Local.lift _).bind fun digests =>
    (local_optionalSection (local_parseDigests digests)).bind fun ⟨_, _⟩ => ?_
  exact Local.ite (Local.lift _) (Local.pure _)

theorem local_parseSubstreamsSection (id : UInt8) (unpack : Option RawUnpackInfo)
    (state : ParseState) (limits : Limits) :
    Local (Raw.parseSubstreamsSection id unpack state limits) := by
  cases unpack with
  | none => exact Local.ite (Local.lift _) (Local.pure _)
  | some unpack =>
      exact Local.ite
        ((local_parseSubstreamsInfo unpack state limits).bind fun ⟨_, _⟩ =>
          local_chargedU8.bind fun _ => Local.pure _)
        ((Local.lift _).bind fun _ => Local.pure _)

theorem local_parsePackSection (id : UInt8) (state : ParseState) (limits : Limits) :
    Local (Raw.parsePackSection id state limits) :=
  Local.ite ((local_parsePackInfo state limits).bind fun ⟨_, _⟩ =>
    local_chargedU8.bind fun _ => Local.pure _) (Local.pure _)

theorem local_parseStreamsTail (id : UInt8) (pack : Option RawPackInfo)
    (unpack : Option RawUnpackInfo) (state : ParseState) (limits : Limits) :
    Local (Raw.parseStreamsTail id pack unpack state limits) :=
  (local_parseSubstreamsSection id unpack state limits).bind fun ⟨_, _, _⟩ =>
    Local.ite (Local.lift _) (Local.pure _)

theorem local_parseUnpackSection (id : UInt8) (pack : Option RawPackInfo) (state : ParseState)
    (limits : Limits) (external : Option ExternalFolderData) :
    Local (Raw.parseUnpackSection id pack state limits external) := by
  refine Local.ite ?_ (local_parseStreamsTail _ _ _ _ _)
  refine (local_parseUnpackInfo state limits external).bind fun ⟨parsed, _⟩ => ?_
  cases parsed with
  | complete info => exact local_chargedU8.bind fun _ => local_parseStreamsTail _ _ _ _ _
  | external dataIndex => exact Local.pure _

theorem local_parseStreamsInfo (state : ParseState) (limits : Limits)
    (external : Option ExternalFolderData) :
    Local (Raw.parseStreamsInfo state limits external) :=
  local_chargedU8.bind fun _ => (local_parsePackSection _ state limits).bind fun ⟨_, _, _⟩ =>
    local_parseUnpackSection _ _ _ _ _

/-! ### Property lists -/

/-- Reading never moves a reader back. -/
theorem length_le_of_local {α : Type} {p : Reads α} (h : Local p) {reader next : BoundedReader}
    {a : α} (hvalid : reader.bytes.length < 2 ^ 64) (hrun : (p reader).result = .ok (a, next)) :
    next.remaining.length ≤ reader.remaining.length := by
  obtain ⟨-, word, hrest, -⟩ := h reader a next hvalid hrun
  have hlength := congrArg List.length (show reader.remaining = word ++ next.remaining from hrest)
  rw [List.length_append] at hlength
  omega

theorem local_parsePropertyListFrom (limits : Limits) (fuel : Nat) :
    ∀ state, Local (Raw.parsePropertyListFrom limits fuel state) := by
  induction fuel with
  | zero => intro state; exact local_chargedU8.bind fun _ => Local.lift _
  | succ fuel ih =>
      intro state
      refine local_chargedU8.bind fun _ => Local.ite (Local.pure _) ((Local.lift _).bind fun _ =>
        local_readUint.bind fun _ => (Local.lift _).bind fun _ => ?_)
      exact (local_chargedBytes _).bind fun _ => (ih _).bind fun ⟨_, _⟩ => Local.pure _

theorem chargedU8_length {reader next : BoundedReader} {byte : UInt8}
    (h : (Raw.readU8 reader).result = .ok (byte, next)) :
    next.remaining.length + 1 = reader.remaining.length := by
  obtain ⟨_, mid, hlift, hread⟩ := Cursor.bind_eq_ok.mp h
  obtain rfl : reader = mid := congrArg Prod.snd (Except.ok.inj hlift)
  obtain ⟨bytes, mid, hbytes, hbyte⟩ := Cursor.bind_eq_ok.mp hread
  obtain ⟨-, hle, rfl, hnext, hposition⟩ := readBytes_eq_ok.mp hbytes
  have hmid : next = mid := by
    cases hhead : (reader.remaining.take 1).head? with
    | none =>
        rw [hhead] at hbyte
        exact absurd hbyte (by simp [Cursor.result_lift, Except.map])
    | some b =>
        rw [hhead] at hbyte
        exact (congrArg Prod.snd (Except.ok.inj hbyte)).symm
  rw [hmid, BoundedReader.length_remaining, BoundedReader.length_remaining, hnext, hposition]
  omega

/-- A success does not depend on the fuel, as long as that covers the bytes read. -/
theorem parsePropertyListFrom_fuel (limits : Limits) (fuel : Nat) :
    ∀ {state : ParseState} {reader next : BoundedReader} {a : List RawProperty × ParseState}
      (fuel' : Nat), reader.bytes.length < 2 ^ 64 →
      (Raw.parsePropertyListFrom limits fuel state reader).result = .ok (a, next) →
      reader.remaining.length ≤ fuel' + next.remaining.length →
      (Raw.parsePropertyListFrom limits fuel' state reader).result = .ok (a, next) := by
  induction fuel with
  | zero =>
      intro state reader next a fuel' _ h _
      obtain ⟨_, mid, _, herr⟩ := Cursor.bind_eq_ok.mp h
      exact absurd herr (by simp [Cursor.result_lift, Except.map])
  | succ fuel ih =>
      intro state reader next a fuel' hvalid h hfuel
      obtain ⟨id, mid, hread, hbody⟩ := Cursor.bind_eq_ok.mp h
      have hmid := chargedU8_length hread
      have hvalid' : mid.bytes.length < 2 ^ 64 := (local_chargedU8 reader id mid hvalid hread).1
      by_cases hend : id = idEnd
      · have hnext : mid = next := by
          rw [if_pos hend] at hbody
          exact congrArg Prod.snd (Except.ok.inj hbody)
        cases fuel' with
        | zero => subst hnext; omega
        | succ fuel' =>
            refine Cursor.bind_eq_ok.mpr ⟨id, mid, hread, ?_⟩
            rw [if_pos hend] at hbody ⊢
            exact hbody
      · rw [if_neg hend] at hbody
        obtain ⟨state', r₁, h₁, hbody⟩ := Cursor.bind_eq_ok.mp hbody
        obtain ⟨length, r₂, h₂, hbody⟩ := Cursor.bind_eq_ok.mp hbody
        obtain ⟨u, r₃, h₃, hbody⟩ := Cursor.bind_eq_ok.mp hbody
        obtain ⟨data, r₄, h₄, hbody⟩ := Cursor.bind_eq_ok.mp hbody
        obtain ⟨rest, r₅, h₅, hlast⟩ := Cursor.bind_eq_ok.mp hbody
        have hv₁ := (Local.lift (σ := BoundedReader) _ mid state' r₁ hvalid' h₁).1
        have hv₂ := (local_readUint r₁ length r₂ hv₁ h₂).1
        have hv₃ := (Local.lift (σ := BoundedReader) _ r₂ u r₃ hv₂ h₃).1
        have hv₄ := (local_chargedBytes _ r₃ data r₄ hv₃ h₄).1
        have hle₁ := length_le_of_local (Local.lift _) hvalid' h₁
        have hle₂ := length_le_of_local local_readUint hv₁ h₂
        have hle₃ := length_le_of_local (Local.lift _) hv₂ h₃
        have hle₄ := length_le_of_local (local_chargedBytes _) hv₃ h₄
        have hle₅ := length_le_of_local (local_parsePropertyListFrom limits fuel state') hv₄ h₅
        have hnext : r₅ = next := congrArg Prod.snd (Except.ok.inj hlast)
        cases fuel' with
        | zero => subst hnext; omega
        | succ fuel' =>
            refine Cursor.bind_eq_ok.mpr ⟨id, mid, hread, ?_⟩
            rw [if_neg hend]
            refine Cursor.bind_eq_ok.mpr ⟨state', r₁, h₁, Cursor.bind_eq_ok.mpr ⟨length, r₂, h₂,
              Cursor.bind_eq_ok.mpr ⟨u, r₃, h₃, Cursor.bind_eq_ok.mpr ⟨data, r₄, h₄,
                Cursor.bind_eq_ok.mpr ⟨rest, r₅, ?_, hlast⟩⟩⟩⟩⟩
            exact ih fuel' hv₄ h₅ (by subst hnext; omega)

theorem local_parsePropertyList (state : ParseState) (limits : Limits) :
    Local (Raw.parsePropertyList state limits) := by
  intro reader a next hvalid h
  have hlocal := local_parsePropertyListFrom limits reader.remaining.length state
  obtain ⟨hvalid', word, hrest, hdec, hstarve⟩ := hlocal reader a next hvalid h
  have hrest' : reader.remaining = word ++ next.remaining := hrest
  refine ⟨hvalid', word, hrest, fun other tail ho hother => ?_, fun other ho hpre hne => ?_⟩
  · obtain ⟨other', hrun, ho', htail⟩ := hdec other tail ho hother
    have hother' : other.remaining = word ++ tail := hother
    refine ⟨other', parsePropertyListFrom_fuel limits _ _ ho hrun (Nat.le_add_right _ _), ho', htail⟩
  · rcases result_cases (Raw.parsePropertyList state limits other).result with
      ⟨⟨b, other'⟩, hok⟩ | herr
    · -- with the larger fuel the cut word would parse as well
      obtain ⟨e, he⟩ := hstarve other ho hpre hne
      have hlength : other.remaining.length ≤ word.length := hpre.length_le
      have hlarger := parsePropertyListFrom_fuel limits _ reader.remaining.length ho hok
        (by rw [hrest', List.length_append]; omega)
      rw [hlarger] at he
      exact absurd he (by simp)
    · exact herr

/-! ### Headers -/

theorem local_parseFilesInfo (state : ParseState) (limits : Limits) :
    Local (Raw.parseFilesInfo state limits) :=
  local_readUint.bind fun _ => (Local.lift _).bind fun _ =>
    (local_parsePropertyList state limits).bind fun ⟨_, _⟩ => Local.pure _

theorem local_parseHeaderTail (id : UInt8) (properties : List RawProperty)
    (additional main : Option RawStreamsInfo) (state : ParseState) (limits : Limits) :
    Local (Raw.parseHeaderTail id properties additional main state limits) := by
  refine Local.bind ?_ fun ⟨_, _, _⟩ => Local.ite (Local.lift _) (Local.pure _)
  exact Local.ite ((local_parseFilesInfo state limits).bind fun ⟨_, _⟩ =>
    local_chargedU8.bind fun _ => Local.pure _) (Local.pure _)

theorem local_parseMainStreams (headerBytes : Bytes) (id : UInt8) (properties : List RawProperty)
    (additional : Option RawStreamsInfo) (state : ParseState) (limits : Limits)
    (external : Option ExternalFolderData) :
    Local (Raw.parseMainStreams headerBytes id properties additional state limits external) := by
  refine Local.ite ((local_parseStreamsInfo state limits external).bind fun ⟨parsed, _⟩ => ?_)
    (local_parseHeaderTail _ _ _ _ _ _)
  cases parsed with
  | complete info => exact local_chargedU8.bind fun _ => local_parseHeaderTail _ _ _ _ _ _
  | external pack dataIndex =>
      cases additional with
      | none => exact Local.lift _
      | some additional => exact Local.pure _

theorem local_parseAdditionalStreams (id : UInt8) (state : ParseState) (limits : Limits) :
    Local (Raw.parseAdditionalStreams id state limits) := by
  refine Local.ite ((local_parseStreamsInfo state limits none).bind fun ⟨parsed, _⟩ => ?_)
    (Local.pure _)
  cases parsed with
  | complete info => exact local_chargedU8.bind fun _ => Local.pure _
  | external pack dataIndex => exact Local.lift _

theorem local_parseArchiveProperties (id : UInt8) (state : ParseState) (limits : Limits) :
    Local (Raw.parseArchiveProperties id state limits) :=
  Local.ite ((local_parsePropertyList state limits).bind fun ⟨_, _⟩ =>
    local_chargedU8.bind fun _ => Local.pure _) (Local.pure _)

theorem local_parseHeaderBody (headerBytes : Bytes) (state : ParseState) (limits : Limits)
    (external : Option ExternalFolderData) :
    Local (Raw.parseHeaderBody headerBytes state limits external) := by
  refine local_chargedU8.bind fun id =>
    (local_parseArchiveProperties id state limits).bind fun ⟨_, _, state⟩ => ?_
  exact (local_parseAdditionalStreams _ state limits).bind fun ⟨_, _, _⟩ =>
    local_parseMainStreams _ _ _ _ _ _ _

theorem local_parseNextHeaderBody (bytes : Bytes) (state : ParseState) (limits : Limits)
    (external : Option ExternalFolderData) :
    Local (Raw.parseNextHeaderBody bytes state limits external) := by
  refine local_chargedU8.bind fun _ => Local.ite (local_parseHeaderBody _ _ _ _)
    (Local.ite ((local_parseStreamsInfo state limits none).bind fun ⟨parsed, _⟩ => ?_)
      (Local.lift _))
  cases parsed with
  | complete info => exact Local.pure _
  | external pack dataIndex => exact Local.lift _

/-! ### The whole parser -/

/-- A header that is there in one piece, not waiting for folders of another stream. -/
def RawNextHeader.isComplete : RawNextHeader → Bool
  | .externalFolders _ => false
  | _ => true

/-- The same header, but for the bytes a header that waits for its folders keeps of itself. -/
def SameHeader (a b : RawNextHeader) : Prop :=
  a.isComplete = b.isComplete ∧ (b.isComplete → a = b)

theorem sameHeader_refl (a : RawNextHeader) : SameHeader a a := ⟨rfl, fun _ => rfl⟩

theorem parseMainStreams_headerBytes {headerBytes : Bytes} (headerBytes' : Bytes) {id : UInt8}
    {properties : List RawProperty} {additional : Option RawStreamsInfo} {state : ParseState}
    {limits : Limits} {external : Option ExternalFolderData} {reader next : BoundedReader}
    {header : RawNextHeader} {state' : ParseState}
    (h : (Raw.parseMainStreams headerBytes id properties additional state limits external
      reader).result = .ok ((header, state'), next)) :
    ∃ header', (Raw.parseMainStreams headerBytes' id properties additional state limits external
        reader).result = .ok ((header', state'), next) ∧ SameHeader header' header := by
  unfold Raw.parseMainStreams at h ⊢
  by_cases hid : id = idMainStreamsInfo
  · rw [if_pos hid] at h ⊢
    obtain ⟨⟨parsed, mid⟩, r, hstreams, hrest⟩ := Cursor.bind_eq_ok.mp h
    cases parsed with
    | complete info =>
        exact ⟨header, Cursor.bind_eq_ok.mpr ⟨_, r, hstreams, hrest⟩, sameHeader_refl _⟩
    | external pack dataIndex =>
        cases additional with
        | none => exact absurd hrest (by simp [Cursor.result_lift, Except.map])
        | some additional =>
            obtain ⟨⟨rfl, rfl⟩, rfl⟩ : (RawNextHeader.externalFolders
                ⟨additional, pack, dataIndex, headerBytes⟩ = header ∧ mid = state') ∧ r = next := by
              simpa using Except.ok.inj hrest
            exact ⟨_, Cursor.bind_eq_ok.mpr ⟨_, r, hstreams, rfl⟩, rfl,
              fun hc => absurd hc Bool.false_ne_true⟩
  · rw [if_neg hid] at h ⊢
    exact ⟨header, h, sameHeader_refl _⟩

/-- The bytes handed along only show in a header that waits for its folders. -/
theorem parseNextHeaderBody_headerBytes {bytes : Bytes} (bytes' : Bytes) {state state' : ParseState}
    {limits : Limits} {external : Option ExternalFolderData} {reader next : BoundedReader}
    {header : RawNextHeader}
    (h : (Raw.parseNextHeaderBody bytes state limits external reader).result
      = .ok ((header, state'), next)) :
    ∃ header', (Raw.parseNextHeaderBody bytes' state limits external reader).result
        = .ok ((header', state'), next) ∧ SameHeader header' header := by
  unfold Raw.parseNextHeaderBody at h ⊢
  obtain ⟨kind, r, hkind, hbody⟩ := Cursor.bind_eq_ok.mp h
  by_cases hheader : kind = idHeader
  · rw [if_pos hheader] at hbody
    obtain ⟨id, r₁, h₁, hbody⟩ := Cursor.bind_eq_ok.mp hbody
    obtain ⟨⟨properties, id₂, state₂⟩, r₂, h₂, hbody⟩ := Cursor.bind_eq_ok.mp hbody
    obtain ⟨⟨additional, id₃, state₃⟩, r₃, h₃, hbody⟩ := Cursor.bind_eq_ok.mp hbody
    obtain ⟨header', hmain, hsame⟩ := parseMainStreams_headerBytes bytes' hbody
    refine ⟨header', Cursor.bind_eq_ok.mpr ⟨kind, r, hkind, ?_⟩, hsame⟩
    rw [if_pos hheader]
    exact Cursor.bind_eq_ok.mpr ⟨id, r₁, h₁, Cursor.bind_eq_ok.mpr ⟨_, r₂, h₂,
      Cursor.bind_eq_ok.mpr ⟨_, r₃, h₃, hmain⟩⟩⟩
  · rw [if_neg hheader] at hbody
    refine ⟨header, Cursor.bind_eq_ok.mpr ⟨kind, r, hkind, ?_⟩, sameHeader_refl _⟩
    rw [if_neg hheader]
    exact hbody

theorem finish_eq_ok {reader : BoundedReader} {detail : String} {u : Unit} :
    (finish reader detail).result = .ok u ↔ reader.remaining = [] := by
  have hle := reader.position_le
  unfold finish
  rw [BoundedReader.remaining, List.drop_eq_nil_iff]
  by_cases h : reader.position = reader.bytes.length
  · rw [if_pos h]
    exact ⟨fun _ => Nat.le_of_eq h.symm, fun _ => rfl⟩
  · rw [if_neg h]
    exact ⟨fun hc => absurd hc (by simp), fun hc => absurd (Nat.le_antisymm hle hc) h⟩

/-- What is accepted was read by the body, to the end unless it waits for its folders. -/
theorem parseNextHeader_body {word : Bytes} {state state' : ParseState} {limits : Limits}
    {next : RawNextHeader}
    (h : (Raw.parseNextHeader word state limits).result = .ok (next, state')) :
    ∃ reader : BoundedReader,
      (Raw.parseNextHeaderBody word state limits none (BoundedReader.new word)).result
        = .ok ((next, state'), reader) ∧ (next.isComplete → reader.remaining = []) := by
  simp only [Raw.parseNextHeader, Raw.parseNextHeaderInner, Metered.bind_eq_ok, StateT.run,
    Prod.exists] at h
  obtain ⟨_, -, read, mid, reader, hbody, hlast⟩ := h
  cases read with
  | externalFolders pending =>
      obtain ⟨rfl, rfl⟩ : RawNextHeader.externalFolders pending = next ∧ mid = state' := by
        simpa using Except.ok.inj hlast
      exact ⟨reader, hbody, fun hc => absurd hc Bool.false_ne_true⟩
  | header header =>
      obtain ⟨u, hfinish, hpure⟩ := Metered.bind_eq_ok.mp hlast
      obtain ⟨rfl, rfl⟩ : RawNextHeader.header header = next ∧ mid = state' := by
        simpa using Except.ok.inj hpure
      exact ⟨reader, hbody, fun _ => finish_eq_ok.mp hfinish⟩
  | encoded streams =>
      obtain ⟨u, hfinish, hpure⟩ := Metered.bind_eq_ok.mp hlast
      obtain ⟨rfl, rfl⟩ : RawNextHeader.encoded streams = next ∧ mid = state' := by
        simpa using Except.ok.inj hpure
      exact ⟨reader, hbody, fun _ => finish_eq_ok.mp hfinish⟩

/-- A word of the grammar is read to its end, and accepted as the header it stands for. -/
theorem parseNextHeader_of_mem {next : RawNextHeader} {word : Bytes} {state : ParseState}
    {limits : Limits} (hword : word ∈ Grammar.nextHeader next) (hcounted : next.WellCounted)
    (hlimits : next.WithinLimits state limits) (hlength : word.length < 2 ^ 64) :
    (Raw.parseNextHeader word state limits).result = .ok (next, state + next.totals) := by
  obtain ⟨reader, hrun, -, hend⟩ := parses_nextHeaderBody word none hcounted
    hlimits word hword (BoundedReader.new word) [] hlength (List.append_nil word).symm
  have hbody : ((Raw.parseNextHeaderBody word state limits none).run
      (BoundedReader.new word)).result = .ok ((next, state + next.totals), reader) := hrun
  have hfinish : (finish reader "next-header body was not consumed exactly").result = .ok () :=
    finish_eq_ok.mpr hend
  rw [Raw.parseNextHeader, Raw.parseNextHeaderInner,
    Metered.result_bind_ok (checkLimit_of_le hlimits.recursion _), Metered.result_bind_ok hbody]
  cases next with
  | externalFolders pending => exact hcounted.elim
  | header header => exact Metered.result_bind_ok hfinish
  | encoded streams => exact Metered.result_bind_ok hfinish

/-- No proper prefix and no proper extension of an accepted header is accepted. -/
theorem parseNextHeader_prefixFree {word other : Bytes} {state state' : ParseState}
    {limits : Limits} {next : RawNextHeader} {a : RawNextHeader × ParseState}
    (hcomplete : next.isComplete)
    (hword : (Raw.parseNextHeader word state limits).result = .ok (next, state'))
    (hlength : word.length < 2 ^ 64) (hother : other.length < 2 ^ 64)
    (hpre : other <+: word ∨ word <+: other)
    (ha : (Raw.parseNextHeader other state limits).result = .ok a) : other = word := by
  obtain ⟨reader, hbody, hend⟩ := parseNextHeader_body hword
  obtain ⟨hshort, hlong⟩ := (local_parseNextHeaderBody word state limits none).complete
    (s := BoundedReader.new word) hlength hbody (hend hcomplete)
  obtain ⟨reader', hbody', hend'⟩ := parseNextHeader_body ha
  obtain ⟨header, hswap, hsame, -⟩ := parseNextHeaderBody_headerBytes word hbody'
  by_contra hne
  rcases hpre with hpre | ⟨tail, htail⟩
  · obtain ⟨e, he⟩ := hshort (BoundedReader.new other) hother hpre hne
    rw [hswap] at he
    exact absurd he (by simp)
  · obtain ⟨last, hrun, hlast⟩ := hlong (BoundedReader.new other) tail hother htail.symm
    rw [hswap] at hrun
    obtain ⟨⟨rfl, -⟩, rfl⟩ : (header = next ∧ a.2 = state') ∧ reader' = last := by
      simpa using Except.ok.inj hrun
    have hnil : tail = [] := hlast.symm.trans (hend' (hsame ▸ hcomplete))
    exact hne (by rw [← htail, hnil, List.append_nil])

/--
**The parser is its grammar.** Whatever the control, as long as it pays for the run, a
word of a well-counted header within the limits is parsed to that header; and under any
two controls, of two inputs one of which is a prefix of the other, the parser accepts at
most one if it accepts one of them as a complete header.
-/
theorem parseNextHeader_exact (state : ParseState) (limits : Limits) :
    (∀ (next : RawNextHeader) (word : Bytes), word ∈ Grammar.nextHeader next →
      next.WellCounted → next.WithinLimits state limits → word.length < 2 ^ 64 →
      ∀ control : ParseControl, control.Covers (Raw.parseNextHeader word state limits).cost →
        ∃ state' control',
          (Raw.parseNextHeader word state limits).run control = (.ok (next, state'), control')) ∧
    ∀ (word : Bytes) (next : RawNextHeader) (state' : ParseState) (control control' : ParseControl),
      (Raw.parseNextHeader word state limits).run control = (.ok (next, state'), control') →
      next.isComplete → word.length < 2 ^ 64 →
      ∀ (other : Bytes) (control'' : ParseControl), other.length < 2 ^ 64 → other ≠ word →
        (other <+: word ∨ word <+: other) →
        ∃ e last, (Raw.parseNextHeader other state limits).run control'' = (.error e, last) := by
  refine ⟨fun next word hword hcounted hlimits hlength control hcovers => ?_,
    fun word next state' control control' hrun hcomplete hlength other control'' hother hne
      hpre => ?_⟩
  · have hresult := parseNextHeader_of_mem hword hcounted hlimits hlength
    exact ⟨_, _, by rw [(Raw.parseNextHeader word state limits).pays control hcovers, hresult]⟩
  · have hword := (Metered.result_of_run_ok hrun).1
    rcases hout : (Raw.parseNextHeader other state limits).run control'' with ⟨a | e, last⟩
    · exact ⟨a, last, rfl⟩
    · have ha := (Metered.result_of_run_ok hout).1
      exact absurd (parseNextHeader_prefixFree hcomplete hword hlength hother hpre ha) hne

/-- An encoded header whose packed streams have a position, a count, and one digest. -/
def digestHeader : RawNextHeader := .encoded ⟨some ⟨0, 1, none, some [some 0x04030201]⟩, none, none⟩

def digestWord : Bytes := [0x17, 0x06, 0x00, 0x01, 0x0a, 0x01, 0x01, 0x02, 0x03, 0x04, 0x00, 0x00]

theorem digestWord_mem : digestWord ∈ Grammar.nextHeader digestHeader := by
  have hzero : [0x00] ∈ Grammar.uint 0 := ⟨0, by decide, by decide, by decide⟩
  have hone : [0x01] ∈ Grammar.uint 1 := ⟨0, by decide, by decide, by decide⟩
  have hflag : [0x01] ∈ Grammar.definedness [true] := Or.inl ⟨1, by decide, rfl⟩
  have hdigest : [0x01, 0x02, 0x03, 0x04] ∈
      (([some 0x04030201].filterMap id).map Grammar.u32).prod := by
    simp only [List.filterMap_cons, id, List.filterMap_nil, List.map_cons, List.map_nil,
      List.prod_cons, List.prod_nil, mul_one]
    exact rfl
  have hcrc : [0x0a, 0x01, 0x01, 0x02, 0x03, 0x04] ∈
      Grammar.announced idCrc (some [some 0x04030201]) Grammar.digests :=
    Language.append_mem_mul (a := [0x0a]) rfl (Language.append_mem_mul hflag hdigest)
  have hpack : [0x00, 0x01, 0x0a, 0x01, 0x01, 0x02, 0x03, 0x04, 0x00] ∈
      Grammar.packInfo ⟨0, 1, none, some [some 0x04030201]⟩ :=
    Language.append_mem_mul (Language.append_mem_mul (Language.append_mem_mul
      (Language.append_mem_mul hzero hone) Language.nil_mem_one) hcrc) rfl
  have hstreams : [0x06, 0x00, 0x01, 0x0a, 0x01, 0x01, 0x02, 0x03, 0x04, 0x00, 0x00] ∈
      Grammar.streamsInfo ⟨some ⟨0, 1, none, some [some 0x04030201]⟩, none, none⟩ :=
    Language.append_mem_mul (Language.append_mem_mul (Language.append_mem_mul
      (Language.append_mem_mul (l := Grammar.byte 0x06) (a := [0x06]) rfl hpack)
      Language.nil_mem_one) Language.nil_mem_one) (m := Grammar.byte idEnd) rfl
  exact Language.append_mem_mul (l := Grammar.byte 0x17) (a := [0x17]) rfl hstreams

theorem parseNextHeader_exact_digestWord :
    (∃ state' control', (Raw.parseNextHeader digestWord {} {}).run (.uncancelled .unlimited)
      = (.ok (digestHeader, state'), control')) ∧
    ∀ control, ∃ e last,
      (Raw.parseNextHeader (digestWord ++ [0x00]) {} {}).run control = (.error e, last) := by
  obtain ⟨hround, hfree⟩ := parseNextHeader_exact {} {}
  have hcounted : digestHeader.WellCounted :=
    ⟨by rintro pack ⟨⟩; exact ⟨by decide, by simp, by simp⟩, by simp, by simp⟩
  have hlimits : digestHeader.WithinLimits {} {} :=
    ⟨by decide, by rintro header ⟨⟩, by rintro streams ⟨⟩ unpack ⟨⟩,
      ⟨by decide, by decide, by decide, by decide, by decide, by decide⟩⟩
  have hcovers : (ParseControl.uncancelled .unlimited).Covers
      (Raw.parseNextHeader digestWord {} {}).cost :=
    ⟨by rintro n ⟨⟩, by rintro r ⟨⟩, by decide⟩
  obtain ⟨state', control', hrun⟩ :=
    hround digestHeader digestWord digestWord_mem hcounted hlimits (by decide) _ hcovers
  exact ⟨⟨state', control', hrun⟩, fun control =>
    hfree digestWord digestHeader state' _ control' hrun rfl (by decide) (digestWord ++ [0x00])
      control (by decide) (by decide) (Or.inr ⟨[0x00], rfl⟩)⟩

end Un7z
