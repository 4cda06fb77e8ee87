/-
Folder definitions that stand in another stream.

The header up to the byte that says where the folders are is its stem, and what stands
behind the folders is its tail.  Both are read the same whether the folders come out of
the header or out of another stream: the stem because the parser has not yet looked at
the difference, and the tail because a `Local` parser depends on the bytes ahead of it
and on nothing else.

What a stem is, and what are folder records, does not depend on limits or on what has
been counted so far.  So both are words that are read under *some* limits, and `Alike`
says that other limits make no other word of them.
-/
import Un7z.Proofs.HeaderGrammar

namespace Un7z

open Cursor (Decodes Local Alike)

/-! ### Limits refuse, and change nothing else -/

/-- The same up to running totals. -/
def SameValue {α : Type} (a b : α × ParseState) : Prop := a.1 = b.1

/-- The same up to running totals, and so is the identifier that follows. -/
def SameSection {α : Type} (a b : α × UInt8 × ParseState) : Prop := a.1 = b.1 ∧ a.2.1 = b.2.1

variable (limits limits' : Limits) (state state' : ParseState)

theorem alike_formatErr {α β : Type} {R : α → β → Prop} (detail : String) :
    Alike R (liftM (formatErr detail : Work α) : Reads α)
      (liftM (formatErr detail : Work β) : Reads β) :=
  Alike.lift fun _ _ h => absurd h (by simp)

theorem alike_parsePackInfo :
    Alike SameValue (Raw.parsePackInfo state limits) (Raw.parsePackInfo state' limits') := by
  refine Alike.next fun position => Alike.next fun streams =>
    Alike.ite (alike_formatErr _) (Alike.checked fun _ _ => Alike.next fun id => Alike.next ?_)
  rintro ⟨sizes, id⟩
  refine Alike.next ?_
  rintro ⟨crcs, id⟩
  exact Alike.ite (alike_formatErr _) (Alike.pure rfl)

theorem alike_parseCoderProperties (flags : UInt8) :
    Alike Eq (Raw.parseCoderProperties flags limits) (Raw.parseCoderProperties flags limits') :=
  Alike.ite (Alike.next fun _ => Alike.checked fun _ _ => Alike.refl _) (Alike.refl _)

theorem alike_parseCoder : Alike Eq (Raw.parseCoder limits) (Raw.parseCoder limits') := by
  refine Alike.next fun flags => Alike.ite (Alike.refl _) (Alike.ite (Alike.refl _)
    (Alike.ite (Alike.refl _) (Alike.next fun methodId => Alike.next ?_)))
  rintro ⟨inputStreams, outputStreams⟩
  refine (alike_parseCoderProperties limits limits' flags).bind ?_
  rintro properties _ rfl
  exact Alike.refl _

theorem alike_parseCoders (count : Nat) : ∀ inputStreams outputStreams,
    Alike Eq (Raw.parseCoders limits count inputStreams outputStreams)
      (Raw.parseCoders limits' count inputStreams outputStreams) := by
  induction count with
  | zero => exact fun _ _ => Alike.refl _
  | succ count ih =>
      intro inputStreams outputStreams
      refine (alike_parseCoder limits limits').bind ?_
      rintro coder _ rfl
      refine Alike.next fun inputStreams => Alike.next fun outputStreams => (ih _ _).bind ?_
      rintro rest _ rfl
      exact Alike.refl _

theorem alike_parseFolder :
    Alike SameValue (Raw.parseFolder state limits) (Raw.parseFolder state' limits') := by
  refine Alike.next fun coderCount => Alike.ite (alike_formatErr _) (Alike.checked fun _ _ =>
    Alike.checked fun _ _ => (alike_parseCoders limits limits' coderCount 0 0).bind ?_)
  rintro ⟨coders, inputStreams, outputStreams⟩ _ rfl
  refine Alike.next fun folderStreams => Alike.checked fun _ _ => Alike.checked fun _ _ =>
    Alike.ite (alike_formatErr _) (Alike.next fun bindCount => Alike.next fun bindPairs =>
      Alike.next fun packedStreams => Alike.ite (alike_formatErr _) ?_)
  exact Alike.next fun packedIndices => Alike.pure rfl

theorem alike_parseFolders (count : Nat) : ∀ state state',
    Alike SameValue (Raw.parseFolders limits count state)
      (Raw.parseFolders limits' count state') := by
  induction count with
  | zero => exact fun _ _ => Alike.pure rfl
  | succ count ih =>
      intro state state'
      refine (alike_parseFolder limits limits' state state').bind ?_
      rintro ⟨folder, next⟩ ⟨_, next'⟩ ⟨⟩
      refine (ih next next').bind ?_
      rintro ⟨folders, last⟩ ⟨_, last'⟩ ⟨⟩
      exact Alike.pure rfl

theorem alike_parseUnpackInfo :
    Alike SameValue (Raw.parseUnpackInfo state limits none)
      (Raw.parseUnpackInfo state' limits' none) := by
  refine Alike.next fun id => Alike.ite (alike_formatErr _) (Alike.next fun folderCount =>
    Alike.ite (alike_formatErr _) (Alike.checked fun counted counted' => Alike.next fun _ =>
      Alike.next fun external => Alike.ite ?_ (Alike.next fun dataIndex => Alike.pure rfl)))
  refine (alike_parseFolders limits limits' folderCount counted counted').bind ?_
  rintro ⟨folders, last⟩ ⟨_, last'⟩ ⟨⟩
  exact Alike.next fun info => Alike.pure rfl

theorem alike_parseSubstreamsInfo (unpack : RawUnpackInfo) :
    Alike SameValue (Raw.parseSubstreamsInfo unpack state limits)
      (Raw.parseSubstreamsInfo unpack state' limits') := by
  refine Alike.next fun id => Alike.next ?_
  rintro ⟨counts, id⟩
  refine Alike.next ?_
  rintro ⟨totalSubstreams, explicitSizeCount⟩
  refine Alike.checked fun _ _ => Alike.next ?_
  rintro ⟨explicitSizes, id⟩
  refine Alike.next fun digestCount => Alike.next ?_
  rintro ⟨crcs, id⟩
  exact Alike.ite (alike_formatErr _) (Alike.pure rfl)

theorem alike_parseSubstreamsSection (id : UInt8) (unpack : Option RawUnpackInfo) :
    Alike SameSection (Raw.parseSubstreamsSection id unpack state limits)
      (Raw.parseSubstreamsSection id unpack state' limits') := by
  cases unpack with
  | none => exact Alike.ite (alike_formatErr _) (Alike.pure ⟨rfl, rfl⟩)
  | some unpackInfo =>
      refine Alike.ite ((alike_parseSubstreamsInfo limits limits' state state' unpackInfo).bind ?_)
        (Alike.checked fun _ _ => Alike.pure ⟨rfl, rfl⟩)
      rintro ⟨value, last⟩ ⟨_, last'⟩ ⟨⟩
      exact Alike.next fun next => Alike.pure ⟨rfl, rfl⟩

theorem alike_parseStreamsTail (id : UInt8) (pack : Option RawPackInfo)
    (unpack : Option RawUnpackInfo) :
    Alike SameValue (Raw.parseStreamsTail id pack unpack state limits)
      (Raw.parseStreamsTail id pack unpack state' limits') := by
  refine (alike_parseSubstreamsSection limits limits' state state' id unpack).bind ?_
  rintro ⟨substreams, next, last⟩ ⟨_, _, last'⟩ ⟨⟨⟩, ⟨⟩⟩
  exact Alike.ite (alike_formatErr _) (Alike.pure rfl)

theorem alike_parsePackSection (id : UInt8) :
    Alike SameSection (Raw.parsePackSection id state limits)
      (Raw.parsePackSection id state' limits') := by
  refine Alike.ite ((alike_parsePackInfo limits limits' state state').bind ?_)
    (Alike.pure ⟨rfl, rfl⟩)
  rintro ⟨value, last⟩ ⟨_, last'⟩ ⟨⟩
  exact Alike.next fun next => Alike.pure ⟨rfl, rfl⟩

theorem alike_parseStreamsInfo :
    Alike SameValue (Raw.parseStreamsInfo state limits none)
      (Raw.parseStreamsInfo state' limits' none) := by
  refine Alike.next fun id =>
    (alike_parsePackSection limits limits' state state' id).bind ?_
  rintro ⟨pack, next, packed⟩ ⟨_, _, packed'⟩ ⟨⟨⟩, ⟨⟩⟩
  refine Alike.ite ?_ (alike_parseStreamsTail limits limits' packed packed' next pack none)
  refine (alike_parseUnpackInfo limits limits' packed packed').bind ?_
  rintro ⟨parsed, unpacked⟩ ⟨_, unpacked'⟩ ⟨⟩
  cases parsed with
  | complete info =>
      exact Alike.next fun last =>
        alike_parseStreamsTail limits limits' unpacked unpacked' last pack (some info)
  | external dataIndex => exact Alike.pure rfl

theorem alike_parsePropertyListFrom (fuel : Nat) : ∀ state state',
    Alike SameValue (Raw.parsePropertyListFrom limits fuel state)
      (Raw.parsePropertyListFrom limits' fuel state') := by
  induction fuel with
  | zero => exact fun _ _ => Alike.next fun _ => alike_formatErr _
  | succ fuel ih =>
      intro state state'
      refine Alike.next fun id => Alike.ite (Alike.pure rfl) (Alike.checked fun counted counted' =>
        Alike.next fun length => Alike.checked fun _ _ => Alike.next fun data =>
          (ih counted counted').bind ?_)
      rintro ⟨properties, last⟩ ⟨_, last'⟩ ⟨⟩
      exact Alike.pure rfl

theorem alike_parsePropertyList :
    Alike SameValue (Raw.parsePropertyList state limits) (Raw.parsePropertyList state' limits') :=
  fun reader => alike_parsePropertyListFrom limits limits' _ state state' reader

theorem alike_parseArchiveProperties (id : UInt8) :
    Alike SameSection (Raw.parseArchiveProperties id state limits)
      (Raw.parseArchiveProperties id state' limits') := by
  refine Alike.ite ((alike_parsePropertyList limits limits' state state').bind ?_)
    (Alike.pure ⟨rfl, rfl⟩)
  rintro ⟨properties, last⟩ ⟨_, last'⟩ ⟨⟩
  exact Alike.next fun next => Alike.pure ⟨rfl, rfl⟩

theorem alike_parseAdditionalStreams (id : UInt8) :
    Alike SameSection (Raw.parseAdditionalStreams id state limits)
      (Raw.parseAdditionalStreams id state' limits') := by
  refine Alike.ite ((alike_parseStreamsInfo limits limits' state state').bind ?_)
    (Alike.pure ⟨rfl, rfl⟩)
  rintro ⟨parsed, last⟩ ⟨_, last'⟩ ⟨⟩
  cases parsed with
  | complete streams => exact Alike.next fun next => Alike.pure ⟨rfl, rfl⟩
  | external pack dataIndex => exact alike_formatErr _

/-! ### Stem and tail -/

/-- What a header has told when it comes to where its main folders are. -/
structure Stem where
  archiveProperties : List RawProperty
  additionalStreams : Option RawStreamsInfo
  mainPack : Option RawPackInfo
  folderCount : Nat

/-- The main streams up to the byte that says where their folders are. -/
def parseMainStem (archiveProperties : List RawProperty)
    (additionalStreams : Option RawStreamsInfo) (state : ParseState) (limits : Limits) :
    Reads (Stem × ParseState) := do
  let id ← Raw.readU8
  let (pack, id, state) ← Raw.parsePackSection id state limits
  if id ≠ idUnpackInfo then
    formatErr "no folders"
  else
    let id ← Raw.readU8
    if id ≠ idFolder then
      formatErr "no folders"
    else
      let folderCount ← Raw.readUint
      if folderCount = 0 then
        formatErr "no folders"
      else
        let state ← state.addFolders folderCount limits
        checkpoint folderCount
        pure (⟨archiveProperties, additionalStreams, pack, folderCount⟩, state)

/-- A next header up to the byte that says where the folders of its main streams are. -/
def parseStem (state : ParseState) (limits : Limits) : Reads (Stem × ParseState) := do
  let kind ← Raw.readU8
  if kind ≠ idHeader then
    formatErr "no plain header"
  else
    let id ← Raw.readU8
    let (archiveProperties, id, state) ← Raw.parseArchiveProperties id state limits
    let (additionalStreams, id, state) ← Raw.parseAdditionalStreams id state limits
    if id ≠ idMainStreamsInfo then
      formatErr "no main streams"
    else
      parseMainStem archiveProperties additionalStreams state limits

/-- `parse_unpack_info` from that byte on. -/
def parseDefinitions (folderCount : Nat) (state : ParseState) (limits : Limits)
    (externalFolders : Option ExternalFolderData) : Reads (ParsedUnpackInfo × ParseState) := do
  let external ← Raw.readU8
  if external = 0 then
    let (folders, state) ← Raw.parseFolders limits folderCount state
    let info ← Raw.parseUnpackInfoTail folderCount folders
    pure (.complete info, state)
  else
    let dataIndex ← Raw.readUint
    match externalFolders with
    | none => pure (.external dataIndex, state)
    | some source =>
        if source.dataIndex ≠ dataIndex then
          formatErr "external folder data index changed during header resolution"
        else
          let (folders, state) ← Raw.parseExternalFolders source folderCount state limits
          let info ← Raw.parseUnpackInfoTail folderCount folders
          pure (.complete info, state)

/-- The main streams behind their folders. -/
def parseMainTail (stem : Stem) (info : RawUnpackInfo) (state : ParseState) (limits : Limits) :
    Reads (ParsedStreamsInfo × ParseState) := do
  let id ← Raw.readU8
  Raw.parseStreamsTail id stem.mainPack (some info) state limits

/-- `parse_streams_info` behind `parse_unpack_info`. -/
def parseUnpackRest (stem : Stem) (limits : Limits) :
    ParsedUnpackInfo × ParseState → Reads (ParsedStreamsInfo × ParseState)
  | (.complete info, state) => parseMainTail stem info state limits
  | (.external dataIndex, state) => pure (.external stem.mainPack dataIndex, state)

/-- `parse_header_body` behind the main streams. -/
def parseMainRest (headerBytes : Bytes) (stem : Stem) (limits : Limits) :
    ParsedStreamsInfo × ParseState → Reads (RawNextHeader × ParseState)
  | (.complete streams, state) => do
      let id ← Raw.readU8
      Raw.parseHeaderTail id stem.archiveProperties stem.additionalStreams (some streams) state
        limits
  | (.external pack dataIndex, state) =>
      match stem.additionalStreams with
      | some additionalStreams =>
          pure (.externalFolders ⟨additionalStreams, pack, dataIndex, headerBytes⟩, state)
      | none => formatErr "external folder definitions require AdditionalStreamsInfo"

/-- The header behind its folder definitions. -/
def parseBehindFolders (stem : Stem) (limits : Limits)
    (folders : List RawFolder × ParseState) : Reads (RawNextHeader × ParseState) := do
  let info ← Raw.parseUnpackInfoTail stem.folderCount folders.1
  let streams ← parseMainTail stem info folders.2 limits
  parseMainRest [] stem limits streams

theorem local_parseBehindFolders (stem : Stem) (folders : List RawFolder × ParseState) :
    Local (parseBehindFolders stem limits folders) := by
  refine (local_parseUnpackInfoTail _ _).bind fun info => Local.bind
    (local_chargedU8.bind fun _ => local_parseStreamsTail _ _ _ _ _) ?_
  rintro ⟨parsed, _⟩
  cases parsed with
  | complete streams => exact local_chargedU8.bind fun _ => local_parseHeaderTail _ _ _ _ _ _
  | external pack dataIndex =>
      unfold parseMainRest
      cases stem.additionalStreams with
      | none => exact Local.lift _
      | some additionalStreams => exact Local.pure _

variable {limits limits' : Limits} {state state' : ParseState}

theorem parseStreamsTail_complete {id : UInt8} {pack : Option RawPackInfo}
    {unpack : Option RawUnpackInfo} {reader next : BoundedReader} {parsed : ParsedStreamsInfo}
    {last : ParseState}
    (h : (Raw.parseStreamsTail id pack unpack state limits reader).result
      = .ok ((parsed, last), next)) :
    ∃ streams, parsed = .complete streams := by
  obtain ⟨⟨substreams, id', state'⟩, r, -, h⟩ := Cursor.bind_eq_ok.mp h
  obtain ⟨heq, -⟩ := Cursor.pure_eq_ok.mp (admitted_eq_ok.mp h).2
  exact ⟨_, (congrArg Prod.fst heq).symm⟩

theorem parseHeaderTail_header {id : UInt8} {properties : List RawProperty}
    {additional main : Option RawStreamsInfo} {reader next : BoundedReader}
    {parsed : RawNextHeader} {last : ParseState}
    (h : (Raw.parseHeaderTail id properties additional main state limits reader).result
      = .ok ((parsed, last), next)) :
    ∃ header, parsed = .header header := by
  obtain ⟨⟨files, id', state'⟩, r, -, h⟩ := Cursor.bind_eq_ok.mp h
  obtain ⟨heq, -⟩ := Cursor.pure_eq_ok.mp (admitted_eq_ok.mp h).2
  exact ⟨_, (congrArg Prod.fst heq).symm⟩

/-! ### The stem of what is accepted -/

variable {bytes : Bytes} {externalFolders : Option ExternalFolderData}
  {reader next last : BoundedReader} {stem : Stem} {counted : ParseState}

theorem parseMainStem_of_streamsInfo {properties : List RawProperty}
    {additional : Option RawStreamsInfo} {out : ParsedStreamsInfo × ParseState}
    (h : (Raw.parseStreamsInfo state limits externalFolders reader).result = .ok (out, last))
    (hstem : (parseMainStem properties additional state' limits' reader).result
      = .ok ((stem, counted), next)) :
    ∃ counted, (parseMainStem properties additional state limits reader).result
      = .ok ((stem, counted), next) := by
  obtain ⟨id, r₁, hid, hstem⟩ := Cursor.bind_eq_ok.mp hstem
  obtain ⟨⟨pack, id', packed'⟩, r₂, hpack', hstem⟩ := Cursor.bind_eq_ok.mp hstem
  obtain ⟨hunpack, hstem⟩ := admitted_eq_ok.mp hstem
  obtain ⟨id'', r₃, hid'', hstem⟩ := Cursor.bind_eq_ok.mp hstem
  obtain ⟨hfolder, hstem⟩ := admitted_eq_ok.mp hstem
  obtain ⟨folderCount, r₄, hcount, hstem⟩ := Cursor.bind_eq_ok.mp hstem
  obtain ⟨hzero, hstem⟩ := admitted_eq_ok.mp hstem
  obtain ⟨added', r₅, hadded', hrest⟩ := Cursor.bind_eq_ok.mp hstem
  obtain ⟨_, r₆, hcheck', hpure⟩ := Cursor.bind_eq_ok.mp hrest
  obtain ⟨-, rfl⟩ := Cursor.lift_eq_ok.mp hadded'
  obtain ⟨-, rfl⟩ := Cursor.lift_eq_ok.mp hcheck'
  obtain ⟨heq, rfl⟩ := Cursor.pure_eq_ok.mp hpure
  obtain ⟨rfl, -⟩ := Prod.mk.inj heq
  -- the same reads, under the other limits
  obtain ⟨_, _, hidB, h⟩ := Cursor.bind_eq_ok.mp h
  obtain ⟨rfl, rfl⟩ := Cursor.ok_unique hidB hid
  obtain ⟨⟨_, _, packed⟩, _, hpack, h⟩ := Cursor.bind_eq_ok.mp h
  obtain ⟨⟨rfl, rfl⟩, rfl⟩ :=
    alike_parsePackSection limits limits' state state' _ _ _ _ _ _ hpack hpack'
  replace h : (Raw.parseUnpackSection _ _ packed limits externalFolders _).result = _ := h
  unfold Raw.parseUnpackSection at h
  rw [if_pos (not_not.mp hunpack)] at h
  obtain ⟨⟨parsed, _⟩, _, hinfo, -⟩ := Cursor.bind_eq_ok.mp h
  obtain ⟨_, _, hidC, hinfo⟩ := Cursor.bind_eq_ok.mp hinfo
  obtain ⟨rfl, rfl⟩ := Cursor.ok_unique hidC hid''
  obtain ⟨-, hinfo⟩ := admitted_eq_ok.mp hinfo
  obtain ⟨_, _, hcountB, hinfo⟩ := Cursor.bind_eq_ok.mp hinfo
  obtain ⟨rfl, rfl⟩ := Cursor.ok_unique hcountB hcount
  obtain ⟨-, hinfo⟩ := admitted_eq_ok.mp hinfo
  obtain ⟨added, _, hadded, hinfo⟩ := Cursor.bind_eq_ok.mp hinfo
  obtain ⟨hresult, rfl⟩ := Cursor.lift_eq_ok.mp hadded
  refine ⟨added, Cursor.bind_eq_ok.mpr ⟨_, _, hid, Cursor.bind_eq_ok.mpr ⟨_, _, hpack,
    admitted_eq_ok.mpr ⟨hunpack, Cursor.bind_eq_ok.mpr ⟨_, _, hid'', admitted_eq_ok.mpr ⟨hfolder,
      Cursor.bind_eq_ok.mpr ⟨_, _, hcount, admitted_eq_ok.mpr ⟨hzero, ?_⟩⟩⟩⟩⟩⟩⟩⟩
  exact Cursor.bind_eq_ok.mpr ⟨added, _, Cursor.lift_eq_ok.mpr ⟨hresult, rfl⟩,
    Cursor.bind_eq_ok.mpr ⟨(), _, Cursor.lift_eq_ok.mpr ⟨result_checkpoint _, rfl⟩,
      Cursor.pure_eq_ok.mpr ⟨rfl, rfl⟩⟩⟩

/-- A header that is accepted has a stem, whatever the limits that say what a stem is. -/
theorem parseStem_of_body {out : RawNextHeader × ParseState}
    (h : (Raw.parseNextHeaderBody bytes state limits externalFolders reader).result
      = .ok (out, last))
    (hstem : (parseStem state' limits' reader).result = .ok ((stem, counted), next)) :
    ∃ counted, (parseStem state limits reader).result = .ok ((stem, counted), next) := by
  obtain ⟨kind, r₁, hkind, hstem⟩ := Cursor.bind_eq_ok.mp hstem
  obtain ⟨hplain, hstem⟩ := admitted_eq_ok.mp hstem
  obtain ⟨id, r₂, hid, hstem⟩ := Cursor.bind_eq_ok.mp hstem
  obtain ⟨⟨properties, id', state₁'⟩, r₃, hproperties', hstem⟩ := Cursor.bind_eq_ok.mp hstem
  obtain ⟨⟨additional, id'', state₂'⟩, r₄, hadditional', hstem⟩ := Cursor.bind_eq_ok.mp hstem
  obtain ⟨hmain, hmainStem⟩ := admitted_eq_ok.mp hstem
  obtain ⟨_, _, hkindB, h⟩ := Cursor.bind_eq_ok.mp h
  obtain ⟨rfl, rfl⟩ := Cursor.ok_unique hkindB hkind
  rw [if_pos (not_not.mp hplain)] at h
  obtain ⟨_, _, hidB, h⟩ := Cursor.bind_eq_ok.mp h
  obtain ⟨rfl, rfl⟩ := Cursor.ok_unique hidB hid
  obtain ⟨⟨_, _, state₁⟩, _, hproperties, h⟩ := Cursor.bind_eq_ok.mp h
  obtain ⟨⟨rfl, rfl⟩, rfl⟩ :=
    alike_parseArchiveProperties limits limits' state state' _ _ _ _ _ _ hproperties hproperties'
  obtain ⟨⟨_, _, state₂⟩, _, hadditional, h⟩ := Cursor.bind_eq_ok.mp h
  obtain ⟨⟨rfl, rfl⟩, rfl⟩ :=
    alike_parseAdditionalStreams limits limits' state₁ state₁' _ _ _ _ _ _ hadditional
      hadditional'
  replace h : (Raw.parseMainStreams bytes _ _ _ state₂ limits externalFolders _).result = _ := h
  unfold Raw.parseMainStreams at h
  rw [if_pos (not_not.mp hmain)] at h
  obtain ⟨_, _, hstreams, -⟩ := Cursor.bind_eq_ok.mp h
  obtain ⟨counted, hstem⟩ := parseMainStem_of_streamsInfo hstreams hmainStem
  exact ⟨counted, Cursor.bind_eq_ok.mpr ⟨_, _, hkind, admitted_eq_ok.mpr ⟨hplain,
    Cursor.bind_eq_ok.mpr ⟨_, _, hid, Cursor.bind_eq_ok.mpr ⟨_, _, hproperties,
      Cursor.bind_eq_ok.mpr ⟨_, _, hadditional, admitted_eq_ok.mpr ⟨hmain, hstem⟩⟩⟩⟩⟩⟩⟩

/-! ### A header around its folders -/

/-- Read folders from some source, and complete them. -/
def completeFolders (folderCount : Nat) (source : Reads (List RawFolder × ParseState)) :
    Reads (ParsedUnpackInfo × ParseState) := do
  let (folders, state) ← source
  let info ← Raw.parseUnpackInfoTail folderCount folders
  pure (.complete info, state)

theorem parseStreamsInfo_of_stem (externalFolders : Option ExternalFolderData)
    {properties : List RawProperty} {additional : Option RawStreamsInfo}
    (hstem : (parseMainStem properties additional state limits reader).result
      = .ok ((stem, counted), next)) :
    stem.archiveProperties = properties ∧ stem.additionalStreams = additional ∧
    (Raw.parseStreamsInfo state limits externalFolders reader).result
      = ((parseDefinitions stem.folderCount counted limits externalFolders >>=
          parseUnpackRest stem limits) next).result := by
  obtain ⟨id, r₁, hid, hstem⟩ := Cursor.bind_eq_ok.mp hstem
  obtain ⟨⟨pack, id', packed⟩, r₂, hpack, hstem⟩ := Cursor.bind_eq_ok.mp hstem
  obtain ⟨hunpack, hstem⟩ := admitted_eq_ok.mp hstem
  obtain ⟨id'', r₃, hid'', hstem⟩ := Cursor.bind_eq_ok.mp hstem
  obtain ⟨hfolder, hstem⟩ := admitted_eq_ok.mp hstem
  obtain ⟨folderCount, r₄, hcount, hstem⟩ := Cursor.bind_eq_ok.mp hstem
  obtain ⟨hzero, hstem⟩ := admitted_eq_ok.mp hstem
  obtain ⟨added, r₅, hadded, hrest⟩ := Cursor.bind_eq_ok.mp hstem
  obtain ⟨_, r₆, hcheck, hpure⟩ := Cursor.bind_eq_ok.mp hrest
  obtain ⟨heq, rfl⟩ := Cursor.pure_eq_ok.mp hpure
  obtain ⟨rfl, rfl⟩ := Prod.mk.inj heq
  have hinfo : (Raw.parseUnpackInfo packed limits externalFolders r₂).result
      = (parseDefinitions folderCount added limits externalFolders r₆).result := by
    rw [Raw.parseUnpackInfo, Cursor.result_bind_ok hid'', if_neg hfolder,
      Cursor.result_bind_ok hcount, if_neg hzero, Cursor.result_bind_ok hadded,
      Cursor.result_bind_ok hcheck]
    rfl
  refine ⟨rfl, rfl, ?_⟩
  rw [Raw.parseStreamsInfo, Cursor.result_bind_ok hid, Cursor.result_bind_ok hpack]
  show (Raw.parseUnpackSection id' pack packed limits externalFolders r₂).result = _
  unfold Raw.parseUnpackSection
  rw [if_pos (not_not.mp hunpack)]
  refine (Cursor.result_bind_congr hinfo).trans ?_
  congr 3

/-- Behind its stem a header is its folder definitions, and what it makes of them. -/
theorem parseNextHeaderBody_of_stem
    (hstem : (parseStem state limits reader).result = .ok ((stem, counted), next)) :
    (Raw.parseNextHeaderBody bytes state limits externalFolders reader).result
      = ((parseDefinitions stem.folderCount counted limits externalFolders >>=
          parseUnpackRest stem limits >>= parseMainRest bytes stem limits) next).result := by
  obtain ⟨kind, r₁, hkind, hstem⟩ := Cursor.bind_eq_ok.mp hstem
  obtain ⟨hplain, hstem⟩ := admitted_eq_ok.mp hstem
  obtain ⟨id, r₂, hid, hstem⟩ := Cursor.bind_eq_ok.mp hstem
  obtain ⟨⟨properties, id', state₁⟩, r₃, hproperties, hstem⟩ := Cursor.bind_eq_ok.mp hstem
  obtain ⟨⟨additional, id'', state₂⟩, r₄, hadditional, hstem⟩ := Cursor.bind_eq_ok.mp hstem
  obtain ⟨hmain, hmainStem⟩ := admitted_eq_ok.mp hstem
  obtain ⟨rfl, rfl, hstreams⟩ := parseStreamsInfo_of_stem externalFolders hmainStem
  rw [Raw.parseNextHeaderBody, Cursor.result_bind_ok hkind, if_pos (not_not.mp hplain),
    Raw.parseHeaderBody, Cursor.result_bind_ok hid, Cursor.result_bind_ok hproperties,
    Cursor.result_bind_ok hadditional]
  show (Raw.parseMainStreams bytes id'' stem.archiveProperties stem.additionalStreams state₂ limits
    externalFolders r₄).result = _
  unfold Raw.parseMainStreams
  rw [if_pos (not_not.mp hmain)]
  refine (Cursor.result_bind_congr hstreams).trans ?_
  congr 3

/-- What stands behind folder definitions is a plain header, wherever they come from. -/
theorem completed_eq_ok {source : Reads (List RawFolder × ParseState)}
    {out : RawNextHeader × ParseState} :
    ((completeFolders stem.folderCount source >>= parseUnpackRest stem limits >>=
        parseMainRest bytes stem limits) reader).result = .ok (out, last) ↔
      ∃ folders mid, (source reader).result = .ok (folders, mid) ∧
        (parseBehindFolders stem limits folders mid).result = .ok (out, last) := by
  simp only [parseBehindFolders, completeFolders, Cursor.bind_eq_ok]
  constructor
  · rintro ⟨streams, r, ⟨info, r', ⟨folders, mid, hsource, unpack, r'', hunpack, hpure⟩, hmain⟩,
      hrest⟩
    obtain ⟨rfl, rfl⟩ := Cursor.pure_eq_ok.mp hpure
    refine ⟨folders, mid, hsource, unpack, r'', hunpack, streams, r, hmain, ?_⟩
    obtain ⟨parsed, streamState⟩ := streams
    obtain ⟨id, _, -, htail⟩ := Cursor.bind_eq_ok.mp hmain
    obtain ⟨info, rfl⟩ := parseStreamsTail_complete htail
    exact hrest
  · rintro ⟨folders, mid, hsource, unpack, r'', hunpack, streams, r, hmain, hrest⟩
    refine ⟨streams, r, ⟨(.complete unpack, folders.2), r'', ⟨folders, mid, hsource, unpack, r'',
      hunpack, rfl⟩, hmain⟩, ?_⟩
    obtain ⟨parsed, streamState⟩ := streams
    obtain ⟨id, _, -, htail⟩ := Cursor.bind_eq_ok.mp hmain
    obtain ⟨info, rfl⟩ := parseStreamsTail_complete htail
    exact hrest

theorem parseBehindFolders_header {folders : List RawFolder × ParseState}
    {out : RawNextHeader × ParseState}
    (h : (parseBehindFolders stem limits folders reader).result = .ok (out, last)) :
    ∃ header, out.1 = .header header := by
  simp only [parseBehindFolders, Cursor.bind_eq_ok] at h
  obtain ⟨unpack, r, -, ⟨parsed, streamState⟩, r', hmain, hrest⟩ := h
  obtain ⟨id, _, -, htail⟩ := Cursor.bind_eq_ok.mp hmain
  obtain ⟨info, rfl⟩ := parseStreamsTail_complete htail
  obtain ⟨id, _, -, hheader⟩ := Cursor.bind_eq_ok.mp hrest
  exact parseHeaderTail_header hheader

/-! ### The two sources -/

/-- Inline folders are read where the header stands. -/
theorem parseDefinitions_inline {tail : Bytes} (n : Nat) (hvalid : Cursor.Valid reader)
    (hrest : Cursor.rest reader = 0 :: tail) :
    ∃ mid : BoundedReader, Cursor.Valid mid ∧ Cursor.rest mid = tail ∧
      (parseDefinitions n state limits externalFolders reader).result
        = (completeFolders n (Raw.parseFolders limits n state) mid).result := by
  obtain ⟨mid, hread, hvalid', hrest'⟩ := parses_readU8 0 [0] rfl reader tail hvalid hrest
  refine ⟨mid, hvalid', hrest', ?_⟩
  rw [parseDefinitions, Cursor.result_bind_ok hread, if_pos rfl]
  rfl

/-- External folders are read elsewhere, and the header goes on behind its data index. -/
theorem parseDefinitions_external {tail indexWord folderBytes : Bytes} {external : UInt8}
    {dataIndex : Nat} (n : Nat) (hexternal : external ≠ 0)
    (hindex : Decodes Raw.readUint indexWord dataIndex) (hvalid : Cursor.Valid reader)
    (hrest : Cursor.rest reader = external :: (indexWord ++ tail)) :
    ∃ mid : BoundedReader, Cursor.Valid mid ∧ Cursor.rest mid = tail ∧
      (parseDefinitions n state limits (some ⟨dataIndex, folderBytes⟩) reader).result
        = (completeFolders n (liftM (Raw.parseExternalFolders ⟨dataIndex, folderBytes⟩ n state
            limits)) mid).result := by
  obtain ⟨r, hread, hvalid', hrest'⟩ := parses_readU8 external [external] rfl reader
    (indexWord ++ tail) hvalid hrest
  obtain ⟨mid, hread', hvalid'', hrest''⟩ := hindex r tail hvalid' hrest'
  refine ⟨mid, hvalid'', hrest'', ?_⟩
  rw [parseDefinitions, Cursor.result_bind_ok hread, if_neg hexternal, Cursor.result_bind_ok hread']
  show ((if dataIndex ≠ dataIndex then _ else _ : Reads _) mid).result = _
  rw [if_neg (not_not.mpr rfl)]
  rfl

/-- The other stream has to be the folders, and nothing else. -/
theorem parseExternalFolders_eq_ok {folderBytes : Bytes} {dataIndex n : Nat}
    {folders : List RawFolder × ParseState} (hlength : folderBytes.length < 2 ^ 64) :
    (Raw.parseExternalFolders ⟨dataIndex, folderBytes⟩ n state limits).result = .ok folders ↔
      Decodes (Raw.parseFolders limits n state) folderBytes folders := by
  have hvalid : Cursor.Valid (BoundedReader.new folderBytes) := hlength
  rw [Raw.parseExternalFolders, Metered.bind_eq_ok]
  constructor
  · rintro ⟨⟨folders', child⟩, hrun, h⟩
    obtain ⟨_, hfinish, hpure⟩ := Metered.bind_eq_ok.mp h
    obtain rfl := Except.ok.inj hpure
    obtain ⟨-, word, hword, hdecodes, -⟩ := local_parseFolders limits n state _ _ _ hvalid hrun
    have hend : Cursor.rest child = [] := finish_eq_ok.mp hfinish
    rw [hend, List.append_nil] at hword
    obtain rfl : folderBytes = word := hword
    exact hdecodes
  · intro hdecodes
    obtain ⟨child, hrun, -, hend⟩ :=
      hdecodes (BoundedReader.new folderBytes) [] hvalid (List.append_nil _).symm
    exact ⟨(folders, child), hrun, Metered.bind_eq_ok.mpr ⟨(), finish_eq_ok.mpr hend, rfl⟩⟩

/-- The bytes are exactly that many folder records. -/
def FolderRecords (n : Nat) (bytes : Bytes) : Prop :=
  ∃ state limits folders, Decodes (Raw.parseFolders limits n state) bytes folders

/-- The bytes are a next header up to where it says that its main folders, so many, are. -/
def FolderStem (n : Nat) (bytes : Bytes) : Prop :=
  ∃ state limits stem counted, stem.folderCount = n ∧
    Decodes (parseStem state limits) bytes (stem, counted)

/-- The words of folders that agree in their counts are records of them. -/
theorem folderRecords_of_mem {folders : List RawFolder} {word : Bytes}
    (hcounted : ∀ f ∈ folders, f.WellCounted) (hlimits : ∀ f ∈ folders, f.WithinLimits limits)
    (hfits : (state + (folders.map (·.totals)).sum).Fits limits)
    (hword : word ∈ (folders.map Grammar.folder).prod) : FolderRecords folders.length word :=
  ⟨state, limits, _, parses_folders folders hcounted hlimits hfits word hword⟩

/-- Two sequences of so many records at one place are the same one. -/
theorem FolderRecords.unique {n : Nat} {folderBytes tail word tail' : Bytes}
    {folders : List RawFolder × ParseState} (hrecords : FolderRecords n folderBytes)
    (hsplit : folderBytes ++ tail = word ++ tail') (hlength : (folderBytes ++ tail).length < 2 ^ 64)
    (hdecodes : Decodes (Raw.parseFolders limits n state) word folders) : folderBytes = word := by
  obtain ⟨state', limits', folders', hdecodes'⟩ := hrecords
  have hvalid : Cursor.Valid (BoundedReader.new (folderBytes ++ tail)) := hlength
  obtain ⟨last, hrun, -, hrest⟩ := hdecodes (BoundedReader.new (folderBytes ++ tail)) tail' hvalid
    hsplit
  obtain ⟨last', hrun', -, hrest'⟩ := hdecodes' (BoundedReader.new (folderBytes ++ tail)) tail
    hvalid rfl
  obtain ⟨-, rfl⟩ := alike_parseFolders limits limits' n state state' _ _ _ _ _ hrun hrun'
  rw [← hrest, hrest'] at hsplit
  exact List.append_cancel_right hsplit

theorem local_parseStem : Local (parseStem state limits) := by
  refine local_chargedU8.bind fun _ => Local.ite (Local.lift _) (local_chargedU8.bind fun id =>
    (local_parseArchiveProperties id state limits).bind ?_)
  rintro ⟨properties, id, state⟩
  refine (local_parseAdditionalStreams id state limits).bind ?_
  rintro ⟨additional, id, state⟩
  refine Local.ite (Local.lift _) (local_chargedU8.bind fun id =>
    (local_parsePackSection id state limits).bind ?_)
  rintro ⟨pack, id, state⟩
  exact Local.ite (Local.lift _) (local_chargedU8.bind fun _ => Local.ite (Local.lift _)
    (local_readUint.bind fun _ => Local.ite (Local.lift _) ((Local.lift _).bind fun _ =>
      (Local.lift _).bind fun _ => Local.pure _)))

/-- A plain header is accepted when its body is read to the end. -/
theorem parseNextHeaderInner_eq_ok {out : RawNextHeader × ParseState}
    (hplain : ∀ out last, (Raw.parseNextHeaderBody bytes state limits externalFolders
      (BoundedReader.new bytes)).result = .ok (out, last) → ∃ header, out.1 = .header header) :
    (Raw.parseNextHeaderInner bytes state limits externalFolders).result = .ok out ↔
      1 ≤ limits.maxRecursionDepth ∧ ∃ last,
        (Raw.parseNextHeaderBody bytes state limits externalFolders
          (BoundedReader.new bytes)).result = .ok (out, last) ∧ Cursor.rest last = [] := by
  rw [Raw.parseNextHeaderInner, Metered.bind_eq_ok]
  constructor
  · rintro ⟨_, hdepth, h⟩
    refine ⟨checkLimit_eq_ok.mp hdepth, ?_⟩
    obtain ⟨⟨⟨next, last⟩, r⟩, hbody, h⟩ := Metered.bind_eq_ok.mp h
    obtain ⟨header, rfl⟩ := hplain _ _ hbody
    obtain ⟨_, hfinish, hpure⟩ := Metered.bind_eq_ok.mp h
    obtain rfl := Except.ok.inj hpure
    exact ⟨r, hbody, finish_eq_ok.mp hfinish⟩
  · rintro ⟨hdepth, r, hbody, hend⟩
    obtain ⟨next, last⟩ := out
    obtain ⟨header, rfl⟩ := hplain _ _ hbody
    exact ⟨(), checkLimit_of_le hdepth _, Metered.bind_eq_ok.mpr ⟨_, hbody,
      Metered.bind_eq_ok.mpr ⟨(), finish_eq_ok.mpr hend, rfl⟩⟩⟩

/--
A header around folders from some source, which is read where `rest₂` lies ahead.

It is accepted when its stem decodes, its folders do, and what stands behind them does.
-/
theorem parseNextHeaderInner_of_source {n : Nat} {head : Bytes} (rest₁ rest₂ : Bytes)
    {source : ParseState → Reads (List RawFolder × ParseState)} {out : RawNextHeader × ParseState}
    (hhead : FolderStem n head) (hbytes : bytes = head ++ rest₁) (hlength : bytes.length < 2 ^ 64)
    (hsource : ∀ counted, Local (source counted))
    (hdefinitions : ∀ (counted : ParseState) (r : BoundedReader), Cursor.Valid r →
      Cursor.rest r = rest₁ → ∃ mid : BoundedReader, Cursor.Valid mid ∧ Cursor.rest mid = rest₂ ∧
        (parseDefinitions n counted limits externalFolders r).result
          = (completeFolders n (source counted) mid).result) :
    (Raw.parseNextHeaderInner bytes state limits externalFolders).result = .ok out ↔
      1 ≤ limits.maxRecursionDepth ∧ ∃ stem counted folders word tail,
        stem.folderCount = n ∧ Decodes (parseStem state limits) head (stem, counted) ∧
        rest₂ = word ++ tail ∧ Decodes (source counted) word folders ∧
        Decodes (parseBehindFolders stem limits folders) tail out := by
  have hvalid : Cursor.Valid (BoundedReader.new bytes) := hlength
  have hrest : Cursor.rest (BoundedReader.new bytes) = head ++ rest₁ := hbytes
  -- behind the stem, the body is the source and what follows the folders
  have hbehind : ∀ {stem counted r}, stem.folderCount = n →
      (parseStem state limits (BoundedReader.new bytes)).result = .ok ((stem, counted), r) →
      Cursor.Valid r → Cursor.rest r = rest₁ → ∃ mid : BoundedReader, Cursor.Valid mid ∧
        Cursor.rest mid = rest₂ ∧ ∀ out last,
          (Raw.parseNextHeaderBody bytes state limits externalFolders
            (BoundedReader.new bytes)).result = .ok (out, last) ↔
          ∃ folders mid', (source counted mid).result = .ok (folders, mid') ∧
            (parseBehindFolders stem limits folders mid').result = .ok (out, last) := by
    rintro stem counted r rfl hstem hr hrest₁
    obtain ⟨mid, hmid, hrest₂, hdefinition⟩ := hdefinitions counted r hr hrest₁
    refine ⟨mid, hmid, hrest₂, fun out last => ?_⟩
    rw [parseNextHeaderBody_of_stem hstem, Cursor.result_bind_congr
      (Cursor.result_bind_congr hdefinition)]
    exact completed_eq_ok
  obtain ⟨state', limits', stem, counted', hcount, hdecodes'⟩ := hhead
  obtain ⟨r, hstem', hr, hrest₁⟩ := hdecodes' (BoundedReader.new bytes) rest₁ hvalid hrest
  have hplain : ∀ out last, (Raw.parseNextHeaderBody bytes state limits externalFolders
      (BoundedReader.new bytes)).result = .ok (out, last) → ∃ header, out.1 = .header header := by
    intro out last hbody
    obtain ⟨counted, hstem⟩ := parseStem_of_body hbody hstem'
    obtain ⟨mid, -, -, hiff⟩ := hbehind hcount hstem hr hrest₁
    obtain ⟨folders, mid', -, htail⟩ := (hiff _ _).mp hbody
    exact parseBehindFolders_header htail
  rw [parseNextHeaderInner_eq_ok hplain]
  refine and_congr_right fun _ => ⟨?_, ?_⟩
  · rintro ⟨last, hbody, hend⟩
    obtain ⟨counted, hstem⟩ := parseStem_of_body hbody hstem'
    obtain ⟨mid, hmid, hrest₂, hiff⟩ := hbehind hcount hstem hr hrest₁
    obtain ⟨folders, mid', hrun, htail⟩ := (hiff _ _).mp hbody
    obtain ⟨-, headWord, hword, hdecodes, -⟩ := local_parseStem _ _ _ hvalid hstem
    obtain ⟨hmid', word, hfolders, hsourced, -⟩ := hsource counted _ _ _ hmid hrun
    obtain ⟨-, tail, htailWord, hbehinds, -⟩ :=
      local_parseBehindFolders limits stem folders _ _ _ hmid' htail
    rw [hrest, hrest₁] at hword
    rw [hend, List.append_nil] at htailWord
    rw [hrest₂, htailWord] at hfolders
    obtain rfl := List.append_cancel_right hword
    exact ⟨stem, counted, folders, word, tail, hcount, hdecodes, hfolders, hsourced, hbehinds⟩
  · rintro ⟨stem, counted, folders, word, tail, hcount, hdecodes, hsplit, hsourced, hbehinds⟩
    obtain ⟨r, hstem, hr, hrest₁⟩ := hdecodes (BoundedReader.new bytes) rest₁ hvalid hrest
    obtain ⟨mid, hmid, hrest₂, hiff⟩ := hbehind hcount hstem hr hrest₁
    obtain ⟨mid', hrun, hmid', htail⟩ := hsourced mid tail hmid (hrest₂.trans hsplit)
    obtain ⟨last, hrun', -, hend⟩ := hbehinds mid' [] hmid' (htail.trans (List.append_nil _).symm)
    exact ⟨last, (hiff _ _).mpr ⟨folders, mid', hrun, hrun'⟩, hend⟩

/-- The other stream is no part of the header, so there all of it has been read already. -/
theorem parseNextHeader_external {n dataIndex : Nat} {head tail indexWord folderBytes : Bytes}
    {external : UInt8} {out : RawNextHeader × ParseState} (hhead : FolderStem n head)
    (hexternal : external ≠ 0) (hindex : Decodes Raw.readUint indexWord dataIndex)
    (hlength : (head ++ external :: (indexWord ++ tail)).length < 2 ^ 64)
    (hfolders : folderBytes.length < 2 ^ 64) :
    (Raw.parseNextHeaderWithExternalFolders (head ++ external :: (indexWord ++ tail)) dataIndex
        folderBytes state limits).result = .ok out ↔
      1 ≤ limits.maxRecursionDepth ∧ ∃ stem counted folders, stem.folderCount = n ∧
        Decodes (parseStem state limits) head (stem, counted) ∧
        Decodes (Raw.parseFolders limits n counted) folderBytes folders ∧
        Decodes (parseBehindFolders stem limits folders) tail out := by
  rw [Raw.parseNextHeaderWithExternalFolders, parseNextHeaderInner_of_source
    (external :: (indexWord ++ tail)) tail hhead rfl hlength
    (fun counted => Local.lift (Raw.parseExternalFolders ⟨dataIndex, folderBytes⟩ n counted limits))
    (fun counted r hr hrest => parseDefinitions_external n hexternal hindex hr hrest)]
  refine and_congr_right fun _ => ⟨?_, ?_⟩
  · rintro ⟨stem, counted, folders, word, tail', hcount, hstem, hsplit, hsource, hbehind⟩
    have hvalid : Cursor.Valid (BoundedReader.new word) := by
      show word.length < 2 ^ 64
      rw [hsplit] at hlength
      simp only [List.length_append, List.length_cons] at hlength
      omega
    obtain ⟨r, hrun, -, hend⟩ := hsource (BoundedReader.new word) [] hvalid
      (List.append_nil _).symm
    obtain ⟨hresult, rfl⟩ := Cursor.lift_eq_ok.mp hrun
    obtain rfl : word = [] := hend
    obtain rfl : tail = tail' := hsplit
    exact ⟨stem, counted, folders, hcount, hstem, (parseExternalFolders_eq_ok hfolders).mp hresult,
      hbehind⟩
  · rintro ⟨stem, counted, folders, hcount, hstem, hdecodes, hbehind⟩
    exact ⟨stem, counted, folders, [], tail, hcount, hstem, rfl,
      Decodes.lift ((parseExternalFolders_eq_ok hfolders).mpr hdecodes), hbehind⟩

theorem parseNextHeader_inline {n : Nat} {head tail folderBytes : Bytes}
    {out : RawNextHeader × ParseState} (hhead : FolderStem n head)
    (hrecords : FolderRecords n folderBytes)
    (hlength : (head ++ 0 :: (folderBytes ++ tail)).length < 2 ^ 64) :
    (Raw.parseNextHeader (head ++ 0 :: (folderBytes ++ tail)) state limits).result = .ok out ↔
      1 ≤ limits.maxRecursionDepth ∧ ∃ stem counted folders, stem.folderCount = n ∧
        Decodes (parseStem state limits) head (stem, counted) ∧
        Decodes (Raw.parseFolders limits n counted) folderBytes folders ∧
        Decodes (parseBehindFolders stem limits folders) tail out := by
  rw [Raw.parseNextHeader, parseNextHeaderInner_of_source
    (0 :: (folderBytes ++ tail)) (folderBytes ++ tail) hhead rfl hlength
    (fun counted => local_parseFolders limits n counted)
    (fun counted r hr hrest => parseDefinitions_inline n hr hrest)]
  refine and_congr_right fun _ => ⟨?_, ?_⟩
  · rintro ⟨stem, counted, folders, word, tail', hcount, hstem, hsplit, hsource, hbehind⟩
    have hshort : (folderBytes ++ tail).length < 2 ^ 64 := by
      rw [List.length_append, List.length_cons] at hlength
      omega
    obtain rfl := hrecords.unique hsplit hshort hsource
    obtain rfl : tail = tail' := List.append_cancel_left hsplit
    exact ⟨stem, counted, folders, hcount, hstem, hsource, hbehind⟩
  · rintro ⟨stem, counted, folders, hcount, hstem, hdecodes, hbehind⟩
    exact ⟨stem, counted, folders, folderBytes, tail, hcount, hstem, rfl, hdecodes, hbehind⟩

/--
**External folder definitions mean the same as inline ones.** A header whose main folders
are in another stream is accepted, with the same header and the same totals, exactly when
it is accepted with the folder records in the place of the stream's index; and it is not
accepted when the stream is anything but these records.
-/
theorem parseNextHeader_externalFolders {n dataIndex : Nat}
    {head tail indexWord folderBytes : Bytes} {external : UInt8} (hhead : FolderStem n head)
    (hexternal : external ≠ 0) (hindex : Decodes Raw.readUint indexWord dataIndex)
    (hheader : (head ++ external :: (indexWord ++ tail)).length < 2 ^ 64)
    (hfolders : folderBytes.length < 2 ^ 64)
    (hinline : (head ++ 0 :: (folderBytes ++ tail)).length < 2 ^ 64)
    (state : ParseState) (limits : Limits) :
    (FolderRecords n folderBytes → ∀ next last,
      (Raw.parseNextHeaderWithExternalFolders (head ++ external :: (indexWord ++ tail)) dataIndex
          folderBytes state limits).result = .ok (next, last) ↔
        (Raw.parseNextHeader (head ++ 0 :: (folderBytes ++ tail)) state limits).result
          = .ok (next, last)) ∧
    (¬ FolderRecords n folderBytes → ∀ out,
      (Raw.parseNextHeaderWithExternalFolders (head ++ external :: (indexWord ++ tail)) dataIndex
        folderBytes state limits).result ≠ .ok out) := by
  refine ⟨fun hrecords next last => ?_, fun hnot out h => hnot ?_⟩
  · rw [parseNextHeader_external hhead hexternal hindex hheader hfolders,
      parseNextHeader_inline hhead hrecords hinline]
  · obtain ⟨-, _, counted, folders, -, -, hdecodes, -⟩ :=
      (parseNextHeader_external hhead hexternal hindex hheader hfolders).mp h
    exact ⟨counted, limits, folders, hdecodes⟩

/-! ### A header with one folder, which copies -/

def copyStem : Bytes := [0x01, 0x04, 0x07, 0x0b, 0x01]

def copyFolder : Bytes := [0x01, 0x01, 0x00]

def copyTail : Bytes := [0x0c, 0x02, 0x00, 0x00, 0x00]

/-- What a local parser uses up, it decodes. -/
theorem decodes_of_run {α : Type} {p : Reads α} {word : Bytes} {a : α} (hp : Local p)
    (hlength : word.length < 2 ^ 64)
    (h : ∃ last, (p (BoundedReader.new word)).result = .ok (a, last) ∧ Cursor.rest last = []) :
    Decodes p word a := by
  obtain ⟨last, hrun, hend⟩ := h
  have hvalid : Cursor.Valid (BoundedReader.new word) := hlength
  obtain ⟨-, word', hword, hdecodes, -⟩ := hp _ _ _ hvalid hrun
  rw [hend, List.append_nil] at hword
  obtain rfl : word = word' := hword
  exact hdecodes

theorem copyStem_stem : FolderStem 1 copyStem :=
  ⟨{}, {}, ⟨[], none, none, 1⟩, { totalFolders := 1 }, rfl,
    decodes_of_run local_parseStem (by decide) ⟨_, rfl, rfl⟩⟩

theorem copyFolder_decodes : Decodes (Raw.parseFolders {} 1 {}) copyFolder
    ([⟨[⟨[0], 1, 1, []⟩], 1, 1, [], 1, none, []⟩], { totalCoders := 1, totalStreams := 2 }) :=
  decodes_of_run (local_parseFolders {} 1 {}) (by decide) ⟨_, rfl, rfl⟩

def copyHeader : RawNextHeader × ParseState :=
  (.header ⟨[], none, some ⟨none, some ⟨[⟨[⟨[0], 1, 1, []⟩], 1, 1, [], 1, none, [2]⟩], none⟩, none⟩,
    none⟩, { totalFolders := 1, totalCoders := 1, totalStreams := 2, totalSubstreams := 1 })

theorem parseNextHeader_externalFolders_copy :
    (Raw.parseNextHeaderWithExternalFolders (copyStem ++ 1 :: ([0] ++ copyTail)) 0 copyFolder
      {} {}).result = .ok copyHeader ∧
    ∀ out, (Raw.parseNextHeaderWithExternalFolders (copyStem ++ 1 :: ([0] ++ copyTail)) 0
      (copyFolder ++ [0]) {} {}).result ≠ .ok out := by
  have hindex : Decodes Raw.readUint [0] 0 := decodes_of_run local_readUint (by decide) ⟨_, rfl, rfl⟩
  have hrecords : FolderRecords 1 copyFolder := ⟨{}, {}, _, copyFolder_decodes⟩
  constructor
  · have hinline : (Raw.parseNextHeader (copyStem ++ 0 :: (copyFolder ++ copyTail)) {} {}).result
        = .ok copyHeader := by decide +kernel
    exact ((parseNextHeader_externalFolders copyStem_stem (by decide) hindex (by decide)
      (by decide) (by decide) {} {}).1 hrecords _ _).mpr hinline
  · refine (parseNextHeader_externalFolders copyStem_stem (by decide) hindex (by decide)
      (by decide) (by decide) {} {}).2 ?_
    rintro ⟨state, limits, folders, hdecodes⟩
    exact absurd (hrecords.unique (List.append_nil (copyFolder ++ [0])).symm (by decide) hdecodes)
      (by decide)

end Un7z
