/-
The dictionary reset of LZMA2.

A chunk that resets the dictionary starts over: no match reaches behind it, and its
probabilities are all new.  What the decoder still keeps is the output before it, and three
of its values come from there.  Two are harmless: the position of a byte only selects
among twins, and the byte that a match would have continued with lies behind the reset.

The third is the byte before, which selects the probabilities of a literal.  For the first
literal after a reset it is the last byte of the output before the reset, where the
decoder of an empty history sees a zero.  So chunks decode as they do alone if the two
select the same context, which is `ClearContext`, and where they do not a later literal may
come out wrong.
-/
import Un7z.Proofs.LzmaHistory

namespace Un7z

namespace Lzma

open Metered (Mirrors)

/-! ### Chunks -/

open Cursor (Decodes Echoes Valid rest)

instance : Cursor SliceCursor UInt8 where
  rest cursor := cursor.bytes.drop cursor.position
  Valid cursor := cursor.position ≤ cursor.bytes.length ∧ cursor.bytes.length < 2 ^ 64

namespace SliceCursor

variable {α β : Type} {ahead : Bytes} {B : α → Prop} {R : α → β → Prop}

/-- A read of a byte, as what it finds. -/
theorem readU8_eq_ok {cursor next : SliceCursor} {byte : UInt8}
    (h : (readU8 cursor).result = .ok (byte, next)) :
    cursor.bytes[cursor.position]? = some byte ∧
      next = { cursor with position := cursor.position + 1 } := by
  obtain ⟨_, _, h⟩ := Metered.bind_eq_ok.mp h
  obtain ⟨found, hfound, h⟩ := Metered.bind_eq_ok.mp h
  obtain ⟨position, hadd, h⟩ := Metered.bind_eq_ok.mp h
  obtain ⟨rfl, rfl⟩ := Prod.mk.inj (Except.ok.inj h)
  obtain ⟨-, rfl⟩ := checkedAdd_eq_some.mp (orFormat_eq_ok.mp hadd)
  exact ⟨orFormat_eq_ok.mp hfound, rfl⟩

theorem decodes_readU8 (byte : UInt8) : Decodes readU8 [byte] byte := by
  intro cursor tail hvalid hrest
  have hbyte : cursor.bytes[cursor.position]? = some byte := by
    rw [← Nat.add_zero cursor.position, ← List.getElem?_drop]
    exact congrArg (·[0]?) hrest
  have hlt : cursor.position < cursor.bytes.length := (List.getElem?_eq_some_iff.mp hbyte).1
  have hlength := hvalid.2
  refine ⟨{ cursor with position := cursor.position + 1 }, ?_, ⟨hlt, hvalid.2⟩, ?_⟩
  · refine Metered.bind_eq_ok.mpr ⟨(), result_checkpoint 1, ?_⟩
    refine Metered.bind_eq_ok.mpr ⟨byte, orFormat_eq_ok.mpr hbyte, ?_⟩
    exact Metered.bind_eq_ok.mpr ⟨cursor.position + 1,
      orFormat_eq_ok.mpr (checkedAdd_of_lt (by omega)), rfl⟩
  · show cursor.bytes.drop (cursor.position + 1) = tail
    rw [← List.drop_drop, show cursor.bytes.drop cursor.position = [byte] ++ tail from hrest]
    rfl

theorem rest_of_getElem? {cursor : SliceCursor} {byte : UInt8}
    (h : cursor.bytes[cursor.position]? = some byte) :
    rest cursor = byte :: rest { cursor with position := cursor.position + 1 } :=
  List.drop_eq_getElem?_toList_append.trans (by rw [h]; rfl)

theorem echoes_readU8 {f : UInt8 → StateT SliceCursor Work α} {g : UInt8 → StateT SliceCursor Work β}
    (h : ∀ byte tail, ahead = byte :: tail → Echoes tail B R (f byte) (g byte)) :
    Echoes ahead B R (readU8 >>= f) (readU8 >>= g) := by
  intro cursor a last hvalid hahead hrun ha
  obtain ⟨byte, next, hread, hrun⟩ := Cursor.bind_eq_ok.mp hrun
  obtain ⟨hbyte, rfl⟩ := readU8_eq_ok hread
  have hrest := hahead.symm.trans (rest_of_getElem? hbyte)
  have hlt := (List.getElem?_eq_some_iff.mp hbyte).1
  obtain ⟨word, b, hlast, hword, hdecodes, hab⟩ :=
    h byte _ hrest { cursor with position := cursor.position + 1 } a last ⟨hlt, hvalid.2⟩ rfl hrun ha
  refine ⟨byte :: word, b, hlast, ?_, (decodes_readU8 byte).bind hdecodes, hab⟩
  rw [hrest, hword]
  rfl

theorem echoes_readU16Be {f : Nat → StateT SliceCursor Work α} {g : Nat → StateT SliceCursor Work β}
    (h : ∀ high low tail, ahead = high :: low :: tail →
      Echoes tail B R (f ((high.toNat <<< 8) ||| low.toNat)) (g ((high.toNat <<< 8) ||| low.toNat))) :
    Echoes ahead B R (readU16Be >>= f) (readU16Be >>= g) := by
  unfold readU16Be
  simp only [bind_assoc, pure_bind]
  refine echoes_readU8 fun high tail hhigh => echoes_readU8 fun low tail' hlow => ?_
  exact h high low tail' (by rw [hhigh, hlow])

theorem decodes_readBytes (word : Bytes) : Decodes (readBytes word.length) word word := by
  intro cursor tail hvalid hrest
  have hrest : cursor.bytes.drop cursor.position = word ++ tail := hrest
  have hlength := congrArg List.length hrest
  rw [List.length_drop, List.length_append] at hlength
  have hinside := hvalid.1
  have hsmall := hvalid.2
  refine ⟨{ cursor with position := cursor.position + word.length }, ?_, ⟨?_, hsmall⟩, ?_⟩
  · refine Metered.bind_eq_ok.mpr ⟨word, checkedRange_eq_ok.mpr ⟨by omega, by omega, ?_⟩, ?_⟩
    · rw [hrest, List.take_left]
    · exact Metered.bind_eq_ok.mpr ⟨(), result_consumeBytes word, rfl⟩
  · show cursor.position + word.length ≤ cursor.bytes.length
    omega
  · show cursor.bytes.drop (cursor.position + word.length) = tail
    rw [← List.drop_drop, hrest, List.drop_left]

theorem echoes_readBytes {length : Nat} {f : Bytes → StateT SliceCursor Work α}
    {g : Bytes → StateT SliceCursor Work β}
    (h : ∀ slice tail, ahead = slice ++ tail → slice.length = length →
      Echoes tail B R (f slice) (g slice)) :
    Echoes ahead B R (readBytes length >>= f) (readBytes length >>= g) := by
  intro cursor a last hvalid hahead hrun ha
  obtain ⟨slice, next, hread, hrun⟩ := Cursor.bind_eq_ok.mp hrun
  obtain ⟨found, hfound, hread⟩ := Metered.bind_eq_ok.mp hread
  obtain ⟨_, _, hread⟩ := Metered.bind_eq_ok.mp hread
  obtain ⟨rfl, rfl⟩ := Prod.mk.inj (Except.ok.inj hread)
  obtain ⟨-, hinside, rfl⟩ := checkedRange_eq_ok.mp hfound
  have hlength : ((cursor.bytes.drop cursor.position).take length).length = length := by
    rw [List.length_take, List.length_drop]
    omega
  have hrest : ahead = (cursor.bytes.drop cursor.position).take length
      ++ rest { cursor with position := cursor.position + length } := by
    show _ = _ ++ cursor.bytes.drop (cursor.position + length)
    rw [← List.drop_drop, List.take_append_drop]
    exact hahead.symm
  obtain ⟨word, b, hlast, hword, hdecodes, hab⟩ := h _ _ hrest hlength
    { cursor with position := cursor.position + length } a last ⟨hinside, hvalid.2⟩ rfl hrun ha
  have hslice := decodes_readBytes ((cursor.bytes.drop cursor.position).take length)
  rw [hlength] at hslice
  refine ⟨_ ++ word, b, hlast, ?_, hslice.bind hdecodes, hab⟩
  rw [List.append_assoc, ← hword]
  exact hrest

theorem echoes_last {γ δ : Type} {c : Work γ} {d : Work δ} (F : γ → α) (G : δ → β)
    (h : ∀ a, c.result = .ok a → B (F a) → ∃ b, d.result = .ok b ∧ R (F a) (G b)) :
    Echoes ahead B R (liftM c >>= fun a => (pure (F a) : StateT SliceCursor Work α))
      (liftM d >>= fun b => pure (G b)) := Echoes.lift_last F G h

end SliceCursor

/-- The last byte before selects the context of an empty history. -/
def Clear (earlier : Bytes) (property : UInt8) : Prop :=
  ∀ lc lp pb, propertiesFromByte property = .ok (lc, lp, pb) →
    (earlier.getLast?.getD 0).toNat >>> (8 - lc) = 0

/-- What the loop of `decode_lzma2` carries alone, and behind what comes before.  As long as
the dictionary is to be reset, or the properties are to be set, what that leaves behind has
no part in it. -/
structure Chunked.Beside (earlier : Bytes) (maximum dictionary : Nat) (chunked next : Chunked) :
    Prop where
  bytes_eq : next.output.bytes = earlier ++ chunked.output.bytes
  maximum_eq : next.output.maximum = maximum
  size_eq : chunked.output.dictionarySize = dictionary
  dictionary_eq : next.output.dictionarySize = dictionary
  started : chunked.needsDictionaryReset = false → next.needsDictionaryReset = false ∧
    next.output.dictionaryStart = earlier.length + chunked.output.dictionaryStart
  configured : chunked.needsProperties = false → next.needsProperties = false ∧
    ∃ lc lp pb stored stored', Widths lc lp pb ∧ chunked.stored = some stored ∧
      next.stored = some stored' ∧ stored.Beside lc lp pb earlier stored' ∧
      stored.state.Reaches chunked.output ∧ SameContext lc chunked.output next.output

section chunks

variable {earlier : Bytes} {maximum dictionary : Nat} {chunked next : Chunked} {ahead : Bytes}

theorem Chunked.Beside.behind (h : chunked.Beside earlier maximum dictionary next)
    (hstarted : chunked.needsDictionaryReset = false) :
    chunked.output.Behind earlier maximum dictionary next.output :=
  ⟨h.bytes_eq, h.maximum_eq, h.size_eq, h.dictionary_eq, (h.started hstarted).2⟩

theorem Chunked.Beside.mirrors_resetDictionary (h : chunked.Beside earlier maximum dictionary next)
    (control : Nat) :
    Mirrors (fun a b => a.Beside earlier maximum dictionary b ∧ a.needsDictionaryReset = false ∧
        a.output.bytes = chunked.output.bytes ∧
        (control ≥ 0xe0 ∨ control = 1 ∨ chunked.needsDictionaryReset = false))
      (resetDictionary chunked control) (resetDictionary next control) := by
  unfold resetDictionary
  refine Mirrors.ite Iff.rfl (fun hreset => Mirrors.pure ⟨?_, rfl, rfl, ?_⟩) fun _ => ?_
  · refine ⟨h.bytes_eq, h.maximum_eq, h.size_eq, h.dictionary_eq, fun _ => ⟨rfl, ?_⟩, nofun⟩
    show next.output.bytes.length = earlier.length + chunked.output.bytes.length
    rw [h.bytes_eq, List.length_append]
  · omega
  · cases hneeds : chunked.needsDictionaryReset with
    | true => exact Mirrors.of_error rfl
    | false =>
        rw [(h.started hneeds).1]
        exact Mirrors.pure ⟨h, hneeds, rfl, Or.inr (Or.inr rfl)⟩

/-- New probabilities, with the properties of `property`. -/
theorem beside_new {property : UInt8} {lc lp pb : Nat} {output output' : Output}
    (hproperty : propertiesFromByte property = .ok (lc, lp, pb))
    (hbytes : output'.bytes = earlier ++ output.bytes)
    (hclear : output.bytes = [] → Clear earlier property) :
    ∃ stored, StoredState.new lc lp pb = .ok stored ∧ Widths lc lp pb ∧
      stored.Beside lc lp pb earlier stored ∧ stored.state.Reaches output ∧
      SameContext lc output output' := by
  obtain ⟨hpb, hsmall⟩ := propertiesFromByte_eq_ok hproperty
  have hwidths : Widths lc lp pb := ⟨hsmall, hpb⟩
  refine ⟨_, StoredState.new_eq hpb hsmall, hwidths, ⟨rfl, ?_, ⟨rfl, rfl, rfl, ?_⟩⟩, ?_, ?_⟩
  · exact fun htwin => htwin.lookup_new hwidths
  · show 0 < stateCount
    decide
  · intro hstate
    exact absurd hstate (show ¬ 7 ≤ 0 by decide)
  · unfold SameContext Output.previousByte
    cases houtput : output.bytes with
    | nil =>
        rw [hbytes, houtput, List.append_nil, hclear houtput lc lp pb hproperty]
        exact (Nat.zero_shiftRight _).symm
    | cons byte bytes =>
        rw [hbytes, houtput, List.getLast?_append_of_ne_nil _ (List.cons_ne_nil _ _)]

theorem StoredState.Beside.reset {lc lp pb : Nat} {stored stored' : StoredState}
    (hwidths : Widths lc lp pb) (h : stored.Beside lc lp pb earlier stored') :
    stored.reset.Beside lc lp pb earlier stored'.reset := by
  refine ⟨congrArg LzmaState.reset h.state_eq, ?_, ?_⟩
  · intro slot slot' htwin
    show (Tables.new stored'.state.lc stored'.state.lp).lookup slot'
      = (Tables.new stored.state.lc stored.state.lp).lookup slot
    rw [h.state_eq, h.fits.lc_eq, h.fits.lp_eq]
    exact htwin.lookup_new hwidths
  · exact ⟨h.fits.lc_eq, h.fits.lp_eq, h.fits.mask_eq, show 0 < stateCount by decide⟩

/-- The states after a control byte: configured, with the outputs as they were. -/
theorem Chunked.Beside.echoes_resetState {α β : Type} {A : α → Prop} {P : α → β → Prop}
    {f : Chunked → StateT SliceCursor Work α} {g : Chunked → StateT SliceCursor Work β}
    (h : chunked.Beside earlier maximum dictionary next) {control : Nat}
    (hclear : chunked.output.bytes = [] → 0xc0 ≤ control →
      ∀ property, ahead[0]? = some property → Clear earlier property)
    (hf : ∀ a b tail, a.Beside earlier maximum dictionary b → a.needsProperties = false →
      a.output = chunked.output → a.needsDictionaryReset = chunked.needsDictionaryReset →
      Echoes tail A P (f a) (g b)) :
    Echoes ahead A P (resetState chunked control >>= f) (resetState next control >>= g) := by
  unfold resetState
  by_cases hnew : control ≥ 0xc0
  · rw [if_pos hnew, if_pos hnew]
    simp only [bind_assoc, pure_bind]
    refine SliceCursor.echoes_readU8 fun property tail hahead => ?_
    refine Echoes.lift_next ?_
    rintro ⟨lc, lp, pb⟩ hproperty
    have hproperty := (result_ofExcept _).symm.trans hproperty
    obtain ⟨stored, hstored, hwidths, hbeside, hreaches, hcontext⟩ :=
      beside_new hproperty h.bytes_eq fun hempty => hclear hempty hnew property (by rw [hahead]; rfl)
    refine Echoes.lift_next fun stored' hstored' => ?_
    obtain rfl : stored = stored' :=
      Except.ok.inj (hstored.symm.trans ((result_ofExcept _).symm.trans hstored'))
    refine hf _ _ _ ⟨h.bytes_eq, h.maximum_eq, h.size_eq, h.dictionary_eq, h.started, fun _ => ⟨rfl, ?_⟩⟩
      rfl rfl rfl
    exact ⟨lc, lp, pb, stored, stored, hwidths, rfl, rfl, hbeside, hreaches, hcontext⟩
  rw [if_neg hnew, if_neg hnew]
  cases hneeds : chunked.needsProperties with
  | true => exact Echoes.of_error fun _ => ⟨_, rfl⟩
  | false =>
      obtain ⟨hneeds', lc, lp, pb, stored, stored', hwidths, hstored, hstored', hbeside, hreaches,
        hcontext⟩ := h.configured hneeds
      rw [hneeds']
      simp only [Bool.false_eq_true, if_false]
      by_cases hreset : control ≥ 0xa0
      · rw [if_pos hreset, if_pos hreset, hstored, hstored']
        simp only [bind_assoc, pure_bind]
        refine Echoes.lift (Mirrors.of_ok (P := fun a b => a = stored ∧ b = stored') rfl rfl
          ⟨rfl, rfl⟩) ?_
        rintro _ _ ⟨rfl, rfl⟩
        refine hf _ _ _ ⟨h.bytes_eq, h.maximum_eq, h.size_eq, h.dictionary_eq, h.started, fun _ =>
          ⟨rfl, ?_⟩⟩ rfl rfl rfl
        exact ⟨lc, lp, pb, _, _, hwidths, rfl, rfl, hbeside.reset hwidths,
          fun hlow => absurd hlow (show ¬ 7 ≤ 0 by decide), hcontext⟩
      · rw [if_neg hreset, if_neg hreset, pure_bind, pure_bind]
        exact hf _ _ _ h hneeds rfl rfl

/-- A chunk only decodes within the limit if what it adds fits behind what comes before. -/
def Fitting (earlier : Bytes) (maximum : Nat) (chunked : Chunked) : Prop :=
  Output.Room maximum (earlier.length + chunked.output.position)

/-- A chunk is not empty. -/
theorem unpacked_pos {high low size : Nat} {detail : String}
    (h : (orFormat ((checkedAdd 64 high low).bind fun value => checkedAdd 64 value 1)
      detail).result = .ok size) : 0 < size := by
  obtain ⟨sum, -, hsize⟩ := Option.bind_eq_some_iff.mp (orFormat_eq_ok.mp h)
  obtain ⟨-, rfl⟩ := checkedAdd_eq_some.mp hsize
  exact Nat.succ_pos sum

theorem Chunked.Beside.echoes_compressedChunk (h : chunked.Beside earlier maximum dictionary next)
    (hstarted : chunked.needsDictionaryReset = false) (control : Nat)
    (hclear : chunked.output.bytes = [] → 0xc0 ≤ control →
      ∀ property, ahead[4]? = some property → Clear earlier property) :
    Echoes ahead (Fitting earlier maximum) (Chunked.Beside earlier maximum dictionary)
      (compressedChunk rangeSource chunked control) (compressedChunk rangeSource next control) := by
  refine Echoes.lift_next fun high _ => ?_
  refine SliceCursor.echoes_readU16Be fun b0 b1 tail htail => ?_
  refine Echoes.lift_next fun unpacked hunpacked => ?_
  have hunpacked := unpacked_pos hunpacked
  refine SliceCursor.echoes_readU16Be fun b2 b3 tail' htail' => ?_
  refine Echoes.lift_next fun packed _ => ?_
  refine h.echoes_resetState (fun hempty hnew property hproperty => ?_) ?_
  · refine hclear hempty hnew property ?_
    rw [htail, htail']
    exact hproperty
  intro a b tail hbeside hneeds houtput hdictionary
  refine SliceCursor.echoes_readBytes fun slice tail' _ _ => ?_
  obtain ⟨hneeds', lc, lp, pb, stored, stored', hwidths, hstored, hstored', hstates, hreaches,
    hcontext⟩ := hbeside.configured hneeds
  have hbehind := hbeside.behind (hdictionary.trans hstarted)
  rw [hstored, hstored']
  refine Echoes.lift (Mirrors.of_ok (P := fun a b => a = stored ∧ b = stored') rfl rfl ⟨rfl, rfl⟩) ?_
  rintro _ _ ⟨rfl, rfl⟩
  refine SliceCursor.echoes_last
    (fun out : StoredState × Output => { a with output := out.2, stored := some out.1 })
    (fun out : StoredState × Output => { b with output := out.2, stored := some out.1 }) ?_
  rintro ⟨last, output⟩ hrun hroom
  have hposition := position_of_decodeStream hrun
  have hroom : Output.Room maximum (earlier.length + output.position) := hroom
  rw [hposition] at hroom
  obtain ⟨⟨last', output'⟩, hrun', hlast, hbehind', hreaches'⟩ := mirrors_decodeStream hwidths hstates
    hreaches hbehind hcontext slice hroom _ hrun
  refine ⟨(last', output'), hrun', ⟨hbehind'.bytes_eq, hbehind'.maximum_eq, hbehind'.size_eq, ?_, fun hfalse => ?_,
    fun hfalse => ⟨hneeds', lc, lp, pb, last, last', hwidths, rfl, rfl, hlast, hreaches', ?_⟩⟩⟩
  · exact hbehind'.dictionary_eq
  · exact ⟨(hbeside.started hfalse).1, hbehind'.start_eq⟩
  · show SameContext lc output output'
    refine congrArg (·.toNat >>> (8 - lc)) (hbehind'.previousByte_eq fun hempty => ?_)
    rw [Output.position, hempty, List.length_nil] at hposition
    omega

theorem Chunked.Beside.echoes_uncompressedChunk (h : chunked.Beside earlier maximum dictionary next)
    (hstarted : chunked.needsDictionaryReset = false) :
    Echoes ahead (Fitting earlier maximum) (Chunked.Beside earlier maximum dictionary)
      (uncompressedChunk chunked) (uncompressedChunk next) := by
  refine SliceCursor.echoes_readU16Be fun b0 b1 tail _ => ?_
  refine Echoes.lift_next fun unpacked hunpacked => ?_
  obtain ⟨-, rfl⟩ := checkedAdd_eq_some.mp (orFormat_eq_ok.mp hunpacked)
  refine SliceCursor.echoes_readBytes fun slice tail' _ hlength => ?_
  have hbehind := h.behind hstarted
  refine SliceCursor.echoes_last (fun output : Output => { chunked with output })
    (fun output : Output => { next with output }) ?_
  intro output hrun hroom
  have hroom : Output.Room maximum (earlier.length + output.position) := hroom
  have hbytes : output.bytes = chunked.output.bytes ++ slice := by
    obtain ⟨_, _, hrun⟩ := Metered.bind_eq_ok.mp hrun
    obtain ⟨_, _, hrun⟩ := Metered.bind_eq_ok.mp hrun
    obtain rfl := Except.ok.inj hrun
    rfl
  have hposition : output.position = chunked.output.position + slice.length := by
    rw [Output.position, hbytes, List.length_append]
    rfl
  rw [hposition] at hroom
  obtain ⟨output', hrun', hbehind', -⟩ := hbehind.mirrors_extend slice hroom output hrun
  refine ⟨output', hrun', hbehind'.bytes_eq, hbehind'.maximum_eq, hbehind'.size_eq, hbehind'.dictionary_eq,
    fun hfalse => ⟨(h.started hfalse).1, hbehind'.start_eq⟩, fun hfalse => ?_⟩
  obtain ⟨hneeds', lc, lp, pb, stored, stored', hwidths, hstored, hstored', hstates, hreaches, -⟩ :=
    h.configured hfalse
  refine ⟨hneeds', lc, lp, pb, stored, stored', hwidths, hstored, hstored', hstates, ?_, ?_⟩
  · intro hlow distance hfirst
    show distance < output.bytes.length
    rw [hbytes]
    exact hreaches.append slice hlow distance hfirst
  · refine congrArg (·.toNat >>> (8 - lc)) (hbehind'.previousByte_eq fun hempty => ?_)
    rw [Output.position, hempty, List.length_nil] at hposition
    omega

/-- A chunk after its control byte. -/
theorem Chunked.Beside.echoes_decodeChunk (h : chunked.Beside earlier maximum dictionary next) (control : Nat)
    (hfresh : chunked.output.bytes = [] → chunked.needsDictionaryReset = true)
    (hclear : chunked.output.bytes = [] → 0xe0 ≤ control →
      ∀ property, ahead[4]? = some property → Clear earlier property) :
    Echoes ahead (Fitting earlier maximum) (Chunked.Beside earlier maximum dictionary)
      (decodeChunk rangeSource chunked control) (decodeChunk rangeSource next control) := by
  refine Echoes.lift (h.mirrors_resetDictionary control) ?_
  rintro a b ⟨hbeside, hstarted, hbytes, hreset⟩
  refine Echoes.ite (fun _ => ?_) fun _ => ?_
  · refine hbeside.echoes_compressedChunk hstarted control fun hempty hnew property hproperty => ?_
    rw [hbytes] at hempty
    rcases hreset with hreset | hreset | hreset
    · exact hclear hempty hreset property hproperty
    · omega
    · rw [hfresh hempty] at hreset
      cases hreset
  · refine Echoes.ite (fun _ => hbeside.echoes_uncompressedChunk hstarted) fun _ => ?_
    exact Echoes.of_error fun _ => ⟨_, rfl⟩

/-! ### Sequences of chunks -/

/-- The output as it is when the state is set. -/
theorem output_of_resetState {control : Nat} {cursor cursor' : SliceCursor} {a : Chunked}
    (h : (resetState chunked control cursor).result = .ok (a, cursor')) :
    a.output = chunked.output := by
  unfold resetState at h
  split at h
  · obtain ⟨property, s1, -, h⟩ := Cursor.bind_eq_ok.mp h
    obtain ⟨widths, s2, -, h⟩ := Cursor.bind_eq_ok.mp h
    obtain ⟨stored, s3, -, h⟩ := Cursor.bind_eq_ok.mp h
    obtain ⟨rfl, -⟩ := Cursor.pure_eq_ok.mp h
    rfl
  split at h
  · cases h
  split at h
  · obtain ⟨stored, s1, -, h⟩ := Cursor.bind_eq_ok.mp h
    obtain ⟨rfl, -⟩ := Cursor.pure_eq_ok.mp h
    rfl
  · obtain ⟨rfl, -⟩ := Cursor.pure_eq_ok.mp h
    rfl

theorem position_of_resetDictionary {control : Nat} {a : Chunked}
    (h : (resetDictionary chunked control).result = .ok a) :
    a.output.position = chunked.output.position := by
  unfold resetDictionary at h
  split at h
  · obtain rfl := Except.ok.inj h
    rfl
  split at h
  · cases h
  · obtain rfl := Except.ok.inj h
    rfl

/-- Every chunk adds to the output. -/
theorem position_lt_of_decodeChunk {source : Source Coder} {control : Nat}
    {cursor cursor' : SliceCursor} {a : Chunked}
    (hrun : (decodeChunk source chunked control cursor).result = .ok (a, cursor')) :
    chunked.output.position < a.output.position := by
  obtain ⟨reset, s0, hlift, h⟩ := Cursor.bind_eq_ok.mp hrun
  obtain ⟨hreset, rfl⟩ := Cursor.lift_eq_ok.mp hlift
  rw [← position_of_resetDictionary hreset]
  split at h
  · obtain ⟨high, s1, -, h⟩ := Cursor.bind_eq_ok.mp h
    obtain ⟨low, s2, -, h⟩ := Cursor.bind_eq_ok.mp h
    obtain ⟨unpacked, s3, hunpacked, h⟩ := Cursor.bind_eq_ok.mp h
    have hpos := unpacked_pos (Cursor.lift_eq_ok.mp hunpacked).1
    obtain ⟨packed, s4, -, h⟩ := Cursor.bind_eq_ok.mp h
    obtain ⟨packed, s5, -, h⟩ := Cursor.bind_eq_ok.mp h
    obtain ⟨set, s6, hset, h⟩ := Cursor.bind_eq_ok.mp h
    obtain ⟨slice, s7, -, h⟩ := Cursor.bind_eq_ok.mp h
    obtain ⟨stored, s8, -, h⟩ := Cursor.bind_eq_ok.mp h
    obtain ⟨⟨last, output⟩, s9, hstream, h⟩ := Cursor.bind_eq_ok.mp h
    obtain ⟨rfl, -⟩ := Cursor.pure_eq_ok.mp h
    have hposition := position_of_decodeStream (Cursor.lift_eq_ok.mp hstream).1
    rw [output_of_resetState hset] at hposition
    show reset.output.position < output.position
    omega
  split at h
  · obtain ⟨size, s1, -, h⟩ := Cursor.bind_eq_ok.mp h
    obtain ⟨unpacked, s2, hunpacked, h⟩ := Cursor.bind_eq_ok.mp h
    obtain ⟨-, rfl⟩ := checkedAdd_eq_some.mp (orFormat_eq_ok.mp (Cursor.lift_eq_ok.mp hunpacked).1)
    obtain ⟨slice, s3, hslice, h⟩ := Cursor.bind_eq_ok.mp h
    obtain ⟨output, s4, hextend, h⟩ := Cursor.bind_eq_ok.mp h
    obtain ⟨rfl, -⟩ := Cursor.pure_eq_ok.mp h
    obtain ⟨found, hfound, hslice⟩ := Metered.bind_eq_ok.mp hslice
    obtain ⟨_, -, hslice⟩ := Metered.bind_eq_ok.mp hslice
    obtain ⟨rfl, rfl⟩ := Prod.mk.inj (Except.ok.inj hslice)
    obtain ⟨-, hinside, rfl⟩ := checkedRange_eq_ok.mp hfound
    obtain ⟨_, -, hextend⟩ := Metered.bind_eq_ok.mp (Cursor.lift_eq_ok.mp hextend).1
    obtain ⟨_, -, hextend⟩ := Metered.bind_eq_ok.mp hextend
    obtain rfl := Except.ok.inj hextend
    show reset.output.bytes.length < (reset.output.bytes ++ _).length
    rw [List.length_append, List.length_take, List.length_drop]
    omega
  · cases h

/-- One round of the loop: the end of the chunks, or a chunk and what comes after it. -/
theorem decodeChunks_cases {source : Source Coder} {fuel : Nat} {cursor last : SliceCursor}
    {bytes : Bytes}
    (h : (decodeChunks source none (fuel + 1) chunked cursor).result = .ok (bytes, last)) :
    ∃ control s, (SliceCursor.readU8 cursor).result = .ok (control, s) ∧
      (control = 0 ∧ s.isFinished = true ∧ bytes = chunked.output.bytes ∨
        control ≠ 0 ∧ ∃ a s', (decodeChunk source chunked control.toNat s).result = .ok (a, s') ∧
          (decodeChunks source none fuel a s').result = .ok (bytes, last)) := by
  obtain ⟨_, s0, hcheck, hloop⟩ := Cursor.bind_eq_ok.mp h
  obtain ⟨-, rfl⟩ := Cursor.lift_eq_ok.mp hcheck
  obtain ⟨control, s, hread, hrest⟩ := Cursor.bind_eq_ok.mp hloop
  refine ⟨control, s, hread, ?_⟩
  split at hrest
  · rename_i hzero
    obtain ⟨found, s1, hget, hrest⟩ := Cursor.bind_eq_ok.mp hrest
    obtain ⟨rfl, rfl⟩ := Prod.mk.inj (Except.ok.inj hget)
    by_cases hfinished : s.isFinished = true
    · rw [hfinished] at hrest
      obtain ⟨rfl, -⟩ := Cursor.pure_eq_ok.mp hrest
      exact Or.inl ⟨hzero, hfinished, rfl⟩
    · rw [Bool.not_eq_true] at hfinished
      rw [hfinished] at hrest
      cases hrest
  · rename_i hchunk
    obtain ⟨a, s1, hdecode, hrest⟩ := Cursor.bind_eq_ok.mp hrest
    exact Or.inr ⟨hchunk, a, s1, hdecode, hrest⟩

/-- The round of a chunk is out of the way. -/
theorem decodeChunks_of_chunk {source : Source Coder} {fuel : Nat} {cursor s s' : SliceCursor}
    {control : UInt8} {a : Chunked} (hread : (SliceCursor.readU8 cursor).result = .ok (control, s))
    (hcontrol : control ≠ 0)
    (hchunk : (decodeChunk source chunked control.toNat s).result = .ok (a, s')) :
    (decodeChunks source none (fuel + 1) chunked cursor).result
      = (decodeChunks source none fuel a s').result := by
  rw [decodeChunks, Cursor.result_lift_bind (result_checkpoint 1), Cursor.result_bind_ok hread,
    if_neg hcontrol, Cursor.result_bind_ok hchunk]
  rfl

/-- The round of the end byte. -/
theorem decodeChunks_of_end {source : Source Coder} {fuel : Nat} {cursor : SliceCursor}
    (hvalid : Valid cursor) (hrest : rest cursor = [0]) :
    ∃ last, (decodeChunks source none (fuel + 1) chunked cursor).result
      = .ok (chunked.output.bytes, last) := by
  obtain ⟨s, hread, hs, hend⟩ := SliceCursor.decodes_readU8 0 cursor [] hvalid hrest
  have hend : s.bytes.drop s.position = [] := hend
  have hinside := hs.1
  have hfinished : s.isFinished = true := by
    rw [SliceCursor.isFinished, beq_iff_eq]
    rw [List.drop_eq_nil_iff] at hend
    omega
  refine ⟨s, ?_⟩
  rw [decodeChunks, Cursor.result_lift_bind (result_checkpoint 1), Cursor.result_bind_ok hread,
    if_pos rfl]
  show ((if !s.isFinished then _ else _ : StateT SliceCursor Work Bytes) s).result = _
  rw [hfinished]
  rfl

/-- The bytes that are there stay. -/
theorem position_le_of_decodeChunks {source : Source Coder} {fuel : Nat}
    {cursor last : SliceCursor} {bytes : Bytes}
    (h : (decodeChunks source none fuel chunked cursor).result = .ok (bytes, last)) :
    chunked.output.position ≤ bytes.length := by
  induction fuel generalizing chunked cursor with
  | zero => cases h
  | succ fuel ih =>
      obtain ⟨control, s, -, ⟨-, -, rfl⟩ | ⟨-, a, s', hchunk, hrest⟩⟩ := decodeChunks_cases h
      · exact Nat.le_refl _
      · exact Nat.le_trans (Nat.le_of_lt (position_lt_of_decodeChunk hchunk)) (ih hrest)

/-- Chunks that are accepted alone are decoded behind what comes before, up to where their end
byte was. -/
theorem Chunked.Beside.decodeChunks {fuel : Nat} {cursor last : SliceCursor} {bytes : Bytes}
    (h : chunked.Beside earlier maximum dictionary next) (hvalid : Valid cursor)
    (hrun : (Lzma.decodeChunks rangeSource none fuel chunked cursor).result = .ok (bytes, last))
    (hroom : Output.Room maximum (earlier.length + bytes.length))
    (hfresh : chunked.output.bytes = [] → chunked.needsDictionaryReset = true)
    (hclear : chunked.output.bytes = [] → ∀ control property, (rest cursor)[0]? = some control →
      0xe0 ≤ control.toNat → (rest cursor)[5]? = some property → Clear earlier property) :
    ∃ word, rest cursor = word ++ [0] ∧ ∀ s tail spare fuel', Valid s → rest s = word ++ tail →
      word.length + spare ≤ fuel' → ∃ final s' fuel'', Valid s' ∧ rest s' = tail ∧
        spare ≤ fuel'' ∧ final.output.bytes = earlier ++ bytes ∧
        final.output.maximum = maximum ∧
        final.output.dictionarySize = dictionary ∧
        (Lzma.decodeChunks rangeSource none fuel' next s).result
          = (Lzma.decodeChunks rangeSource none fuel'' final s').result := by
  induction fuel generalizing chunked next cursor with
  | zero => cases hrun
  | succ fuel ih =>
      obtain ⟨control, s1, hread, hcases⟩ := decodeChunks_cases hrun
      obtain ⟨hbyte, rfl⟩ := SliceCursor.readU8_eq_ok hread
      have hrest := SliceCursor.rest_of_getElem? hbyte
      have hvalid1 : Valid { cursor with position := cursor.position + 1 } :=
        ⟨(List.getElem?_eq_some_iff.mp hbyte).1, hvalid.2⟩
      rcases hcases with ⟨rfl, hfinished, rfl⟩ | ⟨hcontrol, a, s2, hchunk, hrun'⟩
      · -- The end byte: behind what comes before, the run goes on from here.
        have hend : rest { cursor with position := cursor.position + 1 } = [] :=
          List.drop_eq_nil_of_le (Nat.le_of_eq (beq_iff_eq.mp hfinished).symm)
        refine ⟨[], by rw [hrest, hend]; rfl, fun s tail spare fuel' hs htail hspare => ?_⟩
        refine ⟨next, s, fuel', hs, htail, ?_, h.bytes_eq, h.maximum_eq, h.dictionary_eq, rfl⟩
        rwa [List.length_nil, Nat.zero_add] at hspare
      have hgrows := position_lt_of_decodeChunk hchunk
      have hnonempty : a.output.bytes ≠ [] := fun hempty => by
        rw [show a.output.position = a.output.bytes.length from rfl, hempty] at hgrows
        exact Nat.not_lt_zero _ hgrows
      have hfits : Fitting earlier maximum a :=
        hroom.mono (Nat.add_le_add_left (position_le_of_decodeChunks hrun') _)
      obtain ⟨chunk, b, hs2, hchunkWord, hdecodes, hbeside⟩ := h.echoes_decodeChunk control.toNat
        hfresh (fun hempty hreset property hproperty => hclear hempty control property
          (by rw [hrest]; rfl) hreset (by rw [hrest]; exact hproperty))
        _ a s2 hvalid1 rfl hchunk hfits
      obtain ⟨word, hword, hgoes⟩ := ih hbeside hs2 hrun' (fun hempty => absurd hempty hnonempty)
        (fun hempty => absurd hempty hnonempty)
      refine ⟨control :: (chunk ++ word), ?_, fun s tail spare fuel' hs htail hspare => ?_⟩
      · rw [hrest, hchunkWord, hword]
        simp
      obtain ⟨fuel', rfl⟩ : ∃ less, fuel' = less + 1 := ⟨fuel' - 1, by
        rw [List.length_cons] at hspare
        omega⟩
      obtain ⟨t1, hread', ht1, hrest1⟩ := SliceCursor.decodes_readU8 control s (chunk ++ (word ++ tail))
        hs (by rw [htail]; simp)
      obtain ⟨t2, hchunk', ht2, hrest2⟩ := hdecodes t1 (word ++ tail) ht1 hrest1
      obtain ⟨final, s', fuel'', hs', htail', hspare', hbytes, hmaximum, hdictionary, hsame⟩ :=
        hgoes t2 tail spare fuel' ht2 hrest2 (by
          rw [List.length_cons, List.length_append] at hspare
          omega)
      refine ⟨final, s', fuel'', hs', htail', hspare', hbytes, hmaximum, hdictionary, ?_⟩
      rw [decodeChunks_of_chunk hread' hcontrol hchunk', hsame]

end chunks

/-! ### Two sequences of chunks -/

/-- The first literal of `b` behind `x` finds the context of an empty history: unless `b`
begins with a compressed chunk whose properties select a context by high bits of the byte
before that are not all zero in the last byte of `x`. -/
def ClearContext (x b : Bytes) : Prop :=
  ∀ control property, b[0]? = some control → 0xe0 ≤ control.toNat → b[5]? = some property →
    Clear x property

/-- With the end byte behind it. -/
theorem ClearContext.ended {x b : Bytes} (h : ClearContext x b) : ClearContext x (b ++ [0]) := by
  intro control property hcontrol hreset hproperty
  by_cases hlong : 5 < b.length
  · rw [List.getElem?_append_left (by omega)] at hcontrol hproperty
    exact h control property hcontrol hreset hproperty
  · -- The end byte itself stands for properties without a context.
    have hzero : property = 0 := by
      rw [List.getElem?_append_right (by omega)] at hproperty
      exact List.mem_singleton.mp (List.mem_of_getElem? hproperty)
    subst hzero
    intro lc lp pb hwidths
    obtain ⟨rfl, -⟩ : 0 = lc ∧ (0, 0) = (lp, pb) := Prod.mk.inj (Except.ok.inj hwidths)
    rw [Nat.shiftRight_eq_div_pow]
    exact Nat.div_eq_of_lt (UInt8.toNat_lt _)

/-- The run over the chunks, from the start. -/
theorem decodeLzma2_eq_ok {input properties bytes : Bytes} {maximum : Nat}
    (h : (decodeLzma2 input properties none maximum).result = .ok bytes) :
    ∃ dictionary last, lzma2Dictionary properties = .ok dictionary ∧
      (decodeChunks rangeSource none (input.length + 1)
        ⟨⟨[], maximum, max dictionary 1, 0⟩, none, true, true⟩ ⟨input, 0⟩).result
        = .ok (bytes, last) := by
  obtain ⟨dictionary, hdictionary, h⟩ := Metered.bind_eq_ok.mp h
  obtain ⟨output, houtput, h⟩ := Metered.bind_eq_ok.mp h
  obtain ⟨_, _, houtput⟩ := Metered.bind_eq_ok.mp houtput
  obtain ⟨_, _, houtput⟩ := Metered.bind_eq_ok.mp houtput
  obtain rfl := Except.ok.inj houtput
  obtain ⟨⟨found, last⟩, hchunks, h⟩ := Metered.bind_eq_ok.mp h
  obtain rfl := Except.ok.inj h
  exact ⟨dictionary, last, (result_ofExcept _).symm.trans hdictionary, hchunks⟩

theorem decodeLzma2_of_chunks {input properties bytes : Bytes} {maximum dictionary : Nat}
    {last : SliceCursor} (hdictionary : lzma2Dictionary properties = .ok dictionary)
    (h : (decodeChunks rangeSource none (input.length + 1)
      ⟨⟨[], maximum, max dictionary 1, 0⟩, none, true, true⟩ ⟨input, 0⟩).result
      = .ok (bytes, last)) :
    (decodeLzma2 input properties none maximum).result = .ok bytes := by
  refine Metered.bind_eq_ok.mpr ⟨dictionary, (result_ofExcept _).trans hdictionary, ?_⟩
  refine Metered.bind_eq_ok.mpr ⟨⟨[], maximum, max dictionary 1, 0⟩, ?_, ?_⟩
  · refine Metered.bind_eq_ok.mpr ⟨(), checkLimit_eq_ok.mpr (Nat.zero_le _), ?_⟩
    exact Metered.bind_eq_ok.mpr ⟨(), rfl, rfl⟩
  · exact Metered.bind_eq_ok.mpr ⟨(bytes, last), h, rfl⟩

/--
**Chunks after a dictionary reset do not depend on what was decoded before**, once their first
literal finds the context of an empty history.

Where `a` alone decodes to `x` and `b` alone to `y`, under whatever limits and budgets they are
accepted, the chunks of `a` and then those of `b` decode to `x` and then `y`, under every limit
and every budget that this leaves room for.
-/
theorem decodeLzma2_append {a b properties x y : Bytes} {maximumA maximumB maximum : Nat}
    {controlA controlB control : ParseControl} (hinput : (a ++ b ++ [0]).length < 2 ^ 64)
    (ha : ((decodeLzma2 (a ++ [0]) properties none maximumA).run controlA).1 = .ok x)
    (hb : ((decodeLzma2 (b ++ [0]) properties none maximumB).run controlB).1 = .ok y)
    (hclear : ClearContext x b) (hmaximum : x.length + y.length ≤ maximum)
    (hvector : x.length + y.length ≤ vectorMax)
    (hcovers : control.Covers (decodeLzma2 (a ++ b ++ [0]) properties none maximum).cost) :
    ((decodeLzma2 (a ++ b ++ [0]) properties none maximum).run control).1 = .ok (x ++ y) := by
  have hlength : a.length + b.length + 1 < 2 ^ 64 := by
    rw [List.length_append, List.length_append] at hinput
    exact hinput
  have hroom : Output.Room maximum (x.length + y.length) := ⟨hmaximum, hvector⟩
  have hsplit : a ++ b ++ [0] = a ++ (b ++ [0]) := List.append_assoc _ _ _
  obtain ⟨dictionary, lastA, hdictionary, hrunA⟩ :=
    decodeLzma2_eq_ok (Metered.result_of_run_ok (Prod.ext ha rfl)).1
  obtain ⟨dictionary', lastB, hdictionary', hrunB⟩ :=
    decodeLzma2_eq_ok (Metered.result_of_run_ok (Prod.ext hb rfl)).1
  obtain rfl : dictionary = dictionary' := Except.ok.inj (hdictionary.symm.trans hdictionary')
  -- The chunks of `a`, with nothing before them.
  obtain ⟨wordA, hwordA, hgoA⟩ := @Chunked.Beside.decodeChunks [] maximum (max dictionary 1)
    ⟨⟨[], maximumA, max dictionary 1, 0⟩, none, true, true⟩
    ⟨⟨[], maximum, max dictionary 1, 0⟩, none, true, true⟩ _ ⟨a ++ [0], 0⟩ lastA x
    ⟨rfl, rfl, rfl, rfl, nofun, nofun⟩ ⟨Nat.zero_le _, by
      rw [List.length_append]
      show a.length + 1 < 2 ^ 64
      omega⟩ hrunA (hroom.mono (by simp)) (fun _ => rfl)
    (fun _ _ _ _ _ _ lc lp pb _ => Nat.zero_shiftRight _)
  obtain rfl : a = wordA := List.append_cancel_right hwordA
  have hvalid : Valid (⟨a ++ b ++ [0], 0⟩ : SliceCursor) := ⟨Nat.zero_le _, hinput⟩
  obtain ⟨middle, s, fuel, hs, hrest, hfuel, hbytes, hmax, hsize, hsameA⟩ :=
    hgoA ⟨a ++ b ++ [0], 0⟩ (b ++ [0]) (b.length + 2) ((a ++ b ++ [0]).length + 1) hvalid hsplit (by
      rw [hsplit, List.length_append, List.length_append, List.length_singleton]
      omega)
  -- The chunks of `b`, with those of `a` before them.
  obtain ⟨wordB, hwordB, hgoB⟩ := @Chunked.Beside.decodeChunks x maximum (max dictionary 1)
    ⟨⟨[], maximumB, max dictionary 1, 0⟩, none, true, true⟩ middle _ ⟨b ++ [0], 0⟩ lastB y
    ⟨hbytes.trans (List.append_nil x).symm, hmax, rfl, hsize, nofun, nofun⟩ ⟨Nat.zero_le _, by
      rw [List.length_append]
      show b.length + 1 < 2 ^ 64
      omega⟩ hrunB hroom (fun _ => rfl) (fun _ => hclear.ended)
  obtain rfl : b = wordB := List.append_cancel_right hwordB
  obtain ⟨final, s', fuel', hs', hrest', hfuel', hfinal, -, -, hsameB⟩ :=
    hgoB s [0] 2 fuel hs hrest hfuel
  -- The end byte.
  obtain ⟨fuel', rfl⟩ : ∃ less, fuel' = less + 1 := ⟨fuel' - 1, by omega⟩
  obtain ⟨last, hend⟩ := @decodeChunks_of_end final rangeSource fuel' s' hs' hrest'
  have hresult : (decodeLzma2 (a ++ b ++ [0]) properties none maximum).result = .ok (x ++ y) :=
    decodeLzma2_of_chunks hdictionary (hsameA.trans (hsameB.trans (hfinal ▸ hend)))
  rw [Metered.pays _ control hcovers, hresult]

/-- A compressed chunk under properties with one bit of context, behind a byte without it. -/
theorem decodeLzma2_append_one :
    ((decodeLzma2 ([1, 0, 0, 1] ++ [224, 0, 1, 0, 6, 1, 0, 127, 0, 127, 158, 0, 127] ++ [0]) [0]
      none 3).run (.uncancelled .unlimited)).1 = .ok ([1] ++ [254, 1]) := by
  have ha : ((decodeLzma2 ([1, 0, 0, 1] ++ [0]) [0] none 3).run (.uncancelled .unlimited)).1
      = .ok [1] := by decide +kernel
  have hb : ((decodeLzma2 ([224, 0, 1, 0, 6, 1, 0, 127, 0, 127, 158, 0, 127] ++ [0]) [0] none
      3).run (.uncancelled .unlimited)).1 = .ok [254, 1] := by decide +kernel
  refine decodeLzma2_append (by decide) ha hb ?_ (by decide) (by decide) ?_
  · intro control property _ _ hproperty lc lp pb hwidths
    obtain rfl : 1 = property := Option.some.inj hproperty
    obtain ⟨rfl, -⟩ : 1 = lc ∧ (0, 0) = (lp, pb) := Prod.mk.inj (Except.ok.inj hwidths)
    decide
  · exact ⟨(by rintro n ⟨⟩), (by rintro r ⟨⟩), by decide +kernel⟩

/-- Behind a byte with that bit, the second literal is another one. -/
theorem decodeLzma2_append_last_byte :
    ((decodeLzma2 ([1, 0, 0, 255] ++ [0]) [0] none 3).run (.uncancelled .unlimited)).1
        = .ok [255] ∧
      ((decodeLzma2 ([224, 0, 1, 0, 6, 1, 0, 127, 0, 127, 158, 0, 127] ++ [0]) [0] none 3).run
        (.uncancelled .unlimited)).1 = .ok [254, 1] ∧
      ((decodeLzma2 ([1, 0, 0, 255] ++ [224, 0, 1, 0, 6, 1, 0, 127, 0, 127, 158, 0, 127] ++ [0])
        [0] none 3).run (.uncancelled .unlimited)).1 = .ok [255, 254, 2] ∧
      [255, 254, 2] ≠ ([255] ++ [254, 1] : Bytes) := by
  refine ⟨?_, ?_, ?_, ?_⟩
  · decide +kernel
  · decide +kernel
  · decide +kernel
  · decide

end Lzma

end Un7z
