/-
What the Deflate64 decoder accepts.

The converse of `Deflate64Streams`: each reader that succeeds has moved over a word of the
coding (`Passes`), and its value is what that word stands for.  Put together,
`decodeDeflate64_eq_ok` says which inputs are accepted and with which output, and no more is
accepted than is written.
-/
import Un7z.Proofs.Deflate64Streams

namespace Un7z

namespace Deflate64

open BitString (lsb ofBytes)
open BitReader (readBits decodes_readBits)
open Cursor (Decodes Passes Valid rest)
open CanonicalCode

/-! ### Bits -/

namespace BitReader

variable {reader next : BitReader} {count value : Nat}

theorem readByte_eq_ok {byte : UInt8} (h : (readByte reader).result = .ok (byte, next)) :
    reader.position < reader.input.length ∧ next = { reader with position := reader.position + 1 } := by
  rw [readByte, Metered.result_bind_ok (result_checkpoint 1)] at h
  obtain ⟨_, hbyte, h⟩ := Metered.bind_eq_ok.mp h
  obtain ⟨position, hposition, h⟩ := Metered.bind_eq_ok.mp h
  obtain ⟨-, rfl⟩ := checkedAdd_eq_some.mp (orFormat_eq_ok.mp hposition)
  exact ⟨(List.getElem?_eq_some_iff.mp (orFormat_eq_ok.mp hbyte)).1,
    (Prod.mk.inj (Except.ok.inj h)).2.symm⟩

/-- Bytes that go into the buffer are not lost. -/
theorem length_refill (fuel : Nat) : ∀ reader next : BitReader,
    (refill count fuel reader).result = .ok ((), next) → next.ahead.length = reader.ahead.length := by
  induction fuel with
  | zero =>
      intro reader next h
      exact absurd (Cursor.lift_eq_ok.mp h).1 (by simp)
  | succ fuel ih =>
      intro reader next h
      rw [refill, Cursor.result_bind_ok (get_eq reader)] at h
      by_cases hlow : reader.bufferedBits < count
      · rw [if_pos hlow] at h
        obtain ⟨byte, loaded, hbyte, h⟩ := Cursor.bind_eq_ok.mp h
        obtain ⟨shifted, -, h⟩ := Cursor.lift_bind_eq_ok.mp h
        obtain ⟨bits, hbits, h⟩ := Cursor.lift_bind_eq_ok.mp h
        obtain ⟨-, rfl⟩ := checkedAdd_eq_some.mp (orFormat_eq_ok.mp hbits)
        obtain ⟨hposition, rfl⟩ := readByte_eq_ok hbyte
        rw [ih _ next h, length_ahead, length_ahead]
        show reader.bufferedBits + 8 + 8 * (reader.input.length - (reader.position + 1)) = _
        omega
      · rw [if_neg hlow] at h
        obtain ⟨-, rfl⟩ := Cursor.pure_eq_ok.mp h
        rfl

/-- Bits that are read are the next ones. -/
theorem readBits_eq_ok (hreader : Valid reader) (h : (readBits count reader).result = .ok (value, next)) :
    value < 2 ^ count ∧ Passes reader next (lsb count value) := by
  have hread := h
  rw [readBits] at hread
  by_cases hcount : count > 24
  · rw [if_pos hcount] at hread
    exact absurd (Cursor.lift_eq_ok.mp hread).1 (by simp)
  · rw [if_neg hcount] at hread
    obtain ⟨⟨⟩, filled, hrefill, -⟩ := Cursor.bind_eq_ok.mp hread
    have hbuffered := hreader.buffered
    have henough := (refill_buffered _ _ _ hrefill (by omega)).1
    have hlong : count ≤ (rest reader).length := by
      show count ≤ reader.ahead.length
      have hfilled := length_ahead filled
      rw [← length_refill _ _ _ hrefill]
      omega
    have hlength : ((rest reader).take count).length = count := List.length_take_of_le hlong
    have hbits := BitString.lsb_ofLsb ((rest reader).take count)
    have hlt := BitString.ofLsb_lt ((rest reader).take count)
    rw [hlength] at hbits hlt
    have hsplit : rest reader = lsb count (BitString.ofLsb ((rest reader).take count)) ++
        (rest reader).drop count := by
      rw [hbits, List.take_append_drop]
    obtain ⟨rfl, hpasses⟩ := (decodes_readBits (Nat.not_lt.mp hcount) hlt).passes hreader hsplit h
    exact ⟨hlt, hpasses⟩

end BitReader

open BitReader (readBits_eq_ok)

/-! ### Prefix codes -/

namespace Huffman

variable {tree : Huffman} {lengths : List Nat}

/-- From any length on: the bits that are read complete those that have been read to a codeword. -/
theorem decodeFrom_eq_ok (h : tree.Holds lengths) (left : Nat) : ∀ reached code (reader next : BitReader) symbol,
    reached + left = maxCodeBits → Valid reader → code < 2 ^ reached →
    first lengths (reached + 1) ≤ 2 * code →
    (decodeFrom tree (List.range' (reached + 1) left) (2 * code) (first lengths (reached + 1))
      (below lengths (reached + 1)) reader).result = .ok (symbol, next) →
    ∃ more, more ≠ 0 ∧ length lengths symbol = reached + more ∧
      number lengths symbol / 2 ^ more = code ∧
      Passes reader next (BitString.msb more (number lengths symbol)) := by
  induction left with
  | zero =>
      intro reached code reader next symbol _ _ _ _ hread
      exact absurd (Cursor.lift_eq_ok.mp hread).1 (by simp)
  | succ left ih =>
      intro reached code reader next symbol hleft hreader hcode hfirst hread
      have hreached : reached + 1 ≤ maxCodeBits := by omega
      have hpow : 2 ^ (reached + 1) = 2 ^ reached * 2 := Nat.pow_succ _ _
      have hword : 2 ^ (reached + 1) ≤ 2 ^ 15 := Nat.pow_le_pow_right (by decide) hreached
      have hfits := h.fits (reached + 1) hreached
      have hbelow : below lengths (reached + 1 + 1) ≤ 320 :=
        Nat.le_trans (below_le_length _) h.short
      have hnext : below lengths (reached + 1 + 1)
        = below lengths (reached + 1) + count lengths (reached + 1) := rfl
      rw [List.range'_succ, decodeFrom] at hread
      obtain ⟨bit, middle, hbit, hread⟩ := Cursor.bind_eq_ok.mp hread
      obtain ⟨hsmall, hpasses⟩ := readBits_eq_ok hreader hbit
      have hsmall : bit < 2 := hsmall
      have hlsb : lsb 1 bit = [decide ((2 * code + bit) % 2 = 1)] := by
        have hsame : (2 * code + bit) % 2 = bit % 2 := by omega
        rw [hsame]
        rfl
      rw [two_mul_or _ _ hsmall,
        Cursor.result_lift_bind (orFormat_eq_ok.mpr (h.counts ▸ getElem?_table hreached)),
        checkedAdd_of_lt (by omega), Cursor.result_lift_bind (result_orFormat_some _ _)] at hread
      by_cases hend : 2 * code + bit < first lengths (reached + 1) + count lengths (reached + 1)
      · -- the code is one of the codewords of this length
        obtain ⟨relative, hrelative⟩ : ∃ relative,
            2 * code + bit = first lengths (reached + 1) + relative :=
          Nat.exists_eq_add_of_le (by omega)
        obtain ⟨found, hfound, hpos, hindex⟩ :=
          exists_index (show relative < count lengths (reached + 1) by omega)
        have hcoded : length lengths found ≠ 0 := hfound ▸ hpos
        have hinside : index lengths found < below lengths (maxCodeBits + 1) :=
          index_lt hcoded (Nat.lt_succ_of_le (h.length_le found))
        have hnumber : number lengths found = 2 * code + bit := by
          rw [index, hfound] at hindex
          rw [number, hfound, hrelative]
          omega
        rw [if_pos hend, hrelative, checkedSub_of_le (Nat.le_add_right _ _),
          Nat.add_sub_cancel_left, Cursor.result_lift_bind (result_orFormat_some _ _),
          checkedAdd_of_lt (by omega), Cursor.result_lift_bind (result_orFormat_some _ _),
          ← hindex, if_neg (h.symbolCount ▸ Nat.not_le.mpr hinside), h.symbols found hcoded] at hread
        obtain ⟨hsymbol, rfl⟩ := Cursor.lift_eq_ok.mp hread
        obtain rfl := Option.some.inj (orFormat_eq_ok.mp hsymbol)
        refine ⟨1, Nat.one_ne_zero, hfound, by rw [hnumber]; omega, ?_⟩
        rw [hlsb] at hpasses
        rw [hnumber, BitString.msb, Nat.pow_zero, Nat.div_one]
        exact hpasses
      · have hshifted (value : Nat) (hvalue : value ≤ 2 ^ 15) : value <<< 1 % 2 ^ 32 = 2 * value := by
          rw [Nat.shiftLeft_eq]
          omega
        rw [if_neg hend, checkedAdd_of_lt (by omega),
          Cursor.result_lift_bind (result_orFormat_some _ _), checkedShl_of_lt (by decide),
          Cursor.result_lift_bind (result_orFormat_some _ _), checkedShl_of_lt (by decide),
          Cursor.result_lift_bind (result_orFormat_some _ _), hshifted _ (by omega),
          hshifted _ (by omega)] at hread
        obtain ⟨more, hmore, hlength, hnumber, hrest⟩ := ih (reached + 1) (2 * code + bit) middle next
          symbol (by omega) hpasses.1 (by omega) (by rw [first]; omega) hread
        refine ⟨more + 1, Nat.succ_ne_zero _, by omega, ?_, ?_⟩
        · rw [Nat.pow_succ, ← Nat.div_div_eq_div_mul, hnumber]
          omega
        · rw [BitString.msb, hnumber]
          rw [hlsb] at hpasses
          exact hpasses.trans hrest

/-- What is read is the codeword of a symbol. -/
theorem decode_eq_ok (h : tree.Holds lengths) {reader next : BitReader} (hreader : Valid reader) {symbol : Nat}
    (hread : (tree.decode reader).result = .ok (symbol, next)) :
    length lengths symbol ≠ 0 ∧ Passes reader next (codeword lengths symbol) := by
  obtain ⟨more, hmore, hlength, -, hpasses⟩ :=
    decodeFrom_eq_ok h maxCodeBits 0 0 reader next symbol rfl hreader Nat.one_pos (Nat.le_refl 0) hread
  rw [Nat.zero_add] at hlength
  rw [codeword, hlength]
  exact ⟨hmore, hpasses⟩

/-- A tree that is made is the table of the code it is made of. -/
theorem holds_of_fromLengths {allowEmpty : Bool} (h : fromLengths lengths allowEmpty = .ok tree) :
    tree.Holds lengths := by
  obtain ⟨hcodable, hempty⟩ := codable_of_fromLengths h
  obtain ⟨made, hmade, hholds⟩ := fromLengths_holds hcodable allowEmpty hempty
  obtain rfl : made = tree := Except.ok.inj (hmade.symm.trans h)
  exact hholds

end Huffman

/-- Lengths that a tree is made of are those of a code. -/
theorem exists_prefixCode {lengths : List Nat} {allowEmpty : Bool} {tree : Huffman}
    (h : Huffman.fromLengths lengths allowEmpty = .ok tree) :
    ∃ code : PrefixCode, code.lengths = lengths := by
  obtain ⟨hcodable, -⟩ := Huffman.codable_of_fromLengths h
  exact ⟨⟨lengths, hcodable.length_le, not_oversubscribed hcodable.fits hcodable.length_le⟩, rfl⟩

/-! ### Tokens -/

/-- What is found in the two tables, with bits behind it, is a number. -/
theorem exists_coded {bases widths : List Nat} {index base width bits : Nat}
    (hbase : bases[index]? = some base) (hwidth : widths[index]? = some width) (hbits : bits < 2 ^ width) :
    ∃ coded : Coded bases widths, coded.index = index ∧ coded.value = base + bits ∧
      coded.extra = lsb width bits := by
  have hbases : bases.getD index 0 = base := by rw [List.getD_eq_getElem?_getD, hbase, Option.getD_some]
  have hwidths : widths.getD index 0 = width := by
    rw [List.getD_eq_getElem?_getD, hwidth, Option.getD_some]
  refine ⟨⟨index, bits, (List.getElem?_eq_some_iff.mp hbase).1, hwidths.symm ▸ hbits⟩, rfl, ?_, ?_⟩
  · rw [Coded.value, hbases]
  · exact congrArg (fun width => lsb width bits) hwidths

section tokens

variable {codes : Codes} {literalTree distanceTree : Huffman} (htrees : Holds codes literalTree distanceTree)
  {expected : Option Nat} {maximum : Nat} {reader next : BitReader}

include htrees

theorem readMatch_eq_ok {symbol : Nat} (hmin : 257 ≤ symbol) (hreader : Valid reader) {out : Nat × Nat}
    (h : (readMatch distanceTree symbol reader).result = .ok (out, next)) :
    ∃ (length : Coded lengthBase lengthExtra) (distance : Coded distanceBase distanceExtra),
      symbol = 257 + length.index ∧ out = (length.value, distance.value) ∧
      codes.distances.Has distance.index ∧
      Passes reader next (length.extra ++ (codes.distances.codeword distance.index ++ distance.extra)) := by
  rw [readMatch, checkedSub_of_le hmin, Cursor.result_lift_bind (result_orFormat_some _ _)] at h
  obtain ⟨base, hbase, h⟩ := Cursor.lift_bind_eq_ok.mp h
  obtain ⟨width, hwidth, h⟩ := Cursor.lift_bind_eq_ok.mp h
  obtain ⟨bits, first, hbits, h⟩ := Cursor.bind_eq_ok.mp h
  obtain ⟨hbits, hfirst⟩ := readBits_eq_ok hreader hbits
  obtain ⟨size, hsize, h⟩ := Cursor.lift_bind_eq_ok.mp h
  obtain ⟨-, rfl⟩ := checkedAdd_eq_some.mp (orFormat_eq_ok.mp hsize)
  obtain ⟨index, second, hindex, h⟩ := Cursor.bind_eq_ok.mp h
  obtain ⟨hhas, hsecond⟩ := Huffman.decode_eq_ok htrees.distances hfirst.1 hindex
  obtain ⟨base', hbase', h⟩ := Cursor.lift_bind_eq_ok.mp h
  obtain ⟨width', hwidth', h⟩ := Cursor.lift_bind_eq_ok.mp h
  obtain ⟨bits', third, hbits', h⟩ := Cursor.bind_eq_ok.mp h
  obtain ⟨hbits', hthird⟩ := readBits_eq_ok hsecond.1 hbits'
  obtain ⟨size', hsize', h⟩ := Cursor.lift_bind_eq_ok.mp h
  obtain ⟨-, rfl⟩ := checkedAdd_eq_some.mp (orFormat_eq_ok.mp hsize')
  obtain ⟨rfl, rfl⟩ := Cursor.pure_eq_ok.mp h
  obtain ⟨length, hplace, hvalue, hextra⟩ :=
    exists_coded (orFormat_eq_ok.mp hbase) (orFormat_eq_ok.mp hwidth) hbits
  obtain ⟨distance, rfl, hvalue', hextra'⟩ :=
    exists_coded (orFormat_eq_ok.mp hbase') (orFormat_eq_ok.mp hwidth') hbits'
  refine ⟨length, distance, by omega, by rw [hvalue, hvalue'], hhas, ?_⟩
  rw [hextra, hextra']
  exact hfirst.trans (hsecond.trans hthird)

/-- A round of the loop over a block reads a token, or the end of the block. -/
theorem decodeRound_eq_ok {fuel : Nat} {history out : Bytes} (hreader : Valid reader)
    (h : (decodeCompressedBlock literalTree distanceTree expected maximum (fuel + 1) history reader).result
      = .ok (out, next)) :
    (out = history ∧ Passes reader next (codes.literals.codeword 256)) ∨
      ∃ (token : Token) (extended : Bytes) (middle : BitReader), token.Writable codes ∧
        token.expand history = some extended ∧ Allows expected maximum extended.length ∧
        Passes reader middle (token.word codes) ∧
        (decodeCompressedBlock literalTree distanceTree expected maximum fuel extended middle).result
          = .ok (out, next) := by
  rw [decodeCompressedBlock, Cursor.result_lift_bind (result_checkpoint 1)] at h
  obtain ⟨symbol, first, hsymbol, h⟩ := Cursor.bind_eq_ok.mp h
  obtain ⟨hhas, hfirst⟩ := Huffman.decode_eq_ok htrees.literals hreader hsymbol
  by_cases hliteral : symbol ≤ 255
  · rw [if_pos hliteral, tryFrom_of_lt (by omega), Cursor.result_lift_bind (result_orFormat_some _ _)] at h
    obtain ⟨extended, hextended, h⟩ := Cursor.lift_bind_eq_ok.mp h
    obtain ⟨hallows, rfl⟩ := appendLiteral_eq_ok.mp hextended
    have hbyte : (UInt8.ofNat symbol).toNat = symbol := by
      rw [UInt8.toNat_ofNat']
      exact Nat.mod_eq_of_lt (by omega)
    refine .inr ⟨.literal (UInt8.ofNat symbol), _, _, ?_, rfl, ?_, ?_, h⟩
    · show codes.literals.Has _
      rwa [hbyte]
    · rwa [List.length_append]
    · rw [Token.word, hbyte]
      exact hfirst
  · rw [if_neg hliteral] at h
    by_cases hend : symbol = 256
    · rw [if_pos hend] at h
      obtain ⟨rfl, rfl⟩ := Cursor.pure_eq_ok.mp h
      exact .inl ⟨rfl, hend ▸ hfirst⟩
    · rw [if_neg hend] at h
      by_cases hmatch : symbol ≤ 285
      · rw [if_pos hmatch] at h
        obtain ⟨pair, middle, hpair, h⟩ := Cursor.bind_eq_ok.mp h
        obtain ⟨length, distance, rfl, rfl, hdistance, hmiddle⟩ :=
          readMatch_eq_ok htrees (by omega) hfirst.1 hpair
        obtain ⟨extended, hextended, h⟩ := Cursor.lift_bind_eq_ok.mp h
        obtain ⟨⟨hpos, -, hnear⟩, hallows, rfl⟩ := copyMatch_eq_ok.mp hextended
        refine .inr ⟨.copy length distance, _, _, ⟨hhas, hdistance⟩, if_pos hnear, ?_, ?_, h⟩
        · rwa [Lz77.length_copy hpos _ hnear]
        · exact hfirst.trans hmiddle
      · rw [if_neg hmatch] at h
        exact absurd (Cursor.lift_eq_ok.mp h).1 (by simp)

/-- A block in codes is a sequence of tokens. -/
theorem decodeCompressedBlock_eq_ok (fuel : Nat) : ∀ (history out : Bytes) (reader next : BitReader),
    Valid reader → Allows expected maximum history.length →
    (decodeCompressedBlock literalTree distanceTree expected maximum fuel history reader).result
      = .ok (out, next) →
    ∃ tokens : List Token, (∀ token ∈ tokens, token.Writable codes) ∧
      tokens.foldlM Token.expand history = some out ∧ Allows expected maximum out.length ∧
      Passes reader next (tokensWord codes tokens) := by
  induction fuel with
  | zero =>
      intro history out reader next _ _ h
      exact absurd (Cursor.lift_eq_ok.mp h).1 (by simp)
  | succ fuel ih =>
      intro history out reader next hreader hallows h
      rcases decodeRound_eq_ok htrees hreader h with
        ⟨rfl, hend⟩ | ⟨token, extended, middle, hwritable, hexpand, hextended, hmiddle, h⟩
      · exact ⟨[], fun token hmem => absurd hmem List.not_mem_nil, rfl, hallows, hend⟩
      · obtain ⟨tokens, htokens, hout, hallows, hrest⟩ := ih extended out middle next hmiddle.1 hextended h
        refine ⟨token :: tokens, List.forall_mem_cons.mpr ⟨hwritable, htokens⟩, ?_, hallows, ?_⟩
        · rw [List.foldlM_cons, hexpand]
          exact hout
        · rw [tokensWord, List.flatMap_cons, List.append_assoc]
          exact hmiddle.trans hrest

end tokens

/-! ### The lengths of a header -/

/-- The lengths of some symbols are read into their places, and the others stay. -/
theorem readCodeLengths_eq_ok (symbols : List Nat) : ∀ (table lengths : List Nat) (reader next : BitReader),
    symbols.Nodup → Valid reader → (readCodeLengths symbols table reader).result = .ok (lengths, next) →
    lengths.length = table.length ∧ (∀ place, place ∉ symbols → lengths[place]? = table[place]?) ∧
      (∀ symbol ∈ symbols, lengths.getD symbol 0 < 8) ∧
      Passes reader next (Header.lengthsWord lengths symbols) := by
  induction symbols with
  | nil =>
      intro table lengths reader next _ hreader h
      obtain ⟨rfl, rfl⟩ := Cursor.pure_eq_ok.mp h
      exact ⟨rfl, fun _ _ => rfl, fun symbol hmem => absurd hmem List.not_mem_nil, Passes.refl hreader⟩
  | cons symbol symbols ih =>
      intro table lengths reader next hnodup hreader h
      obtain ⟨hfresh, hnodup⟩ := List.nodup_cons.mp hnodup
      rw [readCodeLengths] at h
      obtain ⟨bits, middle, hbits, h⟩ := Cursor.bind_eq_ok.mp h
      obtain ⟨hsmall, hmiddle⟩ := readBits_eq_ok hreader hbits
      rw [tryFrom_of_lt (Nat.lt_trans hsmall (by decide)),
        Cursor.result_lift_bind (result_orFormat_some _ _)] at h
      by_cases hplace : symbol < table.length
      · rw [if_pos hplace] at h
        obtain ⟨hlength, hothers, hlt, hrest⟩ := ih _ lengths middle next hnodup hmiddle.1 h
        have hread : lengths.getD symbol 0 = bits := by
          rw [List.getD_eq_getElem?_getD, hothers symbol hfresh, List.getElem?_set_self hplace,
            Option.getD_some]
        refine ⟨by rw [hlength, List.length_set], fun place hnone => ?_,
          List.forall_mem_cons.mpr ⟨hread.symm ▸ hsmall, hlt⟩, ?_⟩
        · obtain ⟨hne, hrest⟩ := List.ne_and_not_mem_of_not_mem_cons hnone
          rw [hothers place hrest, List.getElem?_set_ne (Ne.symm hne)]
        · rw [Header.lengthsWord, List.flatMap_cons, hread]
          exact hmiddle.trans hrest
      · rw [if_neg hplace] at h
        exact absurd (Cursor.lift_eq_ok.mp h).1 (by simp)

/-- What is read of a sheet, and how far it is filled then, is what an item stands for. -/
theorem expandSymbol_eq_ok {total symbol position : Nat} {done lengths : List Nat} {reader next : BitReader}
    (hreader : Valid reader) (hsymbol : symbol < 19) (hless : done.length < total) (htotal : total ≤ 318)
    (h : (expandSymbol total (sheet done) done.length symbol reader).result
      = .ok ((lengths, position), next)) :
    ∃ (item : Item) (out : List Nat), item.symbol = symbol ∧ item.expand done = some out ∧
      out.length ≤ total ∧ lengths = sheet out ∧ position = out.length ∧
      Passes reader next (lsb (itemWidth symbol) item.bits) := by
  unfold expandSymbol at h
  by_cases hlength : symbol ≤ 15
  · have hwidth : itemWidth symbol = 0 := by
      unfold itemWidth
      rw [if_neg (by omega), if_neg (by omega), if_neg (by omega)]
    rw [if_pos hlength, if_pos (by rw [length_sheet (by omega)]; omega), tryFrom_of_lt (by omega),
      Cursor.result_lift_bind (result_orFormat_some _ _), checkedAdd_of_lt (by omega),
      Cursor.result_lift_bind (result_orFormat_some _ _)] at h
    obtain ⟨hpair, rfl⟩ := Cursor.pure_eq_ok.mp h
    obtain ⟨rfl, rfl⟩ := Prod.mk.inj hpair
    refine ⟨⟨symbol, 0, hsymbol, Nat.two_pow_pos _⟩, done ++ [symbol], rfl, if_pos hlength, ?_,
      set_sheet (by omega) symbol, ?_, ?_⟩
    · rw [List.length_append]
      exact hless
    · rw [List.length_append, List.length_singleton]
    · show Passes reader reader (lsb (itemWidth symbol) 0)
      rw [hwidth]
      exact Passes.refl hreader
  rw [if_neg hlength] at h
  by_cases hprevious : symbol = 16
  · subst hprevious
    rw [if_pos rfl] at h
    obtain ⟨previousIndex, hindex, h⟩ := Cursor.lift_bind_eq_ok.mp h
    obtain ⟨hnonempty, rfl⟩ := checkedSub_eq_some.mp (orFormat_eq_ok.mp hindex)
    obtain ⟨previous, hprevious, h⟩ := Cursor.lift_bind_eq_ok.mp h
    obtain ⟨bits, last, hbits, h⟩ := Cursor.bind_eq_ok.mp h
    obtain ⟨hsmall, hlast⟩ := readBits_eq_ok hreader hbits
    have hbound : bits < 4 := hsmall
    rw [checkedAdd_of_lt (by omega), Cursor.result_lift_bind (result_orFormat_some _ _),
      checkedAdd_of_lt (by omega), Cursor.result_lift_bind (result_orFormat_some _ _)] at h
    by_cases hstop : done.length + (bits + 3) > total
    · rw [if_pos hstop] at h
      exact absurd (Cursor.lift_eq_ok.mp h).1 (by simp)
    rw [if_neg hstop, if_pos (by rw [length_sheet (by omega)]; omega), Nat.add_comm bits 3,
      fillLengths_sheet] at h
    obtain ⟨hpair, rfl⟩ := Cursor.pure_eq_ok.mp h
    obtain ⟨rfl, rfl⟩ := Prod.mk.inj hpair
    have hgetLast : done.getLast? = some previous := by
      have hget := orFormat_eq_ok.mp hprevious
      rwa [sheet, List.getElem?_append_left (by omega), ← List.getLast?_eq_getElem?] at hget
    refine ⟨⟨16, bits, hsymbol, hsmall⟩, done ++ List.replicate (3 + bits) previous, rfl, ?_, ?_, rfl, ?_,
      hlast⟩
    · show done.getLast?.map _ = _
      rw [hgetLast]
      rfl
    · rw [List.length_append, List.length_replicate]
      omega
    · rw [List.length_append, List.length_replicate]
  rw [if_neg hprevious, if_pos (show symbol = 17 ∨ symbol = 18 by omega)] at h
  obtain ⟨width, base, hpair, hwidth, hwide, hrun⟩ : ∃ width base,
      (if symbol = 17 then (3, 3) else (7, 11)) = (width, base) ∧ itemWidth symbol = width ∧ width ≤ 7 ∧
        ∀ item : Item, item.symbol = symbol →
          item.expand done = some (done ++ List.replicate (base + item.bits) 0) := by
    by_cases hzeros : symbol = 17
    · subst hzeros
      refine ⟨3, 3, rfl, rfl, by decide, fun item hitem => ?_⟩
      rw [Item.expand, hitem]
      rfl
    · obtain rfl : symbol = 18 := by omega
      refine ⟨7, 11, rfl, rfl, by decide, fun item hitem => ?_⟩
      rw [Item.expand, hitem]
      rfl
  rw [hpair] at h
  obtain ⟨bits, last, hbits, h⟩ := Cursor.bind_eq_ok.mp h
  obtain ⟨hsmall, hlast⟩ := readBits_eq_ok hreader hbits
  obtain ⟨count, hcount, h⟩ := Cursor.lift_bind_eq_ok.mp h
  obtain ⟨-, rfl⟩ := checkedAdd_eq_some.mp (orFormat_eq_ok.mp hcount)
  obtain ⟨stop, hstop, h⟩ := Cursor.lift_bind_eq_ok.mp h
  obtain ⟨-, rfl⟩ := checkedAdd_eq_some.mp (orFormat_eq_ok.mp hstop)
  by_cases hstop : done.length + (bits + base) > total
  · rw [if_pos hstop] at h
    exact absurd (Cursor.lift_eq_ok.mp h).1 (by simp)
  rw [if_neg hstop] at h
  obtain ⟨hpair, rfl⟩ := Cursor.pure_eq_ok.mp h
  obtain ⟨rfl, rfl⟩ := Prod.mk.inj hpair
  refine ⟨⟨symbol, bits, hsymbol, hwidth.symm ▸ hsmall⟩, _, rfl, hrun _ rfl, ?_, ?_, ?_, hwidth.symm ▸ hlast⟩
  · rw [List.length_append, List.length_replicate]
    show done.length + (base + bits) ≤ total
    omega
  · exact (sheet_append (show done.length + (base + bits) ≤ 318 by omega)).symm
  · rw [List.length_append, List.length_replicate, Nat.add_comm bits base]

/-- The lengths of a header are those of its items. -/
theorem readLengths_eq_ok {codeLengths : PrefixCode} {codeTree : Huffman}
    (htree : codeTree.Holds codeLengths.lengths) (hnineteen : codeLengths.lengths.length = 19) {total : Nat}
    (htotal : total ≤ 318) (fuel : Nat) : ∀ (done lengths : List Nat) (reader next : BitReader),
    Valid reader → done.length ≤ total →
    (readLengths codeTree total fuel (sheet done) done.length reader).result = .ok (lengths, next) →
    ∃ (items : List Item) (out : List Nat), (∀ item ∈ items, codeLengths.Has item.symbol) ∧
      items.foldlM Item.expand done = some out ∧ out.length = total ∧ lengths = sheet out ∧
      Passes reader next (items.flatMap (Item.word codeLengths)) := by
  induction fuel with
  | zero =>
      intro done lengths reader next _ _ h
      exact absurd (Cursor.lift_eq_ok.mp h).1 (by simp)
  | succ fuel ih =>
      intro done lengths reader next hreader hle h
      rw [readLengths] at h
      by_cases hless : done.length < total
      · rw [if_pos hless] at h
        obtain ⟨symbol, first, hsymbol, h⟩ := Cursor.bind_eq_ok.mp h
        obtain ⟨hhas, hfirst⟩ := Huffman.decode_eq_ok htree hreader hsymbol
        have hlt : symbol < 19 := hnineteen ▸ (getElem?_of_length_ne_zero hhas).1
        obtain ⟨⟨filled, position⟩, second, hexpand, h⟩ := Cursor.bind_eq_ok.mp h
        obtain ⟨item, more, rfl, hmore, hmoreLe, rfl, rfl, hsecond⟩ :=
          expandSymbol_eq_ok hfirst.1 hlt hless htotal hexpand
        obtain ⟨items, out, hitems, hout, hlength, hlengths, hrest⟩ :=
          ih more lengths second next hsecond.1 hmoreLe h
        refine ⟨item :: items, out, List.forall_mem_cons.mpr ⟨hhas, hitems⟩, ?_, hlength, hlengths, ?_⟩
        · rw [List.foldlM_cons, hmore]
          exact hout
        · rw [List.flatMap_cons, Item.word]
          exact (hfirst.trans hsecond).trans hrest
      · rw [if_neg hless] at h
        obtain ⟨rfl, rfl⟩ := Cursor.pure_eq_ok.mp h
        exact ⟨[], done, fun item hmem => absurd hmem List.not_mem_nil, rfl, by omega, rfl,
          Passes.refl hreader⟩

/-! ### Headers -/

theorem slice_sheet {out part : List Nat} {start stop : Nat} (h : slice (sheet out) start stop = some part)
    (hstop : stop ≤ out.length) : part = (out.take stop).drop start := by
  unfold slice at h
  split_ifs at h with hrange
  rw [← Option.some.inj h, sheet, List.take_append_of_le_length hstop]

/-- Lengths that are read make a header. -/
theorem exists_header {codeLengths : PrefixCode} {literalBits distanceBits countBits : Nat}
    {items : List Item} {out : List Nat} {literalTree distanceTree : Huffman}
    (hliteral : literalBits + 257 ≤ 286) (hdistance : distanceBits + 1 ≤ 32) (hcount : countBits + 4 ≤ 19)
    (hnineteen : codeLengths.lengths.length = 19) (hless : ∀ length ∈ codeLengths.lengths, length < 8)
    (hunsent : ∀ symbol ∈ codeLengthOrder.drop (countBits + 4), codeLengths.lengths.getD symbol 0 = 0)
    (hitems : ∀ item ∈ items, codeLengths.Has item.symbol) (hexpand : items.foldlM Item.expand [] = some out)
    (hout : out.length = literalBits + 257 + (distanceBits + 1))
    (hend : (sheet out)[256]?.getD 0 ≠ 0)
    (hliterals : Huffman.fromLengths (out.take (literalBits + 257)) false = .ok literalTree)
    (hdistances : Huffman.fromLengths (out.drop (literalBits + 257)) true = .ok distanceTree) :
    ∃ header : Header, Holds header.codes literalTree distanceTree ∧
      header.word = lsb 5 literalBits ++ (lsb 5 distanceBits ++ (lsb 4 countBits ++
        (Header.lengthsWord codeLengths.lengths (codeLengthOrder.take (countBits + 4)) ++
          items.flatMap (Item.word codeLengths)))) := by
  have hliteralHolds := Huffman.holds_of_fromLengths hliterals
  have hdistanceHolds := Huffman.holds_of_fromLengths hdistances
  obtain ⟨literalCode, hliteralCode⟩ := exists_prefixCode hliterals
  obtain ⟨distanceCode, hdistanceCode⟩ := exists_prefixCode hdistances
  have hsplit : literalCode.lengths ++ distanceCode.lengths = out := by
    rw [hliteralCode, hdistanceCode, List.take_append_drop]
  have hliteralLength : literalCode.lengths.length = literalBits + 257 := by
    rw [hliteralCode]
    exact List.length_take_of_le (by omega)
  have hdistanceLength : distanceCode.lengths.length = distanceBits + 1 := by
    rw [hdistanceCode, List.length_drop]
    omega
  rw [← hliteralCode] at hliteralHolds
  rw [← hdistanceCode] at hdistanceHolds
  have hhas : literalCode.Has 256 := by
    have hlt : 256 < literalCode.lengths.length := by omega
    rw [sheet, ← hsplit, List.append_assoc, List.getElem?_append_left hlt] at hend
    rwa [PrefixCode.Has, length, List.getD_eq_getElem?_getD]
  have hliteralRange : 257 ≤ literalCode.lengths.length ∧ literalCode.lengths.length ≤ 286 := by omega
  have hdistanceRange : 1 ≤ distanceCode.lengths.length ∧ distanceCode.lengths.length ≤ 32 := by omega
  refine ⟨⟨⟨literalCode, distanceCode⟩, codeLengths, countBits + 4, items, hliteralRange, hdistanceRange,
    ⟨Nat.le_add_left _ _, hcount⟩, hnineteen, hless, hunsent, hitems, by rw [hexpand, hsplit], hhas⟩, ⟨hliteralHolds, hdistanceHolds⟩, ?_⟩
  show lsb 5 (literalCode.lengths.length - 257) ++ (lsb 5 (distanceCode.lengths.length - 1) ++
    (lsb 4 (countBits + 4 - 4) ++ _)) = _
  rw [hliteralLength, hdistanceLength, Nat.add_sub_cancel, Nat.add_sub_cancel, Nat.add_sub_cancel]

/-- The trees of a block are described by a header. -/
theorem dynamicTrees_eq_ok {reader next : BitReader} {literalTree distanceTree : Huffman}
    (hreader : Valid reader)
    (h : (dynamicTrees reader).result = .ok ((literalTree, distanceTree), next)) :
    ∃ header : Header, Holds header.codes literalTree distanceTree ∧ Passes reader next header.word := by
  rw [dynamicTrees] at h
  obtain ⟨literalBits, first, hliteralBits, h⟩ := Cursor.bind_eq_ok.mp h
  obtain ⟨-, hfirst⟩ := readBits_eq_ok hreader hliteralBits
  obtain ⟨literalCount, hliteralCount, h⟩ := Cursor.lift_bind_eq_ok.mp h
  obtain ⟨-, rfl⟩ := checkedAdd_eq_some.mp (orFormat_eq_ok.mp hliteralCount)
  obtain ⟨distanceBits, second, hdistanceBits, h⟩ := Cursor.bind_eq_ok.mp h
  obtain ⟨-, hsecond⟩ := readBits_eq_ok hfirst.1 hdistanceBits
  obtain ⟨distanceCount, hdistanceCount, h⟩ := Cursor.lift_bind_eq_ok.mp h
  obtain ⟨-, rfl⟩ := checkedAdd_eq_some.mp (orFormat_eq_ok.mp hdistanceCount)
  obtain ⟨countBits, third, hcountBits, h⟩ := Cursor.bind_eq_ok.mp h
  obtain ⟨-, hthird⟩ := readBits_eq_ok hsecond.1 hcountBits
  obtain ⟨codeLengthCount, hcodeLengthCount, h⟩ := Cursor.lift_bind_eq_ok.mp h
  obtain ⟨-, rfl⟩ := checkedAdd_eq_some.mp (orFormat_eq_ok.mp hcodeLengthCount)
  by_cases hinvalid : literalBits + 257 > 286 ∨ distanceBits + 1 > 32 ∨ countBits + 4 > 19
  · rw [if_pos hinvalid] at h
    exact absurd (Cursor.lift_eq_ok.mp h).1 (by simp)
  rw [if_neg hinvalid] at h
  -- the code in which the lengths are written
  have hnodup : codeLengthOrder.Nodup := by decide
  obtain ⟨table, fourth, htable, h⟩ := Cursor.bind_eq_ok.mp h
  obtain ⟨hnineteen, hothers, hless, hfourth⟩ := readCodeLengths_eq_ok _ _ _ _ _
    (hnodup.sublist (List.take_sublist (countBits + 4) _)) hthird.1 htable
  rw [List.length_replicate] at hnineteen
  obtain ⟨codeTree, hcodeTree, h⟩ := Cursor.lift_bind_eq_ok.mp h
  rw [result_ofExcept] at hcodeTree
  have hcodeHolds := Huffman.holds_of_fromLengths hcodeTree
  obtain ⟨codeLengths, hcodeLengths⟩ := exists_prefixCode hcodeTree
  rw [← hcodeLengths] at hnineteen hothers hless hfourth hcodeHolds
  -- the lengths of both codes
  obtain ⟨total, htotal, h⟩ := Cursor.lift_bind_eq_ok.mp h
  obtain ⟨-, rfl⟩ := checkedAdd_eq_some.mp (orFormat_eq_ok.mp htotal)
  obtain ⟨lengths, fifth, hlengths, h⟩ := Cursor.bind_eq_ok.mp h
  obtain ⟨items, out, hitems, hexpand, hout, rfl, hfifth⟩ :=
    @readLengths_eq_ok codeLengths codeTree hcodeHolds hnineteen _ (by omega) _ [] _ _ _ hfourth.1
      (Nat.zero_le _) hlengths
  by_cases hnoEnd : (sheet out)[256]?.getD 0 = 0
  · rw [if_pos hnoEnd] at h
    exact absurd (Cursor.lift_eq_ok.mp h).1 (by simp)
  rw [if_neg hnoEnd] at h
  obtain ⟨literals, hliterals, h⟩ := Cursor.lift_bind_eq_ok.mp h
  obtain rfl := slice_sheet (orFormat_eq_ok.mp hliterals) (by omega)
  obtain ⟨distances, hdistances, h⟩ := Cursor.lift_bind_eq_ok.mp h
  obtain rfl := slice_sheet (orFormat_eq_ok.mp hdistances) hout.ge
  rw [List.drop_zero, ← hout, List.take_length] at h
  obtain ⟨tree, hliteralTree, h⟩ := Cursor.lift_bind_eq_ok.mp h
  obtain ⟨tree', hdistanceTree, h⟩ := Cursor.lift_bind_eq_ok.mp h
  obtain ⟨hpair, rfl⟩ := Cursor.pure_eq_ok.mp h
  obtain ⟨rfl, rfl⟩ := Prod.mk.inj hpair
  rw [result_ofExcept] at hliteralTree hdistanceTree
  -- what is not sent has no codeword
  have hunsent : ∀ symbol ∈ codeLengthOrder.drop (countBits + 4), codeLengths.lengths.getD symbol 0 = 0 := by
    intro symbol hmem
    have hfresh : symbol ∉ codeLengthOrder.take (countBits + 4) := fun htake =>
      List.disjoint_of_nodup_append (by rwa [List.take_append_drop]) htake hmem
    have hzeros : ∀ place < 19, (List.replicate 19 0)[place]? = some 0 := by decide
    have hplace : ∀ symbol ∈ codeLengthOrder, symbol < 19 := by decide
    rw [List.getD_eq_getElem?_getD, hothers symbol hfresh, hzeros symbol (hplace symbol (List.mem_of_mem_drop hmem)),
      Option.getD_some]
  have hlt : ∀ length ∈ codeLengths.lengths, length < 8 := by
    intro length hmem
    obtain ⟨place, hplace, rfl⟩ := List.getElem_of_mem hmem
    have horder : ∀ symbol < 19, symbol ∈ codeLengthOrder := by decide
    have hget : codeLengths.lengths.getD place 0 = codeLengths.lengths[place] := by
      rw [List.getD_eq_getElem?_getD, List.getElem?_eq_getElem hplace, Option.getD_some]
    rw [← hget]
    have hboth := horder place (hnineteen ▸ hplace)
    rw [← List.take_append_drop (countBits + 4) codeLengthOrder, List.mem_append] at hboth
    rcases hboth with htake | hdrop
    · exact hless place htake
    · rw [hunsent place hdrop]
      decide
  obtain ⟨header, hholds, hword⟩ := exists_header (by omega) (by omega) (by omega) hnineteen hlt hunsent
    hitems hexpand hout hnoEnd hliteralTree hdistanceTree
  refine ⟨header, hholds, ?_⟩
  rw [hword]
  exact hfirst.trans (hsecond.trans (hthird.trans (hfourth.trans hfifth)))

/-! ### Blocks -/

theorem readStored_eq_ok (length : Nat) : ∀ (history out : Bytes) (reader next : BitReader), Valid reader →
    (readStored length history reader).result = .ok (out, next) →
    ∃ bytes : Bytes, bytes.length = length ∧ history ++ bytes = out ∧ Passes reader next (ofBytes bytes) := by
  induction length with
  | zero =>
      intro history out reader next hreader h
      obtain ⟨rfl, rfl⟩ := Cursor.pure_eq_ok.mp h
      exact ⟨[], rfl, List.append_nil _, Passes.refl hreader⟩
  | succ length ih =>
      intro history out reader next hreader h
      rw [readStored] at h
      obtain ⟨bits, middle, hbits, h⟩ := Cursor.bind_eq_ok.mp h
      obtain ⟨hsmall, hmiddle⟩ := readBits_eq_ok hreader hbits
      rw [tryFrom_of_lt hsmall, Cursor.result_lift_bind (result_orFormat_some _ _),
        Cursor.result_lift_bind (result_checkpoint 1)] at h
      obtain ⟨bytes, hlength, hout, hrest⟩ := ih _ out middle next hmiddle.1 h
      have hbyte : (UInt8.ofNat bits).toNat = bits := by
        rw [UInt8.toNat_ofNat']
        exact Nat.mod_eq_of_lt hsmall
      refine ⟨UInt8.ofNat bits :: bytes, congrArg Nat.succ hlength, ?_, ?_⟩
      · rw [← hout, List.append_assoc]
        rfl
      · rw [BitString.ofBytes_cons, hbyte]
        exact hmiddle.trans hrest

section blocks

variable {expected : Option Nat} {maximum : Nat} {history out : Bytes} {reader next : BitReader}

/-- A stored block is some bytes behind the rest of the byte it starts in. -/
theorem decodeStoredBlock_eq_ok (hreader : Valid reader)
    (h : (decodeStoredBlock history expected maximum reader).result = .ok (out, next)) :
    ∃ (padding : List Bool) (bytes : Bytes), padding.length = (rest reader).length % 8 ∧
      bytes.length < 2 ^ 16 ∧ history ++ bytes = out ∧ Allows expected maximum out.length ∧
      Passes reader next (padding ++ (lsb 16 bytes.length ++
        (lsb 16 (bytes.length ^^^ 0xffff) ++ ofBytes bytes))) := by
  have halign : ((modify BitReader.alignToByte : Bits Unit) reader).result
      = .ok ((), reader.alignToByte) := rfl
  obtain ⟨haligned, hskipped⟩ := BitReader.align hreader
  have hpadding : Passes reader reader.alignToByte
      ((rest reader).take ((rest reader).length % 8)) := by
    refine ⟨haligned, ?_⟩
    rw [hskipped, List.take_append_drop]
  rw [decodeStoredBlock, Cursor.result_bind_ok halign] at h
  obtain ⟨length, first, hlength, h⟩ := Cursor.bind_eq_ok.mp h
  obtain ⟨hshort, hfirst⟩ := readBits_eq_ok haligned hlength
  obtain ⟨complement, second, hcomplement, h⟩ := Cursor.bind_eq_ok.mp h
  obtain ⟨-, hsecond⟩ := readBits_eq_ok hfirst.1 hcomplement
  by_cases hmatches : length ^^^ 0xffff ≠ complement
  · rw [if_pos hmatches] at h
    exact absurd (Cursor.lift_eq_ok.mp h).1 (by simp)
  rw [if_neg hmatches] at h
  obtain ⟨⟨⟩, hreserve, h⟩ := Cursor.lift_bind_eq_ok.mp h
  obtain ⟨bytes, hbytes, hout, hlast⟩ := readStored_eq_ok length history out second next hsecond.1 h
  refine ⟨_, bytes, List.length_take_of_le (Nat.mod_le _ _), hbytes.symm ▸ hshort, hout, ?_, ?_⟩
  · rw [← hout, List.length_append, hbytes]
    exact reserveOutput_eq_ok.mp hreserve
  · rw [hbytes, not_not.mp hmatches]
    exact hpadding.trans (hfirst.trans (hsecond.trans hlast))

/-- What a block is read as can be written at the place where it is read. -/
theorem decodeBlock_eq_ok {offset fuel : Nat} (hreader : Valid reader)
    (hplace : (offset + (rest reader).length) % 8 = 0) (hallows : Allows expected maximum history.length)
    (h : (decodeBlock fuel history expected maximum reader).result = .ok (out, next)) :
    ∃ block : Block, block.Writable offset ∧ block.expand history = some out ∧
      Allows expected maximum out.length ∧ Passes reader next block.word := by
  rw [decodeBlock] at h
  obtain ⟨kind, first, hkind, h⟩ := Cursor.bind_eq_ok.mp h
  obtain ⟨-, hfirst⟩ := readBits_eq_ok hreader hkind
  by_cases hstored : kind = 0
  · subst hstored
    rw [if_pos rfl] at h
    obtain ⟨padding, bytes, hpadding, hshort, hout, hallows, hrest⟩ := decodeStoredBlock_eq_ok hfirst.1 h
    have hlength := hfirst.length_rest
    rw [BitString.length_lsb] at hlength
    exact ⟨.stored padding bytes, ⟨hshort, by omega, by omega⟩, congrArg some hout, hallows,
      hfirst.trans hrest⟩
  rw [if_neg hstored] at h
  by_cases hfixed : kind = 1
  · subst hfixed
    obtain ⟨literalTree, distanceTree, htrees, hholds⟩ := exists_fixedTrees
    rw [if_pos rfl, htrees] at h
    obtain ⟨trees, hboth, h⟩ := Cursor.lift_bind_eq_ok.mp h
    rw [result_ofExcept] at hboth
    obtain rfl := Except.ok.inj hboth
    obtain ⟨tokens, hwritable, hout, hallows, hrest⟩ :=
      decodeCompressedBlock_eq_ok hholds fuel history out first next hfirst.1 hallows h
    exact ⟨.fixed tokens, hwritable, hout, hallows, hfirst.trans hrest⟩
  rw [if_neg hfixed] at h
  by_cases hdynamic : kind = 2
  · subst hdynamic
    rw [if_pos rfl] at h
    obtain ⟨⟨literalTree, distanceTree⟩, second, htrees, h⟩ := Cursor.bind_eq_ok.mp h
    obtain ⟨header, hholds, hsecond⟩ := dynamicTrees_eq_ok hfirst.1 htrees
    obtain ⟨tokens, hwritable, hout, hallows, hrest⟩ :=
      decodeCompressedBlock_eq_ok hholds fuel history out second next hsecond.1 hallows h
    exact ⟨.dynamic header tokens, hwritable, hout, hallows, hfirst.trans (hsecond.trans hrest)⟩
  · rw [if_neg hdynamic] at h
    exact absurd (Cursor.lift_eq_ok.mp h).1 (by simp)

/-! ### Streams -/

/-- What is read up to a last block are blocks one behind the other. -/
theorem decodeBlocks_eq_ok {symbolFuel : Nat} (fuel : Nat) : ∀ (offset : Nat) (history out : Bytes)
    (reader next : BitReader), Valid reader → (offset + (rest reader).length) % 8 = 0 →
    Allows expected maximum history.length →
    (decodeBlocks symbolFuel expected maximum fuel history reader).result = .ok (out, next) →
    ∃ blocks : List Block, blocks ≠ [] ∧ Writable offset blocks ∧
      blocks.foldlM Block.expand history = some out ∧ Allows expected maximum out.length ∧
      Passes reader next (streamWord blocks) := by
  induction fuel with
  | zero =>
      intro offset history out reader next _ _ _ h
      exact absurd (Cursor.lift_eq_ok.mp h).1 (by simp)
  | succ fuel ih =>
      intro offset history out reader next hreader hplace hallows h
      rw [decodeBlocks, Cursor.result_lift_bind (result_checkpoint 1)] at h
      obtain ⟨finalBlock, first, hfinal, h⟩ := Cursor.bind_eq_ok.mp h
      obtain ⟨hbit, hfirst⟩ := readBits_eq_ok hreader hfinal
      obtain ⟨middle, second, hmiddle, h⟩ := Cursor.bind_eq_ok.mp h
      have hlength := hfirst.length_rest
      rw [BitString.length_lsb] at hlength
      have hplace' : (offset + 1 + (rest first).length) % 8 = 0 := by omega
      obtain ⟨block, hblock, hexpand, hextended, hsecond⟩ :=
        decodeBlock_eq_ok hfirst.1 hplace' hallows hmiddle
      have hlength' := hsecond.length_rest
      by_cases hlast : finalBlock ≠ 0
      · obtain rfl : finalBlock = 1 := by omega
        rw [if_pos hlast] at h
        obtain ⟨rfl, rfl⟩ := Cursor.pure_eq_ok.mp h
        refine ⟨[block], List.cons_ne_nil _ _, ⟨hblock, trivial⟩, ?_, hextended, ?_⟩
        · rw [List.foldlM_cons, hexpand]
          rfl
        · rw [streamWord, streamWord, List.append_nil, if_pos rfl]
          exact hfirst.trans hsecond
      · rw [if_neg hlast] at h
        obtain ⟨blocks, hne, hwritable, hout, hallows, hrest⟩ :=
          ih (offset + 1 + block.word.length) middle out second next hsecond.1 (by omega) hextended h
        refine ⟨block :: blocks, List.cons_ne_nil _ _, ⟨hblock, hwritable⟩, ?_, hallows, ?_⟩
        · rw [List.foldlM_cons, hexpand]
          exact hout
        · rw [streamWord, if_neg hne]
          rw [not_not.mp hlast] at hfirst
          exact hfirst.trans (hsecond.trans hrest)

end blocks

/-- Streams of blocks are accepted, with what the blocks stand for, and nothing else is. -/
theorem decodeDeflate64_eq_ok {input output : Bytes} {expected : Option Nat} {maximum : Nat} {limits : Limits}
    (hinput : input.length < 2 ^ 64) :
    (decodeDeflate64 input expected maximum limits).result = .ok output ↔
      deflate64DictionaryBytes ≤ limits.maxDictionaryBytes ∧
      (Allows expected maximum output.length ∧ ∀ declared ∈ expected, declared = output.length) ∧
      ∃ blocks, Writes blocks input ∧ expand blocks = some output := by
  constructor
  · intro h
    rw [decodeDeflate64] at h
    obtain ⟨⟨⟩, hdictionary, h⟩ := Metered.bind_eq_ok.mp h
    obtain ⟨⟨⟩, hdeclared, h⟩ := Metered.bind_eq_ok.mp h
    obtain ⟨⟨out, reader⟩, hrun, h⟩ := Metered.bind_eq_ok.mp h
    obtain ⟨htrailing, h⟩ := refuseFormat_eq_ok.mp h
    obtain ⟨hsame, h⟩ := refuseFormat_eq_ok.mp h
    obtain rfl := Except.ok.inj h
    have hexact : ∀ declared ∈ expected, declared = out.length := by
      intro declared hmem
      by_contra hne
      obtain rfl : expected = some declared := hmem
      exact hsame (by simpa using hne)
    have hstart : Allows expected maximum ([] : Bytes).length :=
      ⟨by decide, fun _ _ => Nat.zero_le _, Nat.zero_le _⟩
    have hvalid := BitReader.valid_new hinput
    obtain ⟨blocks, hne, hwritable, hexpand, hallows, hpasses⟩ := decodeBlocks_eq_ok (roundLimit input) 0 []
      out (BitReader.new input) reader hvalid
      (by rw [BitReader.rest_new, BitString.length_ofBytes]; omega) hstart hrun
    refine ⟨checkLimit_eq_ok.mp hdictionary, ⟨hallows, hexact⟩, blocks, ⟨hne, hwritable, rest reader, ?_,
      hpasses.2⟩, hexpand⟩
    -- no byte is left, and so no more than what is in the buffer
    have hposition : reader.position = reader.input.length := by
      simpa [BitReader.hasTrailingBytes] using htrailing
    have hlength := BitReader.length_ahead reader
    have hbuffered := hpasses.1.buffered
    show reader.ahead.length < 8
    omega
  · rintro ⟨hdictionary, ⟨hallows, hexact⟩, blocks, hwrites, hexpand⟩
    exact decodeDeflate64_of_writes hwrites hexpand hinput hallows hexact hdictionary

theorem decodeDeflate64_eq_ok_sample : ∃ blocks, Writes blocks [3, 0] ∧ expand blocks = some [] :=
  ((@decodeDeflate64_eq_ok [3, 0] [] none 0 {} (by decide)).mp (by decide +kernel)).2.2

/-- Whatever comes behind a stream that is accepted is refused as trailing input. -/
theorem decodeDeflate64_trailing {input more output : Bytes} {expected : Option Nat} {maximum : Nat}
    {limits : Limits} (hlength : (input ++ more).length < 2 ^ 64) (hmore : more ≠ [])
    (h : (decodeDeflate64 input expected maximum limits).result = .ok output) :
    (decodeDeflate64 (input ++ more) expected maximum limits).result
      = .error (formatError "Deflate64 stream has trailing input") := by
  have hinput : input.length < 2 ^ 64 := by
    rw [List.length_append] at hlength
    omega
  obtain ⟨hdictionary, ⟨hallows, hexact⟩, blocks, ⟨hne, hwritable, padding, hpadding, hbits⟩, hexpand⟩ :=
    (decodeDeflate64_eq_ok hinput).mp h
  have hboth : rest (BitReader.new (input ++ more)) = streamWord blocks ++ (padding ++ ofBytes more) := by
    show (input ++ more).flatMap _ = _
    rw [List.flatMap_append, ← List.append_assoc, ← hbits]
    rfl
  have hbytes := BitString.length_ofBytes (input ++ more)
  have hall : (ofBytes (input ++ more)).length = (streamWord blocks).length + (padding ++ ofBytes more).length := by
    rw [← List.length_append]
    exact congrArg List.length hboth
  have hcount := length_le_streamWord blocks
  obtain ⟨next, hrun, hnext, htail⟩ := @result_decodeBlocks expected maximum (roundLimit (input ++ more))
    blocks 0 (roundLimit (input ++ more)) [] output (BitReader.new (input ++ more)) _ hne
    (BitReader.valid_new hlength) hboth (by rw [BitReader.rest_new, hbytes]; omega) hwritable hexpand hallows
    (by unfold roundLimit; omega) (by unfold roundLimit; omega)
  have htrailing : next.hasTrailingBytes = true := by
    have hpos := List.length_pos_iff.mpr hmore
    have hahead := BitReader.length_ahead next
    have hbuffered := hnext.buffered
    have hleft : next.ahead.length = padding.length + 8 * more.length := by
      rw [show next.ahead = padding ++ ofBytes more from htail, List.length_append,
        BitString.length_ofBytes]
    exact bne_iff_ne.mpr (by omega)
  have hdeclared : expected.getD 0 ≤ maximum := by
    cases expected with
    | none => exact Nat.zero_le _
    | some declared => exact (hexact declared rfl).le.trans hallows.maximum
  rw [decodeDeflate64, Metered.result_bind_ok (checkLimit_of_le hdictionary _),
    Metered.result_bind_ok (checkLimit_of_le hdeclared _), Metered.result_bind_ok hrun]
  dsimp only
  rw [if_pos htrailing]
  rfl

theorem decodeDeflate64_trailing_zero :
    (decodeDeflate64 ([3, 0] ++ [0]) none 0 {}).result
      = .error (formatError "Deflate64 stream has trailing input") :=
  @decodeDeflate64_trailing [3, 0] [0] [] none 0 {} (by decide) (by decide) (by decide +kernel)

end Deflate64

end Un7z
