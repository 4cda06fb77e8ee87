/-
What is written as a Deflate64 stream is decoded.

The words of `Deflate64Coding` are read piece by piece: a token by one round of the loop over
a block (`decodes_tokens`), a header by `dynamicTrees` (`decodes_dynamicTrees`).  These depend
on the bits ahead and on nothing else, so they are said with `Decodes`.  A stored block is
different, for where it aligns itself depends on the place it starts at; from there on the
place is carried along, as the number of bits that are left.
-/
import Un7z.Deflate64Coding
import Un7z.Proofs.Deflate64Trees

namespace Un7z

namespace Deflate64

open BitString (lsb ofBytes)
open BitReader (readBits decodes_readBits)
open Cursor (Decodes Valid rest)
open CanonicalCode

/-! ### The output -/

/-- An output of so many bytes is allowed. -/
structure Allows (expected : Option Nat) (maximum size : Nat) : Prop where
  word : size < 2 ^ 64
  expected : ∀ declared ∈ expected, size ≤ declared
  maximum : size ≤ maximum

section output

variable {expected : Option Nat} {maximum : Nat} {output out : Bytes}

theorem Allows.mono {m n : Nat} (h : Allows expected maximum n) (hle : m ≤ n) :
    Allows expected maximum m :=
  ⟨Nat.lt_of_le_of_lt hle h.word, fun declared hdeclared => hle.trans (h.expected declared hdeclared),
    hle.trans h.maximum⟩

theorem any_lt_eq_true {size : Nat} :
    expected.any (size > ·) = true ↔ ∃ declared ∈ expected, declared < size := by
  cases expected <;> simp

theorem reserveOutput_eq_ok {additional : Nat} {u : Unit} :
    (reserveOutput output additional expected maximum).result = .ok u ↔
      Allows expected maximum (output.length + additional) := by
  rw [reserveOutput, Metered.bind_eq_ok]
  constructor
  · rintro ⟨next, hnext, h⟩
    obtain ⟨hlt, rfl⟩ := checkedAdd_eq_some.mp (orFormat_eq_ok.mp hnext)
    obtain ⟨hdeclared, hlimit⟩ := refuseFormat_eq_ok.mp h
    refine ⟨hlt, fun declared hmem => Nat.not_lt.mp fun hless => ?_, checkLimit_eq_ok.mp hlimit⟩
    exact hdeclared (any_lt_eq_true.mpr ⟨declared, hmem, hless⟩)
  · intro h
    refine ⟨_, orFormat_eq_ok.mpr (checkedAdd_of_lt h.word), refuseFormat_eq_ok.mpr ⟨?_, ?_⟩⟩
    · intro hany
      obtain ⟨declared, hmem, hless⟩ := any_lt_eq_true.mp hany
      exact absurd (h.expected declared hmem) (Nat.not_le.mpr hless)
    · exact checkLimit_eq_ok.mpr h.maximum

theorem appendLiteral_eq_ok {byte : UInt8} :
    (appendLiteral output byte expected maximum).result = .ok out ↔
      Allows expected maximum (output.length + 1) ∧ output ++ [byte] = out := by
  rw [appendLiteral, Metered.bind_eq_ok]
  constructor
  · rintro ⟨⟨⟩, hreserve, h⟩
    exact ⟨reserveOutput_eq_ok.mp hreserve, Except.ok.inj h⟩
  · rintro ⟨hallows, rfl⟩
    exact ⟨(), reserveOutput_eq_ok.mpr hallows, rfl⟩

/-- The bytes of a match, some of them once those before are copied. -/
theorem result_copyFrom {distance : Nat} (hpos : 0 < distance) (length : Nat) (h : distance ≤ output.length) :
    (copyFrom distance length output).result = .ok (Lz77.copy distance length output) := by
  induction length generalizing output with
  | zero => rfl
  | succ length ih =>
      obtain ⟨byte, hbyte⟩ := Lz77.toList_getElem? hpos h
      rw [copyFrom, Metered.result_bind_ok (result_checkpoint 1),
        Metered.result_bind_ok (orFormat_eq_ok.mpr (checkedSub_of_le h)),
        Metered.result_bind_ok (orFormat_eq_ok.mpr hbyte), ih (by rw [List.length_append]; omega),
        Lz77.copy, hbyte]
      rfl

theorem copyMatch_eq_ok {distance length : Nat} :
    (copyMatch output distance length expected maximum).result = .ok out ↔
      (0 < distance ∧ distance ≤ deflate64DictionaryBytes ∧ distance ≤ output.length) ∧
        Allows expected maximum (output.length + length) ∧
        Lz77.copy distance length output = out := by
  rw [copyMatch, refuseFormat_eq_ok, refuseFormat_eq_ok, Metered.bind_eq_ok]
  constructor
  · rintro ⟨hdistance, hnear, ⟨⟩, hreserve, h⟩
    obtain ⟨hzero, hfar⟩ := not_or.mp hdistance
    have hpos : 0 < distance := Nat.pos_of_ne_zero hzero
    rw [result_copyFrom hpos length (Nat.not_lt.mp hnear)] at h
    exact ⟨⟨hpos, Nat.not_lt.mp hfar, Nat.not_lt.mp hnear⟩, reserveOutput_eq_ok.mp hreserve,
      Except.ok.inj h⟩
  · rintro ⟨⟨hpos, hfar, hnear⟩, hallows, rfl⟩
    refine ⟨not_or.mpr ⟨Nat.pos_iff_ne_zero.mp hpos, Nat.not_lt.mpr hfar⟩, Nat.not_lt.mpr hnear, (),
      reserveOutput_eq_ok.mpr hallows, ?_⟩
    exact result_copyFrom hpos length hnear

end output

/-! ### Numbers and codes -/

namespace Coded

variable {bases widths : List Nat}

theorem getElem?_bases (number : Coded bases widths) :
    bases[number.index]? = some (bases.getD number.index 0) := by
  rw [List.getD_eq_getElem?_getD, List.getElem?_eq_getElem number.index_lt, Option.getD_some]

theorem getElem?_widths (number : Coded bases widths) (hlength : bases.length = widths.length) :
    widths[number.index]? = some (widths.getD number.index 0) := by
  have hlt : number.index < widths.length := hlength ▸ number.index_lt
  rw [List.getD_eq_getElem?_getD, List.getElem?_eq_getElem hlt, Option.getD_some]

/-- Where each entry of the table ends where the next one starts, every number from the first to
the last is written in some way. -/
theorem exists_value (hnext : ∀ index, index + 1 < bases.length →
      bases.getD (index + 1) 0 = bases.getD index 0 + 2 ^ widths.getD index 0) (index : Nat)
    (hindex : index < bases.length) (number : Nat) (hfirst : bases.getD 0 0 ≤ number)
    (hlast : number < bases.getD index 0 + 2 ^ widths.getD index 0) :
    ∃ coded : Coded bases widths, coded.value = number := by
  have hentry (index : Nat) (hindex : index < bases.length) (hle : bases.getD index 0 ≤ number)
      (hlast : number < bases.getD index 0 + 2 ^ widths.getD index 0) :
      ∃ coded : Coded bases widths, coded.value = number :=
    ⟨⟨index, number - bases.getD index 0, hindex, by omega⟩, Nat.add_sub_cancel' hle⟩
  induction index with
  | zero => exact hentry 0 hindex hfirst hlast
  | succ index ih =>
      by_cases hle : bases.getD (index + 1) 0 ≤ number
      · exact hentry (index + 1) hindex hle hlast
      · refine ih (by omega) ?_
        rw [← hnext index hindex]
        exact Nat.not_le.mp hle

theorem length_bounds (length : Coded lengthBase lengthExtra) :
    3 ≤ length.value ∧ length.value ≤ 65538 := by
  have hbounds : ∀ index < 29, 3 ≤ lengthBase.getD index 0 ∧
      lengthBase.getD index 0 + 2 ^ lengthExtra.getD index 0 ≤ 65539 := by decide
  have hbits := length.bits_lt
  obtain ⟨hlow, hhigh⟩ := hbounds length.index length.index_lt
  unfold value
  omega

theorem distance_bounds (distance : Coded distanceBase distanceExtra) :
    1 ≤ distance.value ∧ distance.value ≤ 65536 := by
  have hbounds : ∀ index < 32, 1 ≤ distanceBase.getD index 0 ∧
      distanceBase.getD index 0 + 2 ^ distanceExtra.getD index 0 ≤ 65537 := by decide
  have hbits := distance.bits_lt
  obtain ⟨hlow, hhigh⟩ := hbounds distance.index distance.index_lt
  unfold value
  omega

/-- Every length and every distance of the format can be written. -/
theorem exists_length {length : Nat} (hmin : 3 ≤ length) (hmax : length ≤ 65538) :
    ∃ coded : Coded lengthBase lengthExtra, coded.value = length :=
  ⟨⟨28, length - 3, by decide, by show length - 3 < 65536; omega⟩, Nat.add_sub_cancel' hmin⟩

theorem exists_distance {distance : Nat} (hmin : 1 ≤ distance) (hmax : distance ≤ 65536) :
    ∃ coded : Coded distanceBase distanceExtra, coded.value = distance := by
  refine exists_value (fun index hindex => ?_) 31 (by decide) distance hmin ?_
  · have hnext : ∀ index < 31, distanceBase.getD (index + 1) 0
        = distanceBase.getD index 0 + 2 ^ distanceExtra.getD index 0 := by decide
    have hindex : index + 1 < 32 := hindex
    exact hnext index (by omega)
  · show distance < 65537
    omega

end Coded

namespace PrefixCode

variable {code : PrefixCode} {symbol : Nat}

theorem codable (code : PrefixCode) (hshort : code.lengths.length ≤ maxHuffmanSymbols) :
    Huffman.Codable code.lengths := by
  refine ⟨hshort, code.length_le, fun length _ => ?_⟩
  rw [← taken_eq]
  exact Nat.not_lt.mp fun hover => code.room ⟨length, hover⟩

theorem length_codeword_pos (h : code.Has symbol) : 0 < (code.codeword symbol).length := by
  rw [codeword, CanonicalCode.codeword, BitString.length_msb]
  exact Nat.pos_of_ne_zero h

end PrefixCode

/-! ### Tokens -/

namespace Token

variable {codes : Codes} {token : Token} {history out : Bytes}

theorem length_expand (h : token.expand history = some out) : history.length < out.length := by
  cases token with
  | literal byte =>
      obtain rfl := Option.some.inj h
      rw [List.length_append]
      exact Nat.lt_succ_self _
  | copy length distance =>
      obtain ⟨hlength, -⟩ := length.length_bounds
      obtain ⟨hdistance, -⟩ := distance.distance_bounds
      obtain ⟨hnear, rfl⟩ : distance.value ≤ history.length ∧
          Lz77.copy distance.value length.value history = out := by simpa [expand] using h
      rw [Lz77.length_copy hdistance _ hnear]
      omega

theorem length_expandAll (tokens : List Token) : ∀ history out : Bytes,
    tokens.foldlM expand history = some out → history.length ≤ out.length := by
  induction tokens with
  | nil =>
      intro history out h
      obtain rfl := Option.some.inj h
      exact Nat.le_refl _
  | cons token tokens ih =>
      intro history out h
      rw [List.foldlM_cons] at h
      obtain ⟨next, hnext, hrest⟩ := Option.bind_eq_some_iff.mp h
      exact (length_expand hnext).le.trans (ih next out hrest)

theorem length_word_pos (h : token.Writable codes) : 0 < (token.word codes).length := by
  cases token with
  | literal byte => exact PrefixCode.length_codeword_pos h
  | copy length distance =>
      rw [word, List.length_append]
      exact Nat.lt_of_lt_of_le (PrefixCode.length_codeword_pos h.1) (Nat.le_add_right _ _)

end Token

/-- There are fewer tokens than bits. -/
theorem length_lt_tokensWord {codes : Codes} {tokens : List Token}
    (hwritable : ∀ token ∈ tokens, token.Writable codes) (hend : codes.literals.Has 256) :
    tokens.length < (tokensWord codes tokens).length := by
  rw [tokensWord, List.length_append]
  have hlast := PrefixCode.length_codeword_pos hend
  suffices h : tokens.length ≤ (tokens.flatMap (Token.word codes)).length by omega
  induction tokens with
  | nil => exact Nat.le_refl 0
  | cons token tokens ih =>
      obtain ⟨htoken, hrest⟩ := List.forall_mem_cons.mp hwritable
      have hpos := Token.length_word_pos htoken
      have hle := ih hrest
      rw [List.flatMap_cons, List.length_append, List.length_cons]
      omega

/-- The trees of a block are those of its codes. -/
structure Holds (codes : Codes) (literalTree distanceTree : Huffman) : Prop where
  literals : literalTree.Holds codes.literals.lengths
  distances : distanceTree.Holds codes.distances.lengths

section tokens

variable {codes : Codes} {literalTree distanceTree : Huffman} (htrees : Holds codes literalTree distanceTree)
  {expected : Option Nat} {maximum : Nat}

include htrees

theorem decodes_readMatch (length : Coded lengthBase lengthExtra)
    (distance : Coded distanceBase distanceExtra) (hhas : codes.distances.Has distance.index) :
    Decodes (readMatch distanceTree (257 + length.index))
      (length.extra ++ (codes.distances.codeword distance.index ++ distance.extra))
      (length.value, distance.value) := by
  have hwidths : ∀ index < 29, lengthExtra.getD index 0 ≤ 24 := by decide
  have hwidths' : ∀ index < 32, distanceExtra.getD index 0 ≤ 24 := by decide
  have hlength : length.value < 2 ^ 32 := Nat.lt_of_le_of_lt length.length_bounds.2 (by decide)
  have hdistance : distance.value < 2 ^ 32 := Nat.lt_of_le_of_lt distance.distance_bounds.2 (by decide)
  refine Decodes.liftBind (orFormat_eq_ok.mpr (checkedSub_of_le (Nat.le_add_right _ _))) ?_
  rw [Nat.add_sub_cancel_left]
  refine Decodes.liftBind (orFormat_eq_ok.mpr length.getElem?_bases) ?_
  refine Decodes.liftBind (orFormat_eq_ok.mpr (length.getElem?_widths rfl)) ?_
  refine (decodes_readBits (hwidths _ length.index_lt) length.bits_lt).bind ?_
  refine Decodes.liftBind (orFormat_eq_ok.mpr (checkedAdd_of_lt hlength)) ?_
  refine (Huffman.decodes_decode htrees.distances hhas).bind ?_
  refine Decodes.liftBind (orFormat_eq_ok.mpr distance.getElem?_bases) ?_
  refine Decodes.liftBind (orFormat_eq_ok.mpr (distance.getElem?_widths rfl)) ?_
  rw [← List.append_nil distance.extra]
  refine (decodes_readBits (hwidths' _ distance.index_lt) distance.bits_lt).bind ?_
  exact Decodes.liftBind (orFormat_eq_ok.mpr (checkedAdd_of_lt hdistance)) (Decodes.pure _)

/-- One round of the loop over a block reads one token. -/
theorem decodes_token {token : Token} {history next out : Bytes} {fuel : Nat} {word : List Bool}
    (hwritable : token.Writable codes) (hexpand : token.expand history = some next)
    (hallows : Allows expected maximum next.length)
    (hrest : Decodes (decodeCompressedBlock literalTree distanceTree expected maximum fuel next) word out) :
    Decodes (decodeCompressedBlock literalTree distanceTree expected maximum (fuel + 1) history)
      (token.word codes ++ word) out := by
  refine Decodes.liftBind (result_checkpoint 1) ?_
  cases token with
  | literal byte =>
      have hbyte : byte.toNat < 2 ^ 8 := byte.toNat_lt
      obtain rfl := Option.some.inj hexpand
      rw [List.length_append] at hallows
      refine (Huffman.decodes_decode htrees.literals hwritable).bind ?_
      rw [if_pos (Nat.le_of_lt_succ hbyte)]
      refine Decodes.liftBind (orFormat_eq_ok.mpr (tryFrom_of_lt hbyte)) ?_
      refine Decodes.liftBind (appendLiteral_eq_ok.mpr ⟨hallows, rfl⟩) ?_
      rwa [UInt8.ofNat_toNat]
  | copy length distance =>
      have hindex : length.index < 29 := length.index_lt
      obtain ⟨hlength, hlong⟩ := length.length_bounds
      obtain ⟨hdistance, hfar⟩ := distance.distance_bounds
      obtain ⟨hnear, rfl⟩ : distance.value ≤ history.length ∧
          Lz77.copy distance.value length.value history = next := by
        simpa [Token.expand] using hexpand
      rw [Lz77.length_copy hdistance _ hnear] at hallows
      rw [Token.word, List.append_assoc]
      refine (Huffman.decodes_decode htrees.literals hwritable.1).bind ?_
      rw [if_neg (by omega), if_neg (by omega), if_pos (by omega)]
      refine (decodes_readMatch htrees length distance hwritable.2).bind ?_
      exact Decodes.liftBind (copyMatch_eq_ok.mpr ⟨⟨hdistance, hfar, hnear⟩, hallows, rfl⟩) hrest

/-- The tokens of a block, and its end. -/
theorem decodes_tokens (hend : codes.literals.Has 256) (tokens : List Token) : ∀ fuel (history out : Bytes),
    tokens.length < fuel → (∀ token ∈ tokens, token.Writable codes) →
    tokens.foldlM Token.expand history = some out → Allows expected maximum out.length →
    Decodes (decodeCompressedBlock literalTree distanceTree expected maximum fuel history)
      (tokensWord codes tokens) out := by
  induction tokens with
  | nil =>
      intro fuel history out hfuel _ hexpand _
      obtain ⟨fuel, rfl⟩ : ∃ less, fuel = less + 1 := Nat.exists_eq_add_of_lt hfuel |>.imp fun _ h => by
        rw [h, List.length_nil, Nat.zero_add]
      obtain rfl := Option.some.inj hexpand
      refine Decodes.liftBind (result_checkpoint 1) ?_
      rw [tokensWord, List.flatMap_nil, List.nil_append, ← List.append_nil (codes.literals.codeword 256)]
      exact (Huffman.decodes_decode htrees.literals hend).bind (Decodes.pure history)
  | cons token tokens ih =>
      intro fuel history out hfuel hwritable hexpand hallows
      obtain ⟨htoken, hrest⟩ := List.forall_mem_cons.mp hwritable
      obtain ⟨fuel, rfl⟩ : ∃ less, fuel = less + 1 := Nat.exists_eq_succ_of_ne_zero (by omega)
      rw [List.foldlM_cons] at hexpand
      obtain ⟨next, hnext, htokens⟩ := Option.bind_eq_some_iff.mp hexpand
      rw [tokensWord, List.flatMap_cons, List.append_assoc]
      refine decodes_token htrees htoken hnext (hallows.mono (Token.length_expandAll _ _ _ htokens)) ?_
      exact ih fuel next out (Nat.lt_of_succ_lt_succ hfuel) hrest htokens hallows

end tokens

/-! ### The lengths of a header -/

/-- A table with the lengths of some symbols put in their places. -/
def placed (lengths symbols table : List Nat) : List Nat :=
  symbols.foldl (fun table symbol => table.set symbol (lengths.getD symbol 0)) table

section placed

variable {lengths : List Nat}

theorem getElem?_placed (symbols : List Nat) : ∀ table : List Nat, ∀ place < table.length,
    (placed lengths symbols table)[place]?
      = if place ∈ symbols then some (lengths.getD place 0) else table[place]? := by
  induction symbols with
  | nil => intro table place _; rfl
  | cons symbol symbols ih =>
      intro table place hplace
      show (placed lengths symbols (table.set symbol _))[place]? = _
      rw [ih _ place (by rwa [List.length_set])]
      by_cases hmem : place ∈ symbols
      · rw [if_pos hmem, if_pos (List.mem_cons_of_mem _ hmem)]
      · by_cases hsymbol : symbol = place
        · rw [if_neg hmem, hsymbol, if_pos List.mem_cons_self, List.getElem?_set_self hplace]
        · rw [if_neg hmem, List.getElem?_set_ne hsymbol,
            if_neg fun h => (List.mem_cons.mp h).elim (fun heq => hsymbol heq.symm) hmem]

theorem length_placed (symbols : List Nat) : ∀ table : List Nat,
    (placed lengths symbols table).length = table.length := by
  induction symbols with
  | nil => intro table; rfl
  | cons symbol symbols ih =>
      intro table
      show (placed lengths symbols (table.set symbol _)).length = _
      rw [ih, List.length_set]

/-- Where the symbols that are left out have no codeword, the table is that of the code. -/
theorem placed_eq {count : Nat} (hlength : lengths.length = 19)
    (hunsent : ∀ symbol ∈ codeLengthOrder.drop count, lengths.getD symbol 0 = 0) :
    placed lengths (codeLengthOrder.take count) (List.replicate 19 0) = lengths := by
  have horder : ∀ symbol < 19, symbol ∈ codeLengthOrder := by decide
  refine List.ext_getElem? fun place => ?_
  by_cases hplace : place < 19
  · have hget : lengths[place]? = some (lengths.getD place 0) := by
      rw [List.getD_eq_getElem?_getD, List.getElem?_eq_getElem (hlength ▸ hplace), Option.getD_some]
    rw [getElem?_placed _ _ _ (by rwa [List.length_replicate]), hget]
    by_cases hmem : place ∈ codeLengthOrder.take count
    · rw [if_pos hmem]
    · have hboth := horder place hplace
      rw [← List.take_append_drop count codeLengthOrder, List.mem_append] at hboth
      rw [if_neg hmem, hunsent place (hboth.resolve_left hmem), List.getElem?_replicate_of_lt hplace]
  · rw [List.getElem?_eq_none (by rw [length_placed, List.length_replicate]; omega),
      List.getElem?_eq_none (by omega)]

end placed

theorem decodes_readCodeLengths {lengths : List Nat} (hlt : ∀ length ∈ lengths, length < 8)
    (symbols : List Nat) : ∀ table : List Nat, (∀ symbol ∈ symbols, symbol < table.length) →
    Decodes (readCodeLengths symbols table) (Header.lengthsWord lengths symbols)
      (placed lengths symbols table) := by
  induction symbols with
  | nil => intro table _; exact Decodes.pure table
  | cons symbol symbols ih =>
      intro table hsymbols
      obtain ⟨hsymbol, hrest⟩ := List.forall_mem_cons.mp hsymbols
      have hbits : lengths.getD symbol 0 < 2 ^ 3 := by
        rw [List.getD_eq_getElem?_getD]
        cases hget : lengths[symbol]? with
        | none => decide
        | some length => exact hlt length (List.mem_of_getElem? hget)
      rw [Header.lengthsWord, List.flatMap_cons]
      refine (decodes_readBits (by decide) hbits).bind ?_
      refine Decodes.liftBind (orFormat_eq_ok.mpr (tryFrom_of_lt (Nat.lt_trans hbits (by decide)))) ?_
      rw [if_pos hsymbol]
      exact ih _ (by rwa [List.length_set])

/-- The array of the source: the lengths that are there, and zeros. -/
def sheet (done : List Nat) : List Nat := done ++ List.replicate (318 - done.length) 0

section sheet

variable {done : List Nat}

theorem length_sheet (h : done.length ≤ 318) : (sheet done).length = 318 := by
  rw [sheet, List.length_append, List.length_replicate]
  omega

theorem set_sheet (h : done.length < 318) (value : Nat) :
    (sheet done).set done.length value = sheet (done ++ [value]) := by
  obtain ⟨more, hmore⟩ : ∃ more, 318 - done.length = more + 1 := Nat.exists_eq_succ_of_ne_zero (by omega)
  have hnext : 318 - (done ++ [value]).length = more := by
    rw [List.length_append, List.length_singleton]
    omega
  rw [sheet, sheet, hmore, hnext, List.set_append_right _ _ (Nat.le_refl _), Nat.sub_self,
    List.replicate_succ, List.set_cons_zero, List.append_assoc]
  rfl

theorem sheet_append {count : Nat} (h : done.length + count ≤ 318) :
    sheet (done ++ List.replicate count 0) = sheet done := by
  rw [sheet, sheet, List.length_append, List.length_replicate, List.append_assoc,
    List.replicate_append_replicate]
  congr 2
  omega

theorem fillLengths_sheet (done : List Nat) (count value : Nat) :
    fillLengths (sheet done) done.length (done.length + count) value
      = sheet (done ++ List.replicate count value) := by
  have hlength : (done ++ List.replicate count value).length = done.length + count := by
    rw [List.length_append, List.length_replicate]
  rw [fillLengths, sheet, sheet, hlength, List.take_left' rfl, Nat.add_sub_cancel_left,
    List.drop_append, List.drop_of_length_le (Nat.le_add_right _ _), List.nil_append,
    Nat.add_sub_cancel_left, List.drop_replicate, Nat.sub_sub]

theorem getElem?_sheet {last : Nat} (h : done.getLast? = some last) :
    (sheet done)[done.length - 1]? = some last := by
  rw [List.getLast?_eq_getElem?] at h
  rw [sheet, List.getElem?_append_left (List.getElem?_eq_some_iff.mp h).1, h]

end sheet

namespace Item

variable {item : Item} {done out : List Nat}

theorem length_expand (h : item.expand done = some out) : done.length < out.length := by
  unfold expand at h
  split_ifs at h
  · obtain rfl := Option.some.inj h
    rw [List.length_append]
    exact Nat.lt_succ_self _
  · obtain ⟨last, -, rfl⟩ := Option.map_eq_some_iff.mp h
    rw [List.length_append, List.length_replicate]
    omega
  · obtain rfl := Option.some.inj h
    rw [List.length_append, List.length_replicate]
    omega
  · obtain rfl := Option.some.inj h
    rw [List.length_append, List.length_replicate]
    omega

theorem length_expandAll (items : List Item) : ∀ done out : List Nat,
    items.foldlM expand done = some out → done.length ≤ out.length := by
  induction items with
  | nil =>
      intro done out h
      obtain rfl := Option.some.inj h
      exact Nat.le_refl _
  | cons item items ih =>
      intro done out h
      rw [List.foldlM_cons] at h
      obtain ⟨next, hnext, hrest⟩ := Option.bind_eq_some_iff.mp h
      exact (length_expand hnext).le.trans (ih next out hrest)

end Item

/-- One round of the loop over the lengths reads one item. -/
theorem decodes_expandSymbol {item : Item} {total : Nat} {done out : List Nat}
    (h : item.expand done = some out) (hle : out.length ≤ total) (htotal : total ≤ 318) :
    Decodes (expandSymbol total (sheet done) done.length item.symbol)
      (lsb (itemWidth item.symbol) item.bits) (sheet out, out.length) := by
  have hless := Item.length_expand h
  have hbits := item.bits_lt
  unfold Item.expand at h
  unfold expandSymbol
  by_cases hlength : item.symbol ≤ 15
  · obtain rfl : done ++ [item.symbol] = out := by simpa [hlength] using h
    have hwidth : itemWidth item.symbol = 0 := by
      unfold itemWidth
      rw [if_neg (by omega), if_neg (by omega), if_neg (by omega)]
    rw [if_pos hlength, if_pos (by rw [length_sheet (by omega)]; omega), hwidth]
    refine Decodes.liftBind (orFormat_eq_ok.mpr (tryFrom_of_lt (by omega))) ?_
    refine Decodes.liftBind (orFormat_eq_ok.mpr (checkedAdd_of_lt (by omega))) ?_
    rw [set_sheet (by omega), List.length_append]
    exact Decodes.pure _
  rw [if_neg hlength] at h ⊢
  by_cases hprevious : item.symbol = 16
  · rw [if_pos hprevious] at h ⊢
    obtain ⟨last, hlast, rfl⟩ := Option.map_eq_some_iff.mp h
    rw [List.length_append, List.length_replicate] at hle hless ⊢
    rw [hprevious] at hbits ⊢
    have hnonempty : 1 ≤ done.length := by
      cases done with
      | nil => cases hlast
      | cons => exact Nat.succ_le_succ (Nat.zero_le _)
    refine Decodes.liftBind (orFormat_eq_ok.mpr (checkedSub_of_le hnonempty)) ?_
    refine Decodes.liftBind (orFormat_eq_ok.mpr (getElem?_sheet hlast)) ?_
    rw [← List.append_nil (lsb _ _)]
    refine (decodes_readBits (by decide) hbits).bind ?_
    refine Decodes.liftBind (orFormat_eq_ok.mpr (checkedAdd_of_lt (by omega))) ?_
    refine Decodes.liftBind (orFormat_eq_ok.mpr (checkedAdd_of_lt (by omega))) ?_
    rw [Nat.add_comm item.bits 3, if_neg (by omega), if_pos (by rw [length_sheet (by omega)]; omega),
      fillLengths_sheet]
    exact Decodes.pure _
  rw [if_neg hprevious] at h ⊢
  have hzeros : item.symbol = 17 ∨ item.symbol = 18 := by
    have hlt := item.symbol_lt
    omega
  obtain ⟨width, base, hpair, hwidth, hwide, hrun⟩ : ∃ width base,
      (if item.symbol = 17 then (3, 3) else (7, 11)) = (width, base) ∧ itemWidth item.symbol = width ∧
        width ≤ 24 ∧ done ++ List.replicate (base + item.bits) 0 = out := by
    rcases hzeros with hzeros | hzeros
    · rw [if_pos hzeros] at h
      exact ⟨3, 3, if_pos hzeros, by rw [hzeros]; rfl, by decide, Option.some.inj h⟩
    · rw [if_neg (by omega)] at h
      exact ⟨7, 11, if_neg (by omega), by rw [hzeros]; rfl, by decide, Option.some.inj h⟩
  subst hrun
  rw [hwidth] at hbits ⊢
  rw [List.length_append, List.length_replicate] at hle ⊢
  rw [if_pos hzeros, hpair, ← List.append_nil (lsb _ _)]
  refine (decodes_readBits hwide hbits).bind ?_
  refine Decodes.liftBind (orFormat_eq_ok.mpr (checkedAdd_of_lt (by omega))) ?_
  refine Decodes.liftBind (orFormat_eq_ok.mpr (checkedAdd_of_lt (by omega))) ?_
  rw [Nat.add_comm item.bits base, if_neg (by omega), sheet_append (by omega)]
  exact Decodes.pure _

/-- The items of a header are read as the lengths they stand for. -/
theorem decodes_readLengths {codeLengths : PrefixCode} {codeTree : Huffman}
    (htree : codeTree.Holds codeLengths.lengths) {total : Nat} (htotal : total ≤ 318) (items : List Item) :
    ∀ fuel (done out : List Nat), total < done.length + fuel →
    (∀ item ∈ items, codeLengths.Has item.symbol) → items.foldlM Item.expand done = some out →
    out.length = total → Decodes (readLengths codeTree total fuel (sheet done) done.length)
      (items.flatMap (Item.word codeLengths)) (sheet out) := by
  induction items with
  | nil =>
      intro fuel done out hfuel _ hexpand hlength
      obtain rfl := Option.some.inj hexpand
      obtain ⟨fuel, rfl⟩ : ∃ less, fuel = less + 1 := Nat.exists_eq_succ_of_ne_zero (by omega)
      rw [readLengths, if_neg (by omega)]
      exact Decodes.pure _
  | cons item items ih =>
      intro fuel done out hfuel hhas hexpand hlength
      obtain ⟨hitem, hrest⟩ := List.forall_mem_cons.mp hhas
      rw [List.foldlM_cons] at hexpand
      obtain ⟨next, hnext, hitems⟩ := Option.bind_eq_some_iff.mp hexpand
      have hless := Item.length_expand hnext
      have hle := Item.length_expandAll _ _ _ hitems
      obtain ⟨fuel, rfl⟩ : ∃ less, fuel = less + 1 := Nat.exists_eq_succ_of_ne_zero (by omega)
      rw [readLengths, if_pos (by omega), List.flatMap_cons, Item.word, List.append_assoc]
      refine (Huffman.decodes_decode htree hitem).bind ?_
      refine (decodes_expandSymbol hnext (by omega) htotal).bind ?_
      exact ih fuel next out (by omega) hrest hitems hlength

/-! ### Headers -/

theorem slice_append (a b c : List Nat) :
    slice (a ++ (b ++ c)) a.length (a.length + b.length) = some b := by
  have htake : (a ++ (b ++ c)).take (a.length + b.length) = a ++ b := by
    rw [← List.append_assoc, List.take_left' List.length_append]
  rw [slice, if_pos ⟨Nat.le_add_right _ _, by simp only [List.length_append]; omega⟩, htake,
    List.drop_left' rfl]

namespace Header

variable (header : Header)

theorem total_le : header.codes.literals.lengths.length + header.codes.distances.lengths.length ≤ 318 := by
  have hliterals := header.literals_le
  have hdistances := header.distances_le
  omega

/-- A header has an item at least, and so the code of its lengths has a codeword. -/
theorem exists_codeLength : ∃ symbol, header.codeLengths.Has symbol := by
  have hexpand := header.expand
  cases hitems : header.items with
  | nil =>
      rw [hitems] at hexpand
      have hlength := congrArg List.length (Option.some.inj hexpand)
      have hliterals := header.literals_le
      rw [List.length_append, List.length_nil] at hlength
      omega
  | cons item items => exact ⟨item.symbol, header.has_items item (hitems ▸ List.mem_cons_self)⟩

theorem getElem?_end : ∃ length, length ≠ 0 ∧
    (sheet (header.codes.literals.lengths ++ header.codes.distances.lengths))[256]? = some length := by
  obtain ⟨hlt, hget⟩ := getElem?_of_length_ne_zero header.has_end
  refine ⟨_, header.has_end, ?_⟩
  rw [sheet, List.append_assoc, List.getElem?_append_left hlt, hget]

end Header

/-- A header is read as the trees of its codes. -/
theorem decodes_dynamicTrees (header : Header) : ∃ literalTree distanceTree,
    Holds header.codes literalTree distanceTree ∧
      Decodes dynamicTrees header.word (literalTree, distanceTree) := by
  obtain ⟨hliteralMin, hliteralMax⟩ := header.literals_le
  obtain ⟨hdistanceMin, hdistanceMax⟩ := header.distances_le
  obtain ⟨hcountMin, hcountMax⟩ := header.count_le
  have hsmall : header.codeLengths.lengths.length ≤ 19 := header.length_codeLengths.le
  obtain ⟨codeTree, hcodeTree, hcodeHolds⟩ := Huffman.fromLengths_holds
    (header.codeLengths.codable (hsmall.trans (by decide))) false (.inr header.exists_codeLength)
  obtain ⟨literalTree, hliteralTree, hliteralHolds⟩ := Huffman.fromLengths_holds
    (header.codes.literals.codable (hliteralMax.trans (by decide))) false (.inr ⟨256, header.has_end⟩)
  obtain ⟨distanceTree, hdistanceTree, hdistanceHolds⟩ := Huffman.fromLengths_holds
    (header.codes.distances.codable (hdistanceMax.trans (by decide))) true (.inl rfl)
  obtain ⟨length, hlength, hend⟩ := header.getElem?_end
  refine ⟨literalTree, distanceTree, ⟨hliteralHolds, hdistanceHolds⟩, ?_⟩
  refine (decodes_readBits (by decide) (show _ < 2 ^ 5 by omega)).bind ?_
  refine Decodes.liftBind (orFormat_eq_ok.mpr (checkedAdd_of_lt (by omega))) ?_
  refine (decodes_readBits (by decide) (show _ < 2 ^ 5 by omega)).bind ?_
  refine Decodes.liftBind (orFormat_eq_ok.mpr (checkedAdd_of_lt (by omega))) ?_
  refine (decodes_readBits (by decide) (show _ < 2 ^ 4 by omega)).bind ?_
  refine Decodes.liftBind (orFormat_eq_ok.mpr (checkedAdd_of_lt (by omega))) ?_
  rw [Nat.sub_add_cancel hliteralMin, Nat.sub_add_cancel hdistanceMin, Nat.sub_add_cancel hcountMin,
    if_neg (by omega)]
  have horder : ∀ symbol ∈ codeLengthOrder.take header.codeLengthCount,
      symbol < (List.replicate 19 0).length := by
    have hall : ∀ symbol ∈ codeLengthOrder, symbol < 19 := by decide
    intro symbol hmem
    rw [List.length_replicate]
    exact hall symbol (List.mem_of_mem_take hmem)
  refine (decodes_readCodeLengths header.codeLengths_lt _ _ horder).bind ?_
  rw [placed_eq header.length_codeLengths header.unsent, hcodeTree]
  refine Decodes.liftBind rfl ?_
  refine Decodes.liftBind (orFormat_eq_ok.mpr (checkedAdd_of_lt (by omega))) ?_
  rw [← List.append_nil (header.items.flatMap _)]
  refine (decodes_readLengths hcodeHolds header.total_le header.items _ [] _ (by simp) header.has_items
    header.expand List.length_append).bind ?_
  rw [hend, Option.getD_some, if_neg hlength, sheet, List.append_assoc]
  have hliterals := slice_append [] header.codes.literals.lengths
    (header.codes.distances.lengths ++ List.replicate
      (318 - (header.codes.literals.lengths ++ header.codes.distances.lengths).length) 0)
  rw [List.nil_append, List.length_nil, Nat.zero_add] at hliterals
  refine Decodes.liftBind (orFormat_eq_ok.mpr hliterals) ?_
  refine Decodes.liftBind (orFormat_eq_ok.mpr (slice_append _ _ _)) ?_
  rw [hliteralTree, hdistanceTree]
  exact Decodes.liftBind rfl (Decodes.liftBind rfl (Decodes.pure _))

/-! ### Blocks -/

theorem fixedCodes_has_end : fixedCodes.literals.Has 256 := by decide +kernel

theorem exists_fixedTrees : ∃ literalTree distanceTree,
    fixedTrees = .ok (literalTree, distanceTree) ∧ Holds fixedCodes literalTree distanceTree := by
  obtain ⟨literalTree, hliteralTree, hliterals⟩ := Huffman.fromLengths_holds
    (fixedCodes.literals.codable (by decide +kernel)) false (.inr ⟨256, fixedCodes_has_end⟩)
  obtain ⟨distanceTree, hdistanceTree, hdistances⟩ := Huffman.fromLengths_holds
    (fixedCodes.distances.codable (by decide +kernel)) false
    (.inr ⟨0, show fixedCodes.distances.Has 0 by decide +kernel⟩)
  refine ⟨literalTree, distanceTree, ?_, hliterals, hdistances⟩
  show Huffman.fromLengths fixedCodes.literals.lengths false >>= _ = _
  rw [hliteralTree, except_ok_bind]
  show Huffman.fromLengths fixedCodes.distances.lengths false >>= _ = _
  rw [hdistanceTree]
  rfl

theorem decodes_readStored (bytes : Bytes) : ∀ output : Bytes,
    Decodes (readStored bytes.length output) (ofBytes bytes) (output ++ bytes) := by
  induction bytes with
  | nil =>
      intro output
      rw [List.append_nil]
      exact Decodes.pure output
  | cons byte bytes ih =>
      intro output
      have hbyte : byte.toNat < 2 ^ 8 := byte.toNat_lt
      have hrest := ih (output ++ [byte])
      rw [List.append_assoc] at hrest
      rw [BitString.ofBytes_cons]
      refine (decodes_readBits (by decide) hbyte).bind ?_
      refine Decodes.liftBind (orFormat_eq_ok.mpr (tryFrom_of_lt hbyte)) ?_
      refine Decodes.liftBind (result_checkpoint 1) ?_
      rwa [UInt8.ofNat_toNat]

section blocks

variable {expected : Option Nat} {maximum : Nat}

/-- Where the rest of a byte is skipped, a stored block is read as its bytes. -/
theorem result_decodeStoredBlock {reader : BitReader} (hreader : Valid reader) {padding : List Bool}
    {bytes history : Bytes} {tail : List Bool}
    (hrest : rest reader = padding ++ (lsb 16 bytes.length ++
      (lsb 16 (bytes.length ^^^ 0xffff) ++ (ofBytes bytes ++ tail))))
    (hpadding : (rest reader).length % 8 = padding.length) (hshort : bytes.length < 2 ^ 16)
    (hallows : Allows expected maximum (history.length + bytes.length)) :
    ∃ next, (decodeStoredBlock history expected maximum reader).result = .ok (history ++ bytes, next) ∧
      Valid next ∧ rest next = tail := by
  have hcomplement : bytes.length ^^^ 0xffff < 2 ^ 16 := Nat.xor_lt_two_pow hshort (by decide)
  obtain ⟨haligned, hskipped⟩ := BitReader.align hreader
  rw [hpadding, hrest, List.drop_left' rfl] at hskipped
  obtain ⟨first, hfirst, hvalid, hahead⟩ :=
    decodes_readBits (by decide) hshort reader.alignToByte _ haligned hskipped
  obtain ⟨second, hsecond, hvalid', hahead'⟩ :=
    decodes_readBits (by decide) hcomplement first _ hvalid hahead
  obtain ⟨last, hlast, hvalid'', hahead''⟩ :=
    decodes_readStored bytes history second tail hvalid' hahead'
  refine ⟨last, ?_, hvalid'', hahead''⟩
  have halign : ((modify BitReader.alignToByte : Bits Unit) reader).result
      = .ok ((), reader.alignToByte) := rfl
  rw [decodeStoredBlock, Cursor.result_bind_ok halign, Cursor.result_bind_ok hfirst,
    Cursor.result_bind_ok hsecond, if_neg (not_not_intro rfl),
    Cursor.result_lift_bind (reserveOutput_eq_ok (u := ()) |>.mpr hallows), hlast]

namespace Block

variable {block : Block} {history out : Bytes}

theorem length_expand (h : block.expand history = some out) : history.length ≤ out.length := by
  cases block with
  | stored padding bytes =>
      obtain rfl := Option.some.inj h
      rw [List.length_append]
      exact Nat.le_add_right _ _
  | fixed tokens => exact Token.length_expandAll _ _ _ h
  | dynamic header tokens => exact Token.length_expandAll _ _ _ h

theorem length_expandAll (blocks : List Block) : ∀ history out : Bytes,
    blocks.foldlM expand history = some out → history.length ≤ out.length := by
  induction blocks with
  | nil =>
      intro history out h
      obtain rfl := Option.some.inj h
      exact Nat.le_refl _
  | cons block blocks ih =>
      intro history out h
      rw [List.foldlM_cons] at h
      obtain ⟨next, hnext, hrest⟩ := Option.bind_eq_some_iff.mp h
      exact (length_expand hnext).trans (ih next out hrest)

end Block

/-- A block is read from the place where it can be written. -/
theorem result_decodeBlock {block : Block} {reader : BitReader} {tail : List Bool} {offset fuel : Nat}
    {history out : Bytes} (hreader : Valid reader) (hrest : rest reader = block.word ++ tail)
    (hplace : (offset + (rest reader).length) % 8 = 0) (hwritable : block.Writable offset)
    (hexpand : block.expand history = some out) (hallows : Allows expected maximum out.length)
    (hfuel : block.word.length ≤ fuel) :
    ∃ next, (decodeBlock fuel history expected maximum reader).result = .ok (out, next) ∧
      Valid next ∧ rest next = tail := by
  cases block with
  | stored padding bytes =>
      obtain ⟨hshort, hpadding, haligned⟩ := hwritable
      obtain rfl := Option.some.inj hexpand
      rw [List.length_append] at hallows
      rw [Block.word] at hrest
      simp only [List.append_assoc] at hrest
      obtain ⟨next, hkind, hnext, hahead⟩ :=
        @decodes_readBits 2 0 (by decide) (by decide) reader _ hreader hrest
      have hlength : (rest reader).length = 2 + (rest next).length := by
        rw [hrest, hahead, List.length_append, BitString.length_lsb]
      rw [decodeBlock, Cursor.result_bind_ok hkind, if_pos rfl]
      exact result_decodeStoredBlock hnext hahead (by omega) hshort hallows
  | fixed tokens =>
      obtain ⟨literalTree, distanceTree, htrees, hholds⟩ := exists_fixedTrees
      have hmore := length_lt_tokensWord hwritable fixedCodes_has_end
      rw [Block.word, List.length_append] at hfuel
      refine Decodes.bind (@decodes_readBits 2 1 (by decide) (by decide)) ?_ reader tail hreader hrest
      rw [if_neg (by decide), if_pos rfl, htrees]
      refine Decodes.liftBind rfl ?_
      exact decodes_tokens hholds fixedCodes_has_end tokens fuel history out (by omega) hwritable hexpand
        hallows
  | dynamic header tokens =>
      obtain ⟨literalTree, distanceTree, hholds, htrees⟩ := decodes_dynamicTrees header
      have hmore := length_lt_tokensWord hwritable header.has_end
      rw [Block.word, List.length_append, List.length_append] at hfuel
      refine Decodes.bind (@decodes_readBits 2 2 (by decide) (by decide)) ?_ reader tail hreader hrest
      rw [if_neg (by decide), if_neg (by decide), if_pos rfl]
      refine htrees.bind ?_
      exact decodes_tokens hholds header.has_end tokens fuel history out (by omega) hwritable hexpand
        hallows

/-! ### Streams -/

theorem length_le_streamWord (blocks : List Block) : blocks.length ≤ (streamWord blocks).length := by
  induction blocks with
  | nil => exact Nat.le_refl 0
  | cons block blocks ih =>
      rw [streamWord, List.length_append, List.length_append, BitString.length_lsb, List.length_cons]
      omega

/-- The blocks of a stream, one behind the other. -/
theorem result_decodeBlocks {symbolFuel : Nat} (blocks : List Block) : ∀ (offset fuel : Nat)
    (history out : Bytes) (reader : BitReader) (tail : List Bool), blocks ≠ [] → Valid reader →
    rest reader = streamWord blocks ++ tail → (offset + (rest reader).length) % 8 = 0 →
    Writable offset blocks → blocks.foldlM Block.expand history = some out →
    Allows expected maximum out.length → (streamWord blocks).length ≤ symbolFuel →
    blocks.length ≤ fuel →
    ∃ next, (decodeBlocks symbolFuel expected maximum fuel history reader).result = .ok (out, next) ∧
      Valid next ∧ rest next = tail := by
  induction blocks with
  | nil =>
      intro offset fuel history out reader tail hne
      exact absurd rfl hne
  | cons block blocks ih =>
      intro offset fuel history out reader tail _ hreader hrest hplace hwritable hexpand hallows hsymbols
        hfuel
      obtain ⟨hblock, hblocks⟩ := hwritable
      rw [List.foldlM_cons] at hexpand
      obtain ⟨middle, hmiddle, hexpand⟩ := Option.bind_eq_some_iff.mp hexpand
      obtain ⟨fuel, rfl⟩ : ∃ less, fuel = less + 1 :=
        Nat.exists_eq_succ_of_ne_zero (by rw [List.length_cons] at hfuel; omega)
      rw [streamWord, List.append_assoc, List.append_assoc] at hrest
      rw [streamWord, List.length_append, List.length_append] at hsymbols
      have hbit : (if blocks = [] then 1 else 0) < 2 ^ 1 := by split_ifs <;> decide
      obtain ⟨first, hfirst, hvalid, hahead⟩ := decodes_readBits (by decide) hbit reader _ hreader hrest
      have hlength : (rest reader).length = 1 + (rest first).length := by
        rw [hrest, hahead, List.length_append, BitString.length_lsb]
      obtain ⟨second, hsecond, hvalid', hahead'⟩ := result_decodeBlock hvalid hahead
        (show (offset + 1 + (rest first).length) % 8 = 0 by omega) hblock hmiddle
        (hallows.mono (Block.length_expandAll _ _ _ hexpand)) (show _ ≤ symbolFuel by omega)
      have hlength' : (rest first).length = block.word.length + (rest second).length := by
        rw [hahead, hahead', List.length_append]
      rw [decodeBlocks, Cursor.result_lift_bind (result_checkpoint 1), Cursor.result_bind_ok hfirst,
        Cursor.result_bind_ok hsecond]
      by_cases hlast : blocks = []
      · subst hlast
        obtain rfl := Option.some.inj hexpand
        exact ⟨second, rfl, hvalid', hahead'⟩
      · rw [if_neg hlast, if_neg (not_not_intro rfl)]
        exact ih (offset + 1 + block.word.length) fuel middle out second tail hlast hvalid' hahead'
          (by omega) hblocks hexpand hallows (by omega) (Nat.le_of_succ_le_succ hfuel)

end blocks

theorem writes_encode {blocks : List Block} (hne : blocks ≠ []) (hwritable : Writable 0 blocks) :
    Writes blocks (encode blocks) := by
  obtain ⟨count, hcount, -, hpack⟩ := BitString.ofBytes_pack (streamWord blocks)
  exact ⟨hne, hwritable, _, by rwa [List.length_replicate], hpack⟩

/-- Whatever writes the blocks, the decoder finds what they stand for. -/
theorem decodeDeflate64_of_writes {blocks : List Block} {input output : Bytes} {expected : Option Nat}
    {maximum : Nat} {limits : Limits} (h : Writes blocks input) (hexpand : expand blocks = some output)
    (hinput : input.length < 2 ^ 64) (hallows : Allows expected maximum output.length)
    (hexact : ∀ declared ∈ expected, declared = output.length)
    (hdictionary : deflate64DictionaryBytes ≤ limits.maxDictionaryBytes) :
    (decodeDeflate64 input expected maximum limits).result = .ok output := by
  obtain ⟨hne, hwritable, padding, hpadding, hbits⟩ := h
  have hlength : (streamWord blocks).length + padding.length = 8 * input.length := by
    rw [← List.length_append, ← hbits, BitString.length_ofBytes]
  have hcount := length_le_streamWord blocks
  have hstart : rest (BitReader.new input) = streamWord blocks ++ padding := hbits
  obtain ⟨next, hrun, hnext, htail⟩ := @result_decodeBlocks expected maximum (roundLimit input) blocks 0
    (roundLimit input) [] output (BitReader.new input) padding hne (BitReader.valid_new hinput) hstart
    (by rw [hstart, List.length_append]; omega) hwritable hexpand hallows
    (by unfold roundLimit; omega) (by unfold roundLimit; omega)
  have hdeclared : expected.getD 0 ≤ maximum := by
    cases expected with
    | none => exact Nat.zero_le _
    | some declared => exact (hexact declared rfl).le.trans hallows.maximum
  have hsame : ¬ expected.any (· ≠ output.length) = true := by
    cases expected with
    | none => exact Bool.false_ne_true
    | some declared => simpa using hexact declared rfl
  rw [decodeDeflate64, Metered.result_bind_ok (checkLimit_of_le hdictionary _),
    Metered.result_bind_ok (checkLimit_of_le hdeclared _), Metered.result_bind_ok hrun]
  dsimp only
  rw [BitReader.hasTrailingBytes_eq hnext (htail ▸ hpadding), if_neg Bool.false_ne_true, if_neg hsame]
  rfl

/-- What is encoded is decoded: every list of blocks, stored or in codes that are fixed or described, as
the bytes its tokens stand for. -/
theorem decodeDeflate64_encode {blocks : List Block} {output : Bytes} {expected : Option Nat}
    {maximum : Nat} {limits : Limits} (hne : blocks ≠ []) (hwritable : Writable 0 blocks)
    (hexpand : expand blocks = some output) (hinput : (encode blocks).length < 2 ^ 64)
    (hexpected : expected = none ∨ expected = some output.length) (hmaximum : output.length ≤ maximum)
    (hword : maximum < 2 ^ 64) (hdictionary : deflate64DictionaryBytes ≤ limits.maxDictionaryBytes) :
    (decodeDeflate64 (encode blocks) expected maximum limits).result = .ok output := by
  have hexact : ∀ declared ∈ expected, declared = output.length := by
    intro declared hmem
    rcases hexpected with rfl | rfl
    · cases hmem
    · exact (Option.some.inj hmem).symm
  refine decodeDeflate64_of_writes (writes_encode hne hwritable) hexpand hinput ?_ hexact hdictionary
  exact ⟨Nat.lt_of_le_of_lt hmaximum hword, fun declared hmem => (hexact declared hmem).ge, hmaximum⟩

/-- A code of two codewords: one for the byte zero, one for the end of a block. -/
def sparseCode : PrefixCode where
  lengths := 1 :: List.replicate 255 0 ++ [1]
  length_le := by decide +kernel
  room := not_oversubscribed (show Fits _ maxCodeBits by unfold Fits; decide +kernel) (by decide +kernel)

def emptyCode : PrefixCode where
  lengths := [0]
  length_le := by decide
  room := not_oversubscribed (show Fits _ maxCodeBits by unfold Fits; decide) (by decide)

/-- One bit for a length of one, two for a length of zero and for a long run of zeros. -/
def sparseLengths : PrefixCode where
  lengths := [2, 1] ++ List.replicate 16 0 ++ [2]
  length_le := by decide
  room := not_oversubscribed (show Fits _ maxCodeBits by unfold Fits; decide +kernel) (by decide)

/-- The two codes above, with the zeros in runs of 138 and 117. -/
def sparseHeader : Header where
  codes := ⟨sparseCode, emptyCode⟩
  codeLengths := sparseLengths
  codeLengthCount := 18
  items := [⟨1, 0, by decide, by decide⟩, ⟨18, 127, by decide, by decide⟩, ⟨18, 106, by decide, by decide⟩,
    ⟨1, 0, by decide, by decide⟩, ⟨0, 0, by decide, by decide⟩]
  literals_le := by decide +kernel
  distances_le := by decide
  count_le := by decide
  length_codeLengths := by decide
  codeLengths_lt := by decide
  unsent := by decide
  has_items := by decide
  expand := by decide +kernel
  has_end := by decide +kernel

/-- A stored block, one with a match that reaches back into it, and one that describes its codes. -/
def sampleBlocks : List Block :=
  [.stored (List.replicate 5 false) [7, 8],
    .fixed [.copy ⟨0, 0, by decide, by decide⟩ ⟨1, 0, by decide, by decide⟩, .literal 9],
    .dynamic sparseHeader [.literal 0, .literal 0]]

theorem decodeDeflate64_encode_sample :
    (decodeDeflate64 (encode sampleBlocks) (some 8) 8 {}).result = .ok [7, 8, 7, 8, 7, 9, 0, 0] :=
  decodeDeflate64_encode (List.cons_ne_nil _ _) (by decide +kernel) (by decide +kernel)
    (by decide +kernel) (.inr rfl) (by decide) (by decide) (by decide)

end Deflate64

end Un7z
