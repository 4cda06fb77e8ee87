/-
The coding of Deflate64.

What the decoder is measured against: the blocks of a stream, the bits that stand for them,
and the bytes they stand for.  None of it is translated from the decoder; the tables of
lengths and distances are those of the format.

A block is stored, or it is a sequence of tokens written in two prefix codes, which are
fixed or described in front of the tokens.  What cannot be written is not built here: a code
has room for its codewords, and the runs of a header make up the lengths they stand for.
What depends on the bytes before a block, or on the place where it starts, is left to
`expand` and to `Writable`.
-/
import Un7z.Deflate64
import Un7z.Lib.CanonicalCode
import Un7z.Lib.Lz77

namespace Un7z

namespace Deflate64

open BitString (lsb ofBytes)

/-! ### Numbers and codes -/

/-- A number as an entry of a table of bases, with as many bits as a table of widths says. -/
structure Coded (bases widths : List Nat) where
  index : Nat
  bits : Nat
  index_lt : index < bases.length
  bits_lt : bits < 2 ^ widths.getD index 0

namespace Coded

variable {bases widths : List Nat}

def value (number : Coded bases widths) : Nat := bases.getD number.index 0 + number.bits

/-- The bits behind the codeword of the index. -/
def extra (number : Coded bases widths) : List Bool := lsb (widths.getD number.index 0) number.bits

end Coded

/-- The lengths of the codewords of a code that has room for them. -/
structure PrefixCode where
  lengths : List Nat
  length_le : ∀ length ∈ lengths, length ≤ maxCodeBits
  room : ¬ CanonicalCode.Oversubscribed lengths

namespace PrefixCode

def codeword (code : PrefixCode) (symbol : Nat) : List Bool :=
  CanonicalCode.codeword code.lengths symbol

/-- The symbol has a codeword. -/
def Has (code : PrefixCode) (symbol : Nat) : Prop := CanonicalCode.length code.lengths symbol ≠ 0

instance (code : PrefixCode) (symbol : Nat) : Decidable (code.Has symbol) :=
  inferInstanceAs (Decidable (_ ≠ _))

end PrefixCode

/-- The codes of a block: that of literals and lengths, and that of distances. -/
structure Codes where
  literals : PrefixCode
  distances : PrefixCode

/-! ### Tokens -/

inductive Token where
  | literal (byte : UInt8)
  | copy (length : Coded lengthBase lengthExtra) (distance : Coded distanceBase distanceExtra)

namespace Token

/-- What comes behind a history, unless it reaches back before its first byte. -/
def expand (history : Bytes) : Token → Option Bytes
  | .literal byte => some (history ++ [byte])
  | .copy length distance =>
      if distance.value ≤ history.length then
        some (Lz77.copy distance.value length.value history)
      else
        none

def word (codes : Codes) : Token → List Bool
  | .literal byte => codes.literals.codeword byte.toNat
  | .copy length distance =>
      codes.literals.codeword (257 + length.index) ++ (length.extra ++
        (codes.distances.codeword distance.index ++ distance.extra))

/-- The symbols of the token have codewords. -/
def Writable (codes : Codes) : Token → Prop
  | .literal byte => codes.literals.Has byte.toNat
  | .copy length distance => codes.literals.Has (257 + length.index) ∧ codes.distances.Has distance.index

instance (codes : Codes) : (token : Token) → Decidable (token.Writable codes)
  | .literal byte => inferInstanceAs (Decidable (codes.literals.Has byte.toNat))
  | .copy _ _ => inferInstanceAs (Decidable (_ ∧ _))

end Token

/-- Tokens, and the symbol that ends a block. -/
def tokensWord (codes : Codes) (tokens : List Token) : List Bool :=
  tokens.flatMap (Token.word codes) ++ codes.literals.codeword 256

/-! ### The description of two codes -/

/-- The bits behind a symbol of the code for lengths. -/
def itemWidth (symbol : Nat) : Nat :=
  if symbol = 16 then 2 else if symbol = 17 then 3 else if symbol = 18 then 7 else 0

/-- A length, or a run of lengths. -/
structure Item where
  symbol : Nat
  bits : Nat
  symbol_lt : symbol < 19
  bits_lt : bits < 2 ^ itemWidth symbol

namespace Item

/-- The lengths with those of one more item: the length that the symbol is, some more of the last
length, or some zeros. -/
def expand (done : List Nat) (item : Item) : Option (List Nat) :=
  if item.symbol ≤ 15 then
    some (done ++ [item.symbol])
  else if item.symbol = 16 then
    done.getLast?.map fun last => done ++ List.replicate (3 + item.bits) last
  else if item.symbol = 17 then
    some (done ++ List.replicate (3 + item.bits) 0)
  else
    some (done ++ List.replicate (11 + item.bits) 0)

def word (codeLengths : PrefixCode) (item : Item) : List Bool :=
  codeLengths.codeword item.symbol ++ lsb (itemWidth item.symbol) item.bits

end Item

/-- Two codes, and the way in which they are described. -/
structure Header where
  codes : Codes
  /-- The code in which the lengths of the codewords are written. -/
  codeLengths : PrefixCode
  codeLengthCount : Nat
  items : List Item
  literals_le : 257 ≤ codes.literals.lengths.length ∧ codes.literals.lengths.length ≤ 286
  distances_le : 1 ≤ codes.distances.lengths.length ∧ codes.distances.lengths.length ≤ 32
  count_le : 4 ≤ codeLengthCount ∧ codeLengthCount ≤ 19
  length_codeLengths : codeLengths.lengths.length = 19
  codeLengths_lt : ∀ length ∈ codeLengths.lengths, length < 8
  unsent : ∀ symbol ∈ codeLengthOrder.drop codeLengthCount, codeLengths.lengths.getD symbol 0 = 0
  has_items : ∀ item ∈ items, codeLengths.Has item.symbol
  expand : items.foldlM Item.expand []
    = some (codes.literals.lengths ++ codes.distances.lengths)
  has_end : codes.literals.Has 256

namespace Header

/-- The lengths of the code for lengths, in their order. -/
def lengthsWord (lengths symbols : List Nat) : List Bool :=
  symbols.flatMap fun symbol => lsb 3 (lengths.getD symbol 0)

def word (header : Header) : List Bool :=
  lsb 5 (header.codes.literals.lengths.length - 257) ++
    (lsb 5 (header.codes.distances.lengths.length - 1) ++
      (lsb 4 (header.codeLengthCount - 4) ++
        (lengthsWord header.codeLengths.lengths (codeLengthOrder.take header.codeLengthCount) ++
          header.items.flatMap (Item.word header.codeLengths))))

end Header

/-! ### Blocks -/

def fixedDistances : List Nat := List.replicate 32 5

theorem fixedLiterals_le : ∀ length ∈ fixedLiterals, length ≤ maxCodeBits := by decide +kernel

theorem fixedDistances_le : ∀ length ∈ fixedDistances, length ≤ maxCodeBits := by decide +kernel

theorem fixedLiterals_room : ¬ CanonicalCode.Oversubscribed fixedLiterals := by
  refine CanonicalCode.not_oversubscribed ?_ fixedLiterals_le
  unfold CanonicalCode.Fits
  decide +kernel

theorem fixedDistances_room : ¬ CanonicalCode.Oversubscribed fixedDistances := by
  refine CanonicalCode.not_oversubscribed ?_ fixedDistances_le
  unfold CanonicalCode.Fits
  decide +kernel

/-- The codes of blocks that describe none. -/
def fixedCodes : Codes where
  literals := ⟨fixedLiterals, fixedLiterals_le, fixedLiterals_room⟩
  distances := ⟨fixedDistances, fixedDistances_le, fixedDistances_room⟩

inductive Block where
  /-- Bytes as they are, with bits before them that fill up a byte. -/
  | stored (padding : List Bool) (bytes : Bytes)
  | fixed (tokens : List Token)
  | dynamic (header : Header) (tokens : List Token)

namespace Block

def expand (history : Bytes) : Block → Option Bytes
  | .stored _ bytes => some (history ++ bytes)
  | .fixed tokens => tokens.foldlM Token.expand history
  | .dynamic _ tokens => tokens.foldlM Token.expand history

def word : Block → List Bool
  | .stored padding bytes =>
      lsb 2 0 ++ (padding ++ (lsb 16 bytes.length ++ (lsb 16 (bytes.length ^^^ 0xffff) ++ ofBytes bytes)))
  | .fixed tokens => lsb 2 1 ++ tokensWord fixedCodes tokens
  | .dynamic header tokens => lsb 2 2 ++ (header.word ++ tokensWord header.codes tokens)

/-- The block can be written from the bit `offset` of a stream on. -/
def Writable (offset : Nat) : Block → Prop
  | .stored padding bytes =>
      bytes.length < 2 ^ 16 ∧ padding.length < 8 ∧ (offset + 2 + padding.length) % 8 = 0
  | .fixed tokens => ∀ token ∈ tokens, token.Writable fixedCodes
  | .dynamic header tokens => ∀ token ∈ tokens, token.Writable header.codes

instance (offset : Nat) : (block : Block) → Decidable (block.Writable offset)
  | .stored _ _ => inferInstanceAs (Decidable (_ ∧ _ ∧ _))
  | .fixed tokens => inferInstanceAs (Decidable (∀ token ∈ tokens, token.Writable fixedCodes))
  | .dynamic header tokens => inferInstanceAs (Decidable (∀ token ∈ tokens, token.Writable header.codes))

end Block

/-! ### Streams -/

/-- Each block behind a bit that says whether it is the last one. -/
def streamWord : List Block → List Bool
  | [] => []
  | block :: rest => lsb 1 (if rest = [] then 1 else 0) ++ (block.word ++ streamWord rest)

/-- The blocks can be written one behind the other. -/
def Writable : Nat → List Block → Prop
  | _, [] => True
  | offset, block :: rest =>
      block.Writable (offset + 1) ∧ Writable (offset + 1 + block.word.length) rest

instance decidableWritable : (offset : Nat) → (blocks : List Block) → Decidable (Writable offset blocks)
  | _, [] => inferInstanceAs (Decidable True)
  | offset, block :: rest =>
      have := decidableWritable (offset + 1 + block.word.length) rest
      inferInstanceAs (Decidable (_ ∧ _))

/-- What the blocks stand for. -/
def expand (blocks : List Block) : Option Bytes := blocks.foldlM Block.expand []

/-- The bytes are those of a stream of blocks; what comes behind the blocks fills up the last byte. -/
structure Writes (blocks : List Block) (input : Bytes) : Prop where
  nonempty : blocks ≠ []
  writable : Writable 0 blocks
  bits : ∃ padding, padding.length < 8 ∧ ofBytes input = streamWord blocks ++ padding

/-- The bytes of a stream, the last one filled up with zeros. -/
def encode (blocks : List Block) : Bytes := BitString.pack (streamWord blocks)

end Deflate64

end Un7z
