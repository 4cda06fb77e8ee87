/-
The coding of Unix `compress`.

What the decoder is measured against: the codes of `Lzw`, written as numbers of a width that
grows with the table.  The codes of one width are written in groups of eight, and a group that
is not full when the width changes or the table is cleared is filled up.  None of it is
translated from the decoder.
-/
import Un7z.UnixCompress
import Un7z.Lib.BitString
import Un7z.Lib.Lzw

namespace Un7z

namespace UnixCompress

open BitString (lsb pack)

/-- What the header says of the codes. -/
structure Coding where
  maximumWidth : Nat
  blockMode : Bool
  width_ge : minimumCodeBits ≤ maximumWidth
  width_le : maximumWidth ≤ maximumCodeBits

namespace Coding

/-- The number of the first phrase; with CLEAR codes there is one number less for phrases. -/
def firstEntry (coding : Coding) : Nat :=
  if coding.blockMode then firstBlockCode else firstPlainCode

/-- The room in the table. -/
def capacity (coding : Coding) : Nat := 2 ^ coding.maximumWidth - coding.firstEntry

def number (coding : Coding) : Lzw.Code UInt8 → Nat
  | .literal byte => byte.toNat
  | .entry index => coding.firstEntry + index
  | .clear => clearCode

/-- What a group of so many codes lacks to eight. -/
def fill (width filled : Nat) : List Bool := List.replicate ((8 - filled) * width) false

/--
The bits of codes, from a place where `filled` codes of the group have been written.

`free` is the number the next phrase of the table gets.  The width grows when it is beyond the
numbers of this width at the time a code is written.
-/
def bitsFrom (coding : Coding) : (width free filled : Nat) → List (Lzw.Code UInt8) → List Bool
  | _, _, _, [] => []
  | width, _, filled, .clear :: rest =>
      lsb width clearCode
        ++ (fill width (filled + 1) ++ coding.bitsFrom initialCodeBits coding.firstEntry 0 rest)
  | width, free, filled, code :: rest =>
      let next := min (free + 1) (2 ^ coding.maximumWidth)
      lsb width (coding.number code)
        ++ if 2 ^ width ≤ free ∧ width < coding.maximumWidth then
            fill width (filled + 1) ++ coding.bitsFrom (width + 1) next 0 rest
          else
            coding.bitsFrom width next ((filled + 1) % 8) rest

def flags (coding : Coding) : UInt8 :=
  UInt8.ofNat coding.maximumWidth ||| if coding.blockMode then blockModeFlag else 0

/-- A file of pieces, with the table cleared between them. -/
def compress (coding : Coding) (pieces : List Bytes) : Bytes :=
  unixCompressMagic ++ coding.flags
    :: pack (coding.bitsFrom initialCodeBits coding.firstEntry 0 (Lzw.encode coding.capacity pieces))

end Coding

end UnixCompress

end Un7z
