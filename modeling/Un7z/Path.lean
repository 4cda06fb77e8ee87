/-
The path policy of `path.rs`.

A name is looked at twice: as a string, whose bytes are its UTF-8 encoding, and as the
UTF-16 code units an archive stores, which need not be the encoding of any string.
-/
import Mathlib.Data.List.Basic

namespace Un7z

inductive UnsafePathReason where
  | empty
  | nul
  | absolute
  | unc
  | drive
  | traversal
  deriving DecidableEq, Repr

/-- `str::as_bytes`. -/
def utf8Bytes (path : String) : List UInt8 := path.toList.flatMap String.utf8EncodeChar

/-- `char::encode_utf16`. -/
def encodeUtf16Char (c : Char) : List UInt16 :=
  if c.toNat < 0x10000 then
    [UInt16.ofNat c.toNat]
  else
    [UInt16.ofNat (0xd800 + (c.toNat - 0x10000) / 0x400),
      UInt16.ofNat (0xdc00 + (c.toNat - 0x10000) % 0x400)]

/-- `str::encode_utf16`. -/
def encodeUtf16 (path : String) : List UInt16 := path.toList.flatMap encodeUtf16Char

def isByteSeparator (byte : UInt8) : Bool := byte == 0x2f || byte == 0x5c

def isU16Separator (unit : UInt16) : Bool := unit == 0x2f || unit == 0x5c

/-- `u8::is_ascii_alphabetic`. -/
def isAsciiAlphabetic (byte : UInt8) : Bool :=
  (0x41 ≤ byte && byte ≤ 0x5a) || (0x61 ≤ byte && byte ≤ 0x7a)

/-- `is_ascii_letter` of `validate_safe_utf16_path`. -/
def isAsciiLetter (unit : UInt16) : Bool :=
  (0x61 ≤ unit && unit ≤ 0x7a) || (0x41 ≤ unit && unit ≤ 0x5a)

def validateSafePath (path : String) : Except UnsafePathReason Unit :=
  if (utf8Bytes path).isEmpty then
    .error .empty
  else if (utf8Bytes path).any (· == 0) then
    .error .nul
  else
    match utf8Bytes path with
    | [] => .error .empty
    | first :: rest =>
        let second := rest.head?
        if isByteSeparator first then
          if second.any isByteSeparator then .error .unc else .error .absolute
        else if isAsciiAlphabetic first && second == some 0x3a then
          .error .drive
        else if ((utf8Bytes path).splitOnP isByteSeparator).any (· == [0x2e, 0x2e]) then
          .error .traversal
        else
          .ok ()

def validateSafeUtf16Path (path : List UInt16) : Except UnsafePathReason Unit :=
  if path.isEmpty then
    .error .empty
  else if path.contains 0 then
    .error .nul
  else
    match path with
    | [] => .error .empty
    | first :: rest =>
        let second := rest.head?
        if isU16Separator first then
          if second.any isU16Separator then .error .unc else .error .absolute
        else if isAsciiLetter first && second == some 0x3a then
          .error .drive
        else if (path.splitOnP isU16Separator).any (· == [0x2e, 0x2e]) then
          .error .traversal
        else
          .ok ()

end Un7z
