import MergeScan.Bytes

/-! # Printing bytes

Two printed forms of a byte string share one rule: a byte with a short escape
is written as a backslash and a letter, a printable byte stands for itself, and
any other byte is written as `\x` and two hexadecimal digits. The forms differ
in which bytes have a short escape and in their delimiters.
-/

namespace MergeScan.Text

/-- One lower-case hexadecimal digit. -/
def hexDigit (value : UInt8) : Char :=
  if value < 10 then Char.ofNat (48 + value.toNat) else Char.ofNat (87 + value.toNat)

/-- The two hexadecimal digits of a byte. -/
def hexByte (byte : UInt8) : List Char :=
  [hexDigit (byte / 16), hexDigit (byte % 16)]

/-- Whether a byte is a printable character of the basic alphabet. -/
def isPrintable (byte : UInt8) : Bool :=
  0x20 ≤ byte && byte ≤ 0x7e

/-- The written form of one byte, where `short` gives the letter of those bytes
that have a short escape. -/
def escapeByte (short : UInt8 → Option Char) (byte : UInt8) : List Char :=
  match short byte with
  | some letter => ['\\', letter]
  | none =>
    if isPrintable byte then [Char.ofNat byte.toNat] else '\\' :: 'x' :: hexByte byte

/-- The short escapes inside a quoted byte string. -/
def quotedEscape (byte : UInt8) : Option Char :=
  match byte with
  | 0x00 => some '0'
  | 0x09 => some 't'
  | 0x0a => some 'n'
  | 0x0d => some 'r'
  | 0x22 => some '"'
  | 0x5c => some '\\'
  | _ => none

/-- The short escapes inside a key that stands without quotes. Both kinds of
quote are escaped, so that the key can be put between either of them. -/
def keyEscape (byte : UInt8) : Option Char :=
  match byte with
  | 0x09 => some 't'
  | 0x0a => some 'n'
  | 0x0d => some 'r'
  | 0x22 => some '"'
  | 0x27 => some '\''
  | 0x5c => some '\\'
  | _ => none

/-- All bytes of a string escaped, one after the other. -/
def escape (short : UInt8 → Option Char) (bytes : Bytes) : String :=
  String.ofList (bytes.flatMap (escapeByte short))

end MergeScan.Text

namespace MergeScan.Bytes

/-- The byte string between quotes, marked as one of bytes. -/
def quoted (bytes : Bytes) : String :=
  "b\"" ++ Text.escape Text.quotedEscape bytes ++ "\""

/-- The byte string as it stands inside the printed form of a cell. -/
def escaped (bytes : Bytes) : String :=
  Text.escape Text.keyEscape bytes

end MergeScan.Bytes
