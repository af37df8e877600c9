import MergeScan.Text.Escape

/-! # Bytes in hexadecimal

A byte string that cannot be shown as text is written with two digits a byte.
-/

namespace MergeScan

namespace Text

/-- The value of a hexadecimal digit of either case. -/
def hexValue? (digit : Char) : Option UInt8 :=
  if '0' ≤ digit ∧ digit ≤ '9' then some (digit.toNat - 48).toUInt8
  else if 'a' ≤ digit ∧ digit ≤ 'f' then some (digit.toNat - 87).toUInt8
  else if 'A' ≤ digit ∧ digit ≤ 'F' then some (digit.toNat - 55).toUInt8
  else none

/-- The bytes that an even number of digits stands for. -/
def ofHex? : List Char → Option Bytes
  | [] => some []
  | [_] => none
  | high :: low :: rest => do
    let high ← hexValue? high
    let low ← hexValue? low
    let rest ← ofHex? rest
    return (high * 16 + low) :: rest

end Text

namespace Bytes

/-- The bytes as characters, if all of them are printable. -/
def printable? (bytes : Bytes) : Option String :=
  if bytes.all Text.isPrintable then
    some (String.ofList (bytes.map fun byte => Char.ofNat byte.toNat))
  else none

/-- The bytes in hexadecimal. -/
def toHex (bytes : Bytes) : String :=
  String.ofList (bytes.flatMap Text.hexByte)

end Bytes

end MergeScan
