/-! # Byte strings

Row keys, families, qualifiers and values are byte strings. Their order is the
one of `List` over unsigned bytes: the first difference decides, and a string
sorts before every longer string that begins with it.
-/

namespace MergeScan

/-- A key or a value, as the bytes it is made of. -/
abbrev Bytes := List UInt8

namespace Bytes

/-- The bytes that encode `text`. -/
def ofString (text : String) : Bytes :=
  text.toUTF8.toList

/-- Whether `bytes` begins with `lead`. -/
def startsWith (bytes lead : Bytes) : Bool :=
  lead.isPrefixOf bytes

end Bytes

end MergeScan
