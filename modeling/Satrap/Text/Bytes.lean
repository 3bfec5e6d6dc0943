/-
# Bytes

Texts as the parsers see them: lists of bytes, with the bytes of ASCII characters.
-/
import Mathlib.Data.UInt
import Mathlib.Data.Nat.Basic

namespace Satrap

/-- A text is a list of bytes. -/
abbrev Text := List UInt8

/-- The line feed. -/
def newline : UInt8 := 10

/-- The byte of an ASCII character. -/
def ascii (c : Char) : UInt8 := c.toNat.toUInt8

/-- The bytes of an ASCII string. -/
def bytesOf (s : String) : Text := s.toList.map ascii

/-- `u8::is_ascii_digit`. -/
def isAsciiDigit (b : UInt8) : Bool := ascii '0' ≤ b && b ≤ ascii '9'

/-- `u8::is_ascii_hexdigit`. -/
def isAsciiHexdigit (b : UInt8) : Bool :=
  isAsciiDigit b || (ascii 'a' ≤ b && b ≤ ascii 'f') || (ascii 'A' ≤ b && b ≤ ascii 'F')

/-- `u8::is_ascii_alphanumeric`. -/
def isAsciiAlphanumeric (b : UInt8) : Bool :=
  isAsciiDigit b || (ascii 'a' ≤ b && b ≤ ascii 'z') || (ascii 'A' ≤ b && b ≤ ascii 'Z')

/-- `String::from_utf8` accepts the bytes. -/
def isUtf8 (bytes : Text) : Bool := (ByteArray.mk bytes.toArray).validateUTF8

end Satrap
