/-!
# Digests

Identifiers of project objects are cut from the digest of a byte sequence. Everything that needs
one takes the digest as a parameter; `Digest.sha256` is the one that projects use.
-/

namespace BridgingHeader

/-- A function from byte sequences to 32 bytes. -/
abbrev Digest := List UInt8 → Vector UInt8 32

namespace Digest

/-- The upper-case hexadecimal digit of a number below sixteen. -/
def upperHexDigit (n : Nat) : Char :=
  if n < 10 then Char.ofNat ('0'.toNat + n) else Char.ofNat ('A'.toNat + (n - 10))

/-- The two upper-case hexadecimal digits of a byte. -/
def upperHexByte (byte : UInt8) : List Char :=
  [upperHexDigit (byte.toNat / 16), upperHexDigit (byte.toNat % 16)]

/-- Bytes as upper-case hexadecimal digits. -/
def upperHex (bytes : List UInt8) : List Char := bytes.flatMap upperHexByte

/-- The eight bytes of a word, lowest first. -/
def littleEndian (word : UInt64) : List UInt8 :=
  (List.range 8).map fun i => (word >>> (8 * i).toUInt64).toUInt8

/-- Two digits stand for each byte. -/
theorem length_upperHex (bytes : List UInt8) : (upperHex bytes).length = 2 * bytes.length := by
  induction bytes with
  | nil => rfl
  | cons byte rest ih =>
    rw [upperHex, List.flatMap_cons, List.length_append, ← upperHex, ih]
    simp [upperHexByte]
    omega

end Digest

end BridgingHeader
