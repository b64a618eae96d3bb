/-!
# UTF-8

Files are texts only if they are valid UTF-8. The output of tools is always taken as text: each
maximal run of bytes that starts like a character and does not complete one, and each byte that
starts none, is replaced by U+FFFD.
-/

namespace BridgingHeader.Text.Utf8

/-- Stands for bytes that are no character. -/
def replacement : Char := '\uFFFD'

/-- A character of which some bytes are missing. -/
structure Pending where
  /-- The bits of the code point so far. -/
  code : Nat
  /-- How many bytes are missing. -/
  missing : Nat
  /-- The bounds for the next byte. -/
  low : UInt8 := 0x80
  high : UInt8 := 0xBF

/-- What a byte at the start of a character begins. -/
def lead (byte : UInt8) : List Char × Option Pending :=
  let code := byte.toNat
  if byte < 0x80 then ([Char.ofNat code], none)
  else if byte < 0xC2 then ([replacement], none)
  else if byte < 0xE0 then ([], some { code := code - 0xC0, missing := 1 })
  else if byte = 0xE0 then ([], some { code := 0, missing := 2, low := 0xA0 })
  else if byte = 0xED then ([], some { code := 13, missing := 2, high := 0x9F })
  else if byte < 0xF0 then ([], some { code := code - 0xE0, missing := 2 })
  else if byte = 0xF0 then ([], some { code := 0, missing := 3, low := 0x90 })
  else if byte < 0xF4 then ([], some { code := code - 0xF0, missing := 3 })
  else if byte = 0xF4 then ([], some { code := 4, missing := 3, high := 0x8F })
  else ([replacement], none)

/-- The characters that one more byte completes, and the character that it leaves incomplete. -/
def next : Option Pending → UInt8 → List Char × Option Pending
  | none, byte => lead byte
  | some p, byte =>
    if p.low ≤ byte ∧ byte ≤ p.high then
      let code := p.code * 64 + (byte.toNat - 0x80)
      if p.missing = 1 then ([Char.ofNat code], none)
      else ([], some { code, missing := p.missing - 1 })
    else
      let (characters, pending) := lead byte
      (replacement :: characters, pending)

/-- The characters of a byte sequence that follows an incomplete character. -/
def decodeFrom : Option Pending → List UInt8 → List Char
  | none, [] => []
  | some _, [] => [replacement]
  | pending, byte :: rest =>
    let (characters, pending) := next pending byte
    characters ++ decodeFrom pending rest

/-- The text of a byte sequence, with replacements for what is not UTF-8. -/
def decodeLossy (bytes : ByteArray) : String := String.ofList (decodeFrom none bytes.data.toList)

end BridgingHeader.Text.Utf8
