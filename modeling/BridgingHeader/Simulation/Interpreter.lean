import BridgingHeader.Path.Basic
import BridgingHeader.Text.Utf8

/-!
# Interpreters

An executable file that starts with `#!` is run by an interpreter. The rest of its first line names
the interpreter and at most one argument for it. Only the head of the file is looked at, and it ends
in zeros if the file is shorter.
-/

namespace BridgingHeader

/-- What the first line of a script says. -/
structure Interpreter where
  path : Path
  argument : Option String
  deriving DecidableEq, Repr

namespace Interpreter

/-- As many bytes of a file are looked at. -/
def headLength : Nat := 256

/-- A space or a tab. -/
def isGap (byte : UInt8) : Bool := byte = 0x20 || byte = 0x09

/-- Bytes without gaps at their end. -/
def trimEnd (bytes : List UInt8) : List UInt8 := (bytes.reverse.dropWhile isGap).reverse

/-- The first line of a head, without the gaps at its end. A head without a line feed is taken to be
cut off, unless something ends the name in it. -/
def line? (head : List UInt8) : Option (List UInt8) :=
  match head.dropWhile fun byte => byte ≠ 0x0A && byte ≠ 0 with
  | 0x0A :: _ => some (trimEnd (head.takeWhile (· ≠ 0x0A)))
  | _ =>
    if (head.dropWhile isGap).any fun byte => isGap byte || byte = 0 then
      some (trimEnd head.dropLast)
    else none

/-- The text of bytes up to a zero. -/
def textOf (bytes : List UInt8) : String :=
  Text.Utf8.decodeLossy ⟨(bytes.takeWhile (· ≠ 0)).toArray⟩

/-- The interpreter that a line names. -/
def ofLine (line : List UInt8) : Option Interpreter :=
  match line.dropWhile isGap with
  | [] => none
  | start =>
    let name := start.takeWhile fun byte => !isGap byte && byte ≠ 0
    let argument := match start.drop name.length with
      | [] => none
      | byte :: rest => if byte = 0 then none else some (textOf (rest.dropWhile isGap))
    some ⟨⟨textOf name⟩, argument⟩

/-- The interpreter of a file with some contents. -/
def ofContents (contents : ByteArray) : Option Interpreter := do
  let bytes := (contents.extract 0 headLength).data.toList
  match bytes ++ List.replicate (headLength - bytes.length) 0 with
  | 0x23 :: 0x21 :: head => ofLine (← line? head)
  | _ => none

end Interpreter

end BridgingHeader
