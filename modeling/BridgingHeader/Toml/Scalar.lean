import BridgingHeader.Text.Lines
import BridgingHeader.Toml.Basic

/-!
# Numbers and dates in TOML

A scalar that is not a string is told by its whole text. Digits may be grouped by single underscores
between them.
-/

namespace BridgingHeader.Toml

/-- A decimal digit has a value below ten. -/
def digitValue? (base : Nat) (c : Char) : Option Nat :=
  let value? :=
    if '0' ≤ c ∧ c ≤ '9' then some (c.toNat - '0'.toNat)
    else if 'a' ≤ c ∧ c ≤ 'f' then some (c.toNat - 'a'.toNat + 10)
    else if 'A' ≤ c ∧ c ≤ 'F' then some (c.toNat - 'A'.toNat + 10)
    else none
  value?.filter (· < base)

/-- The number that digits in a base write. -/
def number? (base : Nat) (digits : List Char) : Option Nat :=
  if digits = [] then none
  else digits.foldlM (fun n c => (digitValue? base c).map (n * base + ·)) 0

/-- The number that grouped digits write. -/
def groupedNumber? (base : Nat) (text : List Char) : Option Nat :=
  if (Text.pieces '_' text).all (· ≠ []) then number? base (text.filter (· ≠ '_')) else none

/-- A text without its sign, and whether that was a minus. -/
def splitSign : List Char → Bool × List Char
  | '+' :: rest => (false, rest)
  | '-' :: rest => (true, rest)
  | text => (false, text)

/-- Grouped decimal digits without a needless zero in front. -/
def decimal? (text : List Char) : Option Nat :=
  if text.head? = some '0' ∧ text ≠ ['0'] then none else groupedNumber? 10 text

/-- The text writes an integer. -/
def integer? (text : List Char) : Option Int :=
  match text with
  | '0' :: 'x' :: digits => (groupedNumber? 16 digits).map Int.ofNat
  | '0' :: 'o' :: digits => (groupedNumber? 8 digits).map Int.ofNat
  | '0' :: 'b' :: digits => (groupedNumber? 2 digits).map Int.ofNat
  | text =>
    let (negative, digits) := splitSign text
    (decimal? digits).map fun n => if negative then -(n : Int) else n

/-- Integers have 64 bits. -/
def fitsWord (n : Int) : Bool := -(Nat.pow 2 63 : Int) ≤ n && n < Nat.pow 2 63

/-- A decimal fraction with a sign: digits scaled by a power of ten. -/
structure Fraction where
  negative : Bool
  digits : Nat
  exponent : Int

/-- The parts of a text around the first of two marks, if one occurs. -/
def splitAtMark (mark other : Char) (text : List Char) : List Char × Option (List Char) :=
  let before := text.takeWhile fun c => c ≠ mark ∧ c ≠ other
  match text.drop before.length with
  | [] => (before, none)
  | _ :: after => (before, some after)

/-- The text writes a fraction: an integer part with a fractional part, an exponent, or both. -/
def fraction? (text : List Char) : Option Fraction := do
  let (negative, text) := splitSign text
  let (mantissa, exponent) := splitAtMark 'e' 'E' text
  let (whole, part) := splitAtMark '.' '.' mantissa
  if part.isNone ∧ exponent.isNone then none
  let wholeDigits ← decimal? whole
  let scale ← match exponent with
    | none => some (0 : Int)
    | some exponent =>
      let (negative, digits) := splitSign exponent
      (groupedNumber? 10 digits).map fun n => if negative then -(n : Int) else n
  match part with
  | none => some ⟨negative, wholeDigits, scale⟩
  | some part =>
    let partDigits ← groupedNumber? 10 part
    let places := (part.filter (· ≠ '_')).length
    some ⟨negative, wholeDigits * Nat.pow 10 places + partDigits, scale - places⟩

/-- From here on a number rounds to infinity in binary64. -/
def Fraction.limit : Nat := Nat.pow 2 1024 - Nat.pow 2 970

/-- A fraction is too large if it rounds to a number beyond the range of binary64. Below the range
there is no limit. -/
def Fraction.tooLarge (f : Fraction) : Bool :=
  if f.negative ∨ f.digits = 0 ∨ f.exponent + (Nat.toDigits 10 f.digits).length ≤ 308 then false
  else if f.exponent > 400 then true
  else if f.exponent ≥ 0 then Fraction.limit ≤ f.digits * Nat.pow 10 f.exponent.toNat
  else Fraction.limit * Nat.pow 10 (-f.exponent).toNat ≤ f.digits

/-- The text names infinity or stands for no number. -/
def isSpecial (text : List Char) : Bool :=
  let word := (splitSign text).2
  word = ['i', 'n', 'f'] || word = ['n', 'a', 'n']

/-- A number of exactly two digits within bounds. -/
def twoDigits (low high : Nat) (a b : Char) : Option Nat :=
  (number? 10 [a, b]).filter fun n => low ≤ n && n ≤ high

/-- The number of days of a month. -/
def daysIn (year month : Nat) : Nat :=
  if month = 2 then
    if year % 4 = 0 ∧ (year % 100 ≠ 0 ∨ year % 400 = 0) then 29 else 28
  else if month = 4 ∨ month = 6 ∨ month = 9 ∨ month = 11 then 30
  else 31

/-- What follows a date at the front of a text. -/
def afterDate? : List Char → Option (List Char)
  | a :: b :: c :: d :: '-' :: e :: f :: '-' :: g :: h :: rest => do
    let year ← number? 10 [a, b, c, d]
    let month ← twoDigits 1 12 e f
    let _ ← twoDigits 1 (daysIn year month) g h
    return rest
  | _ => none

/-- What follows a time of day at the front of a text. -/
def afterTime? : List Char → Option (List Char)
  | a :: b :: ':' :: c :: d :: ':' :: e :: f :: rest => do
    let _ ← twoDigits 0 23 a b
    let _ ← twoDigits 0 59 c d
    let _ ← twoDigits 0 60 e f
    match rest with
    | '.' :: places =>
      if (places.takeWhile Char.isDigit) = [] then none else return places.dropWhile Char.isDigit
    | rest => return rest
  | _ => none

/-- The text is an offset from universal time. -/
def isOffset : List Char → Bool
  | ['Z'] | ['z'] => true
  | [sign, a, b, ':', c, d] =>
    (sign = '+' || sign = '-') && (twoDigits 0 23 a b).isSome && (twoDigits 0 59 c d).isSome
  | _ => false

/-- The text is a date, a time of day, or a date with a time of day and perhaps an offset. -/
def isDate (text : List Char) : Bool :=
  match afterDate? text with
  | some [] => true
  | some (mark :: time) =>
    (mark = 'T' || mark = 't' || mark = ' ') &&
      match afterTime? time with
      | some rest => rest = [] || isOffset rest
      | none => false
  | none => afterTime? text = some []

/-- The value that the text of a scalar writes. -/
def scalar (text : List Char) : Except Fault Toml :=
  let contents := String.ofList text
  if text = ['t', 'r', 'u', 'e'] then return .boolean true
  else if text = ['f', 'a', 'l', 's', 'e'] then return .boolean false
  else if isDate text then return .date contents
  else match integer? text, fraction? text with
    | some n, _ => if fitsWord n then return .number contents else throw .numberOutOfRange
    | none, some f => if f.tooLarge then throw .numberOutOfRange else return .number contents
    | none, none => if isSpecial text then return .number contents else throw .invalidValue

end BridgingHeader.Toml
