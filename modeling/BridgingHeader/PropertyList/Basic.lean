import BridgingHeader.Dictionary

/-!
# Property lists

A property list is a string, an array or a dictionary of property lists. Project descriptors are
property lists in the text format of `PropertyList.Reader` and `PropertyList.Printer`.
-/

namespace BridgingHeader

/-- A value of a project descriptor. -/
inductive PropertyList where
  | string (text : String)
  | array (items : List PropertyList)
  | dictionary (contents : Dictionary PropertyList)
  deriving Inhabited

namespace PropertyList

mutual

/-- Equality of property lists is decided along their structure. -/
def decideEq : (a b : PropertyList) → Decidable (a = b)
  | .string s, .string t =>
    if h : s = t then isTrue (h ▸ rfl) else isFalse fun e => h (PropertyList.string.inj e)
  | .array xs, .array ys =>
    match decideEqItems xs ys with
    | isTrue h => isTrue (h ▸ rfl)
    | isFalse h => isFalse fun e => h (PropertyList.array.inj e)
  | .dictionary ⟨xs⟩, .dictionary ⟨ys⟩ =>
    match decideEqEntries xs ys with
    | isTrue h => isTrue (h ▸ rfl)
    | isFalse h => isFalse fun e => h (Dictionary.mk.inj (PropertyList.dictionary.inj e))
  | .string _, .array _ | .string _, .dictionary _ | .array _, .string _
  | .array _, .dictionary _ | .dictionary _, .string _ | .dictionary _, .array _ =>
    isFalse fun e => nomatch e

/-- Equality of array items. -/
def decideEqItems : (xs ys : List PropertyList) → Decidable (xs = ys)
  | [], [] => isTrue rfl
  | [], _ :: _ => isFalse fun e => nomatch e
  | _ :: _, [] => isFalse fun e => nomatch e
  | x :: xs, y :: ys =>
    match decideEq x y, decideEqItems xs ys with
    | isTrue h, isTrue hs => isTrue (h ▸ hs ▸ rfl)
    | isFalse h, _ => isFalse fun e => h (List.cons.inj e).1
    | _, isFalse hs => isFalse fun e => hs (List.cons.inj e).2

/-- Equality of dictionary entries. -/
def decideEqEntries : (xs ys : List (String × PropertyList)) → Decidable (xs = ys)
  | [], [] => isTrue rfl
  | [], _ :: _ => isFalse fun e => nomatch e
  | _ :: _, [] => isFalse fun e => nomatch e
  | (k, x) :: xs, (l, y) :: ys =>
    if hk : k = l then
      match decideEq x y, decideEqEntries xs ys with
      | isTrue h, isTrue hs => isTrue (hk ▸ h ▸ hs ▸ rfl)
      | isFalse h, _ => isFalse fun e => h (Prod.mk.inj (List.cons.inj e).1).2
      | _, isFalse hs => isFalse fun e => hs (List.cons.inj e).2
    else isFalse fun e => hk (Prod.mk.inj (List.cons.inj e).1).1

end

instance : DecidableEq PropertyList := decideEq

/-- The text of a string value. -/
def asString? : PropertyList → Option String
  | .string text => some text
  | _ => none

/-- The items of an array value. -/
def asArray? : PropertyList → Option (List PropertyList)
  | .array items => some items
  | _ => none

/-- The contents of a dictionary value. -/
def asDictionary? : PropertyList → Option (Dictionary PropertyList)
  | .dictionary contents => some contents
  | _ => none

end PropertyList

namespace Dictionary

/-- The value of a key if it is a string. -/
def getString? (d : Dictionary PropertyList) (key : String) : Option String :=
  (d.get? key).bind PropertyList.asString?

/-- The value of a key if it is an array. -/
def getArray? (d : Dictionary PropertyList) (key : String) : Option (List PropertyList) :=
  (d.get? key).bind PropertyList.asArray?

/-- The value of a key if it is a dictionary. -/
def getDictionary? (d : Dictionary PropertyList) (key : String) :
    Option (Dictionary PropertyList) :=
  (d.get? key).bind PropertyList.asDictionary?

end Dictionary

end BridgingHeader
