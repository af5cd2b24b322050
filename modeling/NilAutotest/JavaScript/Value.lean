import NilAutotest.JavaScript.BigInt
import Mathlib.Data.List.Sort

/-!
# Parsed JSON documents as JavaScript values

A parsed document consists of plain values, except that a number is an object of the
parser's own class, which keeps the text of the number in its member `value`. Every name
in an object, also `__proto__`, names an ordinary member. Property access is modelled for
names that no built-in prototype defines. Enumerating a value with `for (let i in v)` and
reading `v[i]` gives its `entries`: the elements of an array, the units of a string, the
members of an object with those named by an index first.

How the class of numbers converts itself to a primitive is a parameter.
-/

namespace JavaScript

open Text

/-- A parsed document. -/
inductive Json
  | null
  | bool (b : Bool)
  | str (s : Units)
  | num (l : NumberLiteral)
  | arr (elements : List Json)
  | obj (members : List (Units × Json))

/-- The values that parameter files turn into. -/
inductive Value
  | undefined
  | number (n : Nat)
  | bigint (n : Int)
  | json (j : Json)

/-- The conversions that the class of numbers defines itself. -/
structure LosslessNumber where
  toBigInt : NumberLiteral → Except Error Int
  toText : NumberLiteral → Except Error Units

/-- The conversions by the text of the number. -/
def LosslessNumber.ofText : LosslessNumber where
  toBigInt l := if l.IsInteger then .ok l.value else .error .rangeError
  toText l := .ok (units l.text)

/-- A member of an object; the parser keeps one member for each name. -/
def Json.member? (name : String) : Json → Option Json
  | .obj members => members.lookup (units name.toList)
  | _ => none

/-- Property access. -/
def Value.get (name : String) : Value → Except Error Value
  | .undefined => .error .typeError
  | .json .null => .error .typeError
  | .json (.str s) => .ok (if name = "length" then .number s.length else .undefined)
  | .json (.arr elements) =>
      .ok (if name = "length" then .number elements.length else .undefined)
  | .json (.num l) =>
      .ok (if name = "value" then .json (.str (units l.text))
        else if name = "isLosslessNumber" then .json (.bool true) else .undefined)
  | .json (.obj members) => .ok (((Json.obj members).member? name).elim .undefined .json)
  | .json (.bool _) | .number _ | .bigint _ => .ok .undefined

/-- A document with a member is an object, and its properties are its members. -/
theorem Value.get_of_member? {document j : Json} {name : String}
    (h : document.member? name = some j) (name' : String) :
    (Value.json document).get name' =
      .ok ((document.member? name').elim .undefined .json) := by
  cases document with
  | obj members => rfl
  | null => simp [Json.member?] at h
  | bool b => simp [Json.member?] at h
  | str s => simp [Json.member?] at h
  | num l => simp [Json.member?] at h
  | arr elements => simp [Json.member?] at h

/-- The index that a name stands for. -/
def arrayIndex? (name : Units) : Option Nat :=
  match natOfDigits? (name.map unitChar) with
  | some n => if units (digits n) = name ∧ n < 2 ^ 32 - 1 then some n else none
  | none => none

/-- One member for each name. -/
def distinct : List (Units × Json) → List (Units × Json)
  | [] => []
  | (name, j) :: members => (name, j) :: (distinct members).filter (·.1 ≠ name)

/-- The members of an object in the order of enumeration. -/
def enumerated (members : List (Units × Json)) : List (Units × Json) :=
  ((distinct members).filter fun m => (arrayIndex? m.1).isSome).insertionSort
      (fun a b => (arrayIndex? a.1).getD 0 ≤ (arrayIndex? b.1).getD 0) ++
    (distinct members).filter fun m => (arrayIndex? m.1).isNone

/-- The values at the enumerated keys. -/
def Value.entries : Value → List Value
  | .json (.str s) => s.map fun u => .json (.str [u])
  | .json (.arr elements) => elements.map .json
  | .json (.num l) => [.json (.str (units l.text)), .json (.bool true)]
  | .json (.obj members) => (enumerated members).map fun m => .json m.2
  | _ => []

/-- The text of a plain object. A member of the name `toString` is no function and stands
in the way of the inherited one. -/
def objectText (members : List (Units × Json)) : Except Error Units :=
  match members.lookup (units "toString".toList) with
  | some _ => .error .typeError
  | none => .ok (units "[object Object]".toList)

mutual

/-- What a value adds to the text of an array that contains it. -/
def joined (L : LosslessNumber) : Json → Except Error Units
  | .null => .ok []
  | .bool b => .ok (units (if b then "true".toList else "false".toList))
  | .str s => .ok s
  | .num l => L.toText l
  | .arr elements => do
      let pieces ← joinedAll L elements
      pure ((units [',']).intercalate pieces)
  | .obj members => objectText members

/-- The pieces of the text of an array. -/
def joinedAll (L : LosslessNumber) : List Json → Except Error (List Units)
  | [] => .ok []
  | j :: elements => do
      let piece ← joined L j
      let pieces ← joinedAll L elements
      pure (piece :: pieces)

end

/-- `BigInt` on a value. -/
def bigInt (L : LosslessNumber) : Value → Except Error Int
  | .undefined => .error .typeError
  | .number n => .ok n
  | .bigint n => .ok n
  | .json .null => .error .typeError
  | .json (.bool b) => .ok (if b then 1 else 0)
  | .json (.str s) => stringToBigInt s
  | .json (.num l) => L.toBigInt l
  | .json (.arr elements) => do
      let text ← joined L (.arr elements)
      stringToBigInt text
  | .json (.obj members) => do
      let text ← objectText members
      stringToBigInt text

end JavaScript
