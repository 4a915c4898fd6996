import Mathlib.Data.Rat.Init
import Mathlib.Algebra.GroupWithZero.Nat
import Mathlib.Algebra.Order.Ring.Unbundled.Rat

/-!
# JSON values

The payload of a revision is a `serde_json::Value`.  The parts of it the program
looks at are modelled: structural equality, the conversion of a number to a
double, and the look-up of a key in an object.

A number is one of serde_json's three cases, and equality never crosses them.  A
finite double is represented by the rational it stands for, which identifies the
two zeros as `==` does; a parsed number is never infinite or a NaN.  An object is
the list of its entries in key order, as a `BTreeMap` keeps them.

## Main definitions

* `Number`, `Json` — numbers and values.
* `Number.asF64` — the conversion to a double, rounding ties to even.
* `Json.beq` — structural equality, and the `DecidableEq` instance it gives.
* `Json.get` — the value under a key of an object.
* `Json.hasNul` — some string in the value contains U+0000.
* `stripRoot` — a path into a value without its `$.`.
-/

namespace Rustend

/-- A JSON number: `u64`, negative `i64`, or a finite double. -/
inductive Number where
  | posInt (n : UInt64)
  | negInt (n : Int64)
  | float (x : ℚ)
  deriving DecidableEq

/-- Rounding of a natural number to 53 significant bits, ties to even: the value
of the double nearest to it. -/
def roundNat (n : ℕ) : ℕ :=
  if n < 2 ^ 53 then n
  else
    let ulp := 2 ^ (n.log2 - 52)
    let q := n / ulp
    let r := n % ulp
    if 2 * r < ulp ∨ (2 * r = ulp ∧ q % 2 = 0) then q * ulp else (q + 1) * ulp

/-- serde_json's `as_f64`, by the value of the double. -/
def Number.asF64 : Number → ℚ
  | .posInt n => (roundNat n.toNat : ℚ)
  | .negInt n =>
      if n.toInt < 0 then -(roundNat n.toInt.natAbs : ℚ) else (roundNat n.toInt.natAbs : ℚ)
  | .float x => x

/-- A JSON value. -/
inductive Json where
  | null
  | bool (b : Bool)
  | number (n : Number)
  | string (s : String)
  | array (xs : List Json)
  | object (fields : List (String × Json))
  deriving Inhabited

namespace Json

mutual

/-- Structural equality. -/
def beq : Json → Json → Bool
  | .null, .null => true
  | .bool a, .bool b => a == b
  | .number a, .number b => a == b
  | .string a, .string b => a == b
  | .array xs, .array ys => beqList xs ys
  | .object xs, .object ys => beqFields xs ys
  | _, _ => false

/-- Structural equality of two arrays. -/
def beqList : List Json → List Json → Bool
  | [], [] => true
  | x :: xs, y :: ys => beq x y && beqList xs ys
  | _, _ => false

/-- Structural equality of two objects. -/
def beqFields : List (String × Json) → List (String × Json) → Bool
  | [], [] => true
  | (k, x) :: xs, (l, y) :: ys => k == l && beq x y && beqFields xs ys
  | _, _ => false

end

mutual

theorem beq_iff : ∀ a b : Json, beq a b = true ↔ a = b
  | .null, b => by cases b <;> simp [beq]
  | .bool _, b => by cases b <;> simp [beq]
  | .number _, b => by cases b <;> simp [beq]
  | .string _, b => by cases b <;> simp [beq]
  | .array xs, b => by
    cases b with
    | array ys => simp [beq, beqList_iff xs ys]
    | _ => simp [beq]
  | .object xs, b => by
    cases b with
    | object ys => simp [beq, beqFields_iff xs ys]
    | _ => simp [beq]

theorem beqList_iff : ∀ xs ys : List Json, beqList xs ys = true ↔ xs = ys
  | [], ys => by cases ys <;> simp [beqList]
  | x :: xs, ys => by
    cases ys with
    | nil => simp [beqList]
    | cons y ys => simp [beqList, beq_iff x y, beqList_iff xs ys]

theorem beqFields_iff : ∀ xs ys : List (String × Json), beqFields xs ys = true ↔ xs = ys
  | [], ys => by cases ys <;> simp [beqFields]
  | (k, x) :: xs, ys => by
    cases ys with
    | nil => simp [beqFields]
    | cons y ys =>
      obtain ⟨l, y⟩ := y
      simp [beqFields, beq_iff x y, beqFields_iff xs ys]

end

instance : DecidableEq Json := fun a b => decidable_of_iff _ (beq_iff a b)

/-- `Value::get` with a string key: the value of that key in an object, nothing in
any other kind of value. -/
def get : Json → String → Option Json
  | .object fields, key => fields.lookup key
  | _, _ => none

/-- `Value::as_str`. -/
def asStr : Json → Option String
  | .string s => some s
  | _ => none

/-- A string contains U+0000. -/
def strHasNul (s : String) : Bool := s.toList.contains '\x00'

mutual

/-- Some string or key in the value contains U+0000. -/
def hasNul : Json → Bool
  | .string s => strHasNul s
  | .array xs => hasNulList xs
  | .object fields => hasNulFields fields
  | _ => false

/-- Some string in the array contains U+0000. -/
def hasNulList : List Json → Bool
  | [] => false
  | x :: xs => hasNul x || hasNulList xs

/-- Some string or key in the object contains U+0000. -/
def hasNulFields : List (String × Json) → Bool
  | [] => false
  | (k, x) :: xs => strHasNul k || hasNul x || hasNulFields xs

end

end Json

/-- `path.strip_prefix("$.").unwrap_or(path)`. -/
def stripRoot (path : List Char) : List Char :=
  if ['$', '.'].isPrefixOf path then path.drop 2 else path

end Rustend
