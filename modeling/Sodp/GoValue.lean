import Mathlib.Algebra.Order.Floor.Semifield
import Mathlib.Algebra.Order.Round
import Mathlib.Data.Int.Log
import Mathlib.Data.Nat.Digits.Defs
import Mathlib.Data.Rat.Floor
import Sodp.GoEdit

/-!
# Values of the Go server

What an `any` of the Go server holds. A number keeps its Go type, because type switches and `equal`
look at it; `toJson` forgets it, as the wire does. `equal` compares two values of one of six types
and otherwise what `%v` prints of them. A float is printed with the fewest digits that are read
back as the same float, and with an exponent below -4 or from 6 on.
-/

namespace Sodp
open OrderedMap List

inductive IntKind where
  | int | int8 | int16 | int32 | int64
  | uint | uint8 | uint16 | uint32 | uint64
deriving DecidableEq

namespace IntKind

def signed : IntKind → Bool
  | int | int8 | int16 | int32 | int64 => true
  | _ => false

def bits : IntKind → ℕ
  | int8 | uint8 => 8
  | int16 | uint16 => 16
  | int32 | uint32 => 32
  | _ => 64

def Holds (k : IntKind) (i : ℤ) : Prop :=
  if k.signed then -2 ^ (k.bits - 1) ≤ i ∧ i < 2 ^ (k.bits - 1) else 0 ≤ i ∧ i < 2 ^ k.bits

instance (k : IntKind) (i : ℤ) : Decidable (k.Holds i) := by
  unfold Holds
  infer_instance

end IntKind

/-- An integer of a Go type, in the range of that type. -/
structure GoInt where
  kind : IntKind
  val : ℤ
  inRange : kind.Holds val
deriving DecidableEq

inductive FloatKind where
  | float32 | float64
deriving DecidableEq

namespace FloatKind

def mantissa : FloatKind → ℕ
  | float32 => 24
  | float64 => 53

def minExp : FloatKind → ℤ
  | float32 => -149
  | float64 => -1074

def maxDigits : FloatKind → ℕ
  | float32 => 9
  | float64 => 17

end FloatKind

/-- `⌊q⌋` or `⌈q⌉`, whichever is nearer, and the even one of them in the middle. -/
def roundEven (q : ℚ) : ℤ :=
  if Int.fract q < 1 / 2 then ⌊q⌋
  else if 1 / 2 < Int.fract q then ⌊q⌋ + 1
  else if ⌊q⌋ % 2 = 0 then ⌊q⌋ else ⌊q⌋ + 1

def FloatKind.nearest (k : FloatKind) (q : ℚ) : ℚ :=
  let e := max (Int.log 2 |q| - k.mantissa + 1) k.minExp
  roundEven (q / 2 ^ e) * 2 ^ e

def decimal (q : ℚ) (n : ℕ) : ℕ × ℤ :=
  let e := Int.log 10 q
  let m := (roundEven (q / 10 ^ (e - n + 1))).toNat
  if m < 10 ^ n then (m, e) else (m / 10, e + 1)

/-- The fewest digits that are read back as the same float. -/
def FloatKind.shortest (k : FloatKind) (q : ℚ) : List Char × ℤ :=
  let n := ((List.range k.maxDigits).find? fun i =>
    k.nearest ((decimal q (i + 1)).1 * 10 ^ ((decimal q (i + 1)).2 - i)) = q).getD k.maxDigits + 1
  let d := decimal q n
  ((Nat.toDigits 10 d.1), d.2)

/-- `%e` with the digits given: `d.ddde±dd`. -/
def printExponent (digits : List Char) (e : ℤ) : List Char :=
  let fraction := if digits.length ≤ 1 then [] else '.' :: digits.drop 1
  let number := Nat.toDigits 10 e.natAbs
  digits.take 1 ++ fraction ++ ['e', if e < 0 then '-' else '+'] ++
    (if number.length < 2 then '0' :: number else number)

/-- `%f` with the digits given. -/
def printPlain (digits : List Char) (e : ℤ) : List Char :=
  if e < 0 then '0' :: '.' :: (List.replicate (e.natAbs - 1) '0' ++ digits)
  else
    let whole := digits.take (e.toNat + 1) ++ List.replicate (e.toNat + 1 - digits.length) '0'
    let fraction := digits.drop (e.toNat + 1)
    if fraction.isEmpty then whole else whole ++ '.' :: fraction

def FloatKind.print (k : FloatKind) (q : ℚ) : List Char :=
  if q = 0 then ['0']
  else
    let d := k.shortest |q|
    let text := if d.2 < -4 ∨ 6 ≤ d.2 then printExponent d.1 d.2 else printPlain d.1 d.2
    if q < 0 then '-' :: text else text

namespace GoValue

inductive Scalar where
  | nil
  | bool (b : Bool)
  | int (i : GoInt)
  | float (k : FloatKind) (q : ℚ)
  | string (s : String)
deriving DecidableEq

namespace Scalar

def toJson : Scalar → Value
  | .nil => .null
  | .bool b => .bool b
  | .int i => .number (.int i.val)
  | .float _ q => .number (.float q)
  | .string s => .string s

def print : Scalar → List Char
  | .nil => "<nil>".toList
  | .bool b => (if b then "true" else "false").toList
  | .int i => (if i.val < 0 then ['-'] else []) ++ Nat.toDigits 10 i.val.natAbs
  | .float k q => k.print q
  | .string s => s.toList

def isEmpty : Scalar → Bool
  | .nil => true
  | .bool b => ! b
  | .int i => i.val = 0
  | .float _ q => q = 0
  | .string s => s = ""

end Scalar

end GoValue

inductive GoValue where
  | scalar (s : GoValue.Scalar)
  | slice (xs : List GoValue)
  | map (m : OrderedMap String GoValue)

variable (m : OrderedMap String GoValue) (v : GoValue) (k : String)

namespace GoValue

@[match_pattern] abbrev nil : GoValue := .scalar .nil
@[match_pattern] abbrev bool (b : Bool) : GoValue := .scalar (.bool b)
@[match_pattern] abbrev string (s : String) : GoValue := .scalar (.string s)

def ofFields (fields : List (String × GoValue)) : GoValue :=
  .map (fields.foldl (fun m field => m.insert field.1 field.2) .empty)

@[elab_as_elim, induction_eliminator]
theorem fieldInduction {motive : GoValue → Prop} (scalar : ∀ s, motive (.scalar s))
    (slice : ∀ xs, (∀ x ∈ xs, motive x) → motive (.slice xs))
    (map : ∀ m : OrderedMap String GoValue, (∀ k w, m.get? k = some w → motive w) → motive (.map m))
    (v : GoValue) : motive v := by
  apply @GoValue.rec motive (fun xs => ∀ x ∈ xs, motive x)
    (fun m => ∀ k w, m.get? k = some w → motive w) scalar slice map
  · intro x hx
    exact absurd hx not_mem_nil
  · intro x xs hx hxs
    exact forall_mem_cons.mpr ⟨hx, hxs⟩
  · intro ks hs f hf k w hw
    obtain ⟨hk, rfl⟩ := (get?_eq_some_iff _ k w).mp hw
    exact hf ⟨k, hk⟩

mutual
def toJson : GoValue → Value
  | .scalar s => s.toJson
  | .slice xs => .array (toJsonList xs)
  | .map ⟨ks, hs, f⟩ => .object ⟨ks, hs, fun k => toJson (f k)⟩
def toJsonList : List GoValue → List Value
  | [] => []
  | x :: xs => toJson x :: toJsonList xs
end

theorem toJson_map : toJson (.map m) = .object (m.map toJson) := by
  obtain ⟨-, -, f⟩ := m
  rw [toJson]
  rfl

theorem toJson_slice (xs : List GoValue) : toJson (.slice xs) = .array (xs.map toJson) := by
  have hlist : ∀ ys : List GoValue, toJsonList ys = ys.map toJson := by
    intro ys
    induction ys with
    | nil => rfl
    | cons y ys ih => rw [toJsonList, map_cons, ih]
  rw [toJson, hlist]

def isMap : GoValue → Bool
  | .map _ => true
  | _ => false

def get? : GoValue → String → Option GoValue
  | .map m, k => m.get? k
  | _, _ => none

def lookup : GoValue → List String → Option GoValue
  | v, [] => some v
  | v, k :: ks => (v.get? k).bind fun w => w.lookup ks

@[simp] theorem isMap_map : (GoValue.map m).isMap = true := rfl

@[simp] theorem get?_map :
    (GoValue.map m).get? k = m.get? k := rfl

theorem lookup_cons (ks : List String) :
    v.lookup (k :: ks) = (v.get? k).bind fun w => w.lookup ks := rfl

theorem isMap_iff : v.isMap = true ↔ ∃ m, v = .map m := by
  cases v <;> simp [isMap]

theorem isObject_toJson : v.toJson.isObject = v.isMap := by
  cases v with
  | scalar s => cases s <;> simp [toJson, Scalar.toJson, Value.isObject, isMap]
  | slice => simp [toJson, Value.isObject, isMap]
  | map => simp [toJson_map, isMap]

theorem get?_toJson : v.toJson.get? k = (v.get? k).map toJson := by
  cases v with
  | map => rw [toJson_map, Value.get?_object, OrderedMap.get?_map, get?]
  | _ => exact Value.get?_of_not_isObject (isObject_toJson _) k

theorem lookup_toJson (q : List String) :
    v.toJson.lookup q = (v.lookup q).map toJson := by
  induction q generalizing v with
  | nil => rfl
  | cons k q ih =>
    rw [Value.lookup_cons, lookup_cons, get?_toJson]
    cases v.get? k with
    | none => rfl
    | some w => exact ih w

mutual
def print : GoValue → List Char
  | .scalar s => s.print
  | .slice xs => '[' :: (printList xs ++ [']'])
  | .map ⟨ks, _, f⟩ =>
    "map[".toList ++
      [' '].intercalate (ks.attach.map fun k => k.1.toList ++ ':' :: print (f k)) ++ [']']
def printList : List GoValue → List Char
  | [] => []
  | [x] => print x
  | x :: y :: xs => print x ++ ' ' :: printList (y :: xs)
end

def asScalar : GoValue → Option Scalar
  | .scalar s => some s
  | _ => none

def equal : GoValue → GoValue → Bool
  | .scalar (.string a), b => decide (b.asScalar = some (.string a))
  | .scalar (.float .float64 a), b => decide (b.asScalar = some (.float .float64 a))
  | .scalar (.bool a), b => decide (b.asScalar = some (.bool a))
  | .scalar .nil, b => decide (b.asScalar = some .nil)
  | .scalar (.int i), b =>
    if i.kind = .int64 ∨ i.kind = .uint64 then decide (b.asScalar = some (.int i))
    else decide (print (.scalar (.int i)) = b.print)
  | a, b => decide (a.print = b.print)

def isEmpty : GoValue → Bool
  | .scalar s => s.isEmpty
  | .slice xs => xs.isEmpty
  | .map m => m.keys.isEmpty

end GoValue

end Sodp
