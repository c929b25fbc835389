import Mathlib.Data.Rat.Floor

/-!
# The conversion `Number(text)` of the client's language

The TypeScript client decides with `Number(segment)` whether a path segment indexes an array.
`stringToNumber` follows the ECMAScript conversion, and the mathematical value is rounded to a
double. Positive and negative zero are one value here, because they name the same array element.
-/

namespace Sodp

inductive JsNumber where
  | nan
  | infinity (negative : Bool)
  | finite (q : ℚ)
deriving DecidableEq

namespace JsNumber

def roundHalfEven (x : ℚ) : ℤ :=
  let below := ⌊x⌋
  let rest := x - below
  if rest < 1 / 2 then below
  else if 1 / 2 < rest then below + 1
  else if below % 2 = 0 then below
  else below + 1

def floorLog2 (q : ℚ) : ℤ :=
  let guess : ℤ := (q.num.natAbs.log2 : ℤ) - (q.den.log2 : ℤ)
  let reached :=
    if 0 ≤ guess then decide (q.den * 2 ^ guess.toNat ≤ q.num.natAbs)
    else decide (q.den ≤ q.num.natAbs * 2 ^ (-guess).toNat)
  if reached then guess else guess - 1

/-- The double nearest to a rational, ties to the even significand. -/
def roundToDouble (q : ℚ) : JsNumber :=
  if q = 0 then .finite 0
  else
    let unit := max (floorLog2 q - 52) (-1074)
    let rounded : ℚ :=
      if 0 ≤ unit then roundHalfEven (q / 2 ^ unit.toNat) * 2 ^ unit.toNat
      else roundHalfEven (q * 2 ^ (-unit).toNat) / 2 ^ (-unit).toNat
    if |rounded| < 2 ^ 1024 then .finite rounded else .infinity (decide (q < 0))

def isWhiteSpace (c : Char) : Bool :=
  [0x09, 0x0A, 0x0B, 0x0C, 0x0D, 0x20, 0xA0, 0x1680, 0x2028, 0x2029, 0x202F, 0x205F, 0x3000,
    0xFEFF].contains c.toNat || (0x2000 ≤ c.toNat && c.toNat ≤ 0x200A)

def trim (cs : List Char) : List Char :=
  ((cs.dropWhile isWhiteSpace).reverse.dropWhile isWhiteSpace).reverse

def digitValue (c : Char) : Option ℕ :=
  if '0' ≤ c ∧ c ≤ '9' then some (c.toNat - 48)
  else if 'a' ≤ c ∧ c ≤ 'f' then some (c.toNat - 87)
  else if 'A' ≤ c ∧ c ≤ 'F' then some (c.toNat - 55)
  else none

def radixDigits (radix : ℕ) : List Char → ℕ → Option ℕ
  | [], v => some v
  | c :: cs, v =>
    match digitValue c with
    | some d => if d < radix then radixDigits radix cs (radix * v + d) else none
    | none => none

def radixLiteral (radix : ℕ) (cs : List Char) : JsNumber :=
  if cs = [] then .nan
  else
    match radixDigits radix cs 0 with
    | some n => roundToDouble n
    | none => .nan

def readDigits : List Char → ℕ → ℕ → ℕ × ℕ × List Char
  | [], v, n => (v, n, [])
  | c :: cs, v, n =>
    if c.isDigit then readDigits cs (10 * v + (c.toNat - 48)) (n + 1) else (v, n, c :: cs)

def splitSign : List Char → Bool × List Char
  | '+' :: cs => (false, cs)
  | '-' :: cs => (true, cs)
  | cs => (false, cs)

def exponentPart : List Char → Option ℤ
  | [] => some 0
  | c :: cs =>
    if c = 'e' ∨ c = 'E' then
      let (negative, ds) := splitSign cs
      match readDigits ds 0 0 with
      | (v, n, []) => if n = 0 then none else some (if negative then -(v : ℤ) else v)
      | _ => none
    else none

def scaleTen (m : ℕ) (e : ℤ) : ℚ :=
  if 0 ≤ e then (m : ℚ) * 10 ^ e.toNat else (m : ℚ) / 10 ^ (-e).toNat

def unsignedDecimal (cs : List Char) : Option ℚ :=
  let (whole, wholeCount, rest) := readDigits cs 0 0
  let (fraction, fractionCount, rest) :=
    match rest with
    | '.' :: ds => readDigits ds 0 0
    | ds => (0, 0, ds)
  if wholeCount + fractionCount = 0 then none
  else (exponentPart rest).map fun e =>
    scaleTen (whole * 10 ^ fractionCount + fraction) (e - fractionCount)

def decimalLiteral (cs : List Char) : JsNumber :=
  let (negative, rest) := splitSign cs
  if rest = "Infinity".toList then .infinity negative
  else
    match unsignedDecimal rest with
    | some q => roundToDouble (if negative then -q else q)
    | none => .nan

def stringToNumber (text : String) : JsNumber :=
  match trim text.toList with
  | [] => .finite 0
  | '0' :: 'x' :: ds | '0' :: 'X' :: ds => radixLiteral 16 ds
  | '0' :: 'o' :: ds | '0' :: 'O' :: ds => radixLiteral 8 ds
  | '0' :: 'b' :: ds | '0' :: 'B' :: ds => radixLiteral 2 ds
  | cs => decimalLiteral cs

example : stringToNumber "9007199254740993" = .finite 9007199254740992 := by decide +kernel

end JsNumber
end Sodp
