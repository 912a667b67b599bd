import MyWorkflow.Decimals
import MyWorkflow.JsonNumbers

set_option autoImplicit false

/-!
# The value of a JSON number

A `long long` or an `int` that would leave its range, and an index outside `__power_of_10`, leave
what C defines. The `double` is left as the operations that make it.
-/
namespace MyWorkflow.Json
open CString Recognizer Decimals

def toLongLong (n : ℤ) : Option ℤ :=
  if -9223372036854775808 ≤ n ∧ n ≤ 9223372036854775807 then some n else none

def toInt (n : ℤ) : Option ℤ := if -2147483648 ≤ n ∧ n ≤ 2147483647 then some n else none

def digit (c : UInt8) : ℕ := c.toNat - 48

def intExponentFrom : ℤ → Bytes → Option (ℤ × Bytes)
  | exp, [] => some (exp, [])
  | exp, c :: cursor =>
    if isdigit c && exp < 2000000 then do
      let exp ← toInt (exp * 10)
      let exp ← toInt (exp + digit c)
      intExponentFrom exp cursor
    else some (exp, c :: cursor)

def unsigned (t : Bytes) : Bytes := if t.head? = some 45 then t.tail else t

structure Decimal where
  mant : ℤ
  exp : ℤ
  figures : ℤ
deriving DecidableEq, Repr

namespace Decimal

def push (d : ℕ) (x : Decimal) : Option Decimal := do
  let mant ← toLongLong (x.mant * 10)
  let mant ← toLongLong (mant + d)
  let figures ← toInt (x.figures + 1)
  return { x with mant, figures }

def addExp (n : ℤ) (x : Decimal) : Option Decimal := do
  let exp ← toInt (x.exp + n)
  return { x with exp }

/-- `while (isdigit(*cursor) && figures < 18)`, over the integer or over the fraction, where each
    digit takes one from the exponent. -/
def takeDigits (fraction : Bool) : Bytes → Decimal → Option (Bytes × Decimal)
  | [], x => some ([], x)
  | c :: cursor, x =>
    if isdigit c ∧ x.figures < 18 then do
      let x ← x.push (digit c)
      let x ← if fraction then x.addExp (-1) else some x
      takeDigits fraction cursor x
    else some (c :: cursor, x)

def skipDigits : Bytes → Decimal → Option Decimal
  | [], x => some x
  | c :: cursor, x =>
    if isdigit c then do
      let x ← x.addExp 1
      skipDigits cursor x
    else some x

def skipZeros : Bytes → Decimal → Option (Bytes × Decimal)
  | [], x => some ([], x)
  | c :: cursor, x =>
    if c = 48 then do
      let x ← x.addExp (-1)
      skipZeros cursor x
    else some (c :: cursor, x)

def scanInteger (integer fraction : Bytes) (x : Decimal) : Option (Bytes × Decimal) :=
  match integer with
  | [] => none
  | d :: integer =>
    if d ≠ 48 then do
      let (rest, x) ← takeDigits false integer { x with mant := digit d, figures := x.figures + 1 }
      let x ← skipDigits rest x
      return (fraction, x)
    else skipZeros fraction x

/-- `while (exp > 0 && figures < 18)`; 18 rounds are enough. -/
def raise : ℕ → Decimal → Option Decimal
  | 0, x => some x
  | rounds + 1, x =>
    if 0 < x.exp ∧ x.figures < 18 then do
      let mant ← toLongLong (x.mant * 10)
      let exp ← toInt (x.exp - 1)
      let figures ← toInt (x.figures + 1)
      raise rounds ⟨mant, exp, figures⟩
    else some x

/-- `while (exp < 0 && mant % 10 == 0)`; the exponent bounds the rounds. -/
def reduce : ℕ → Decimal → Option Decimal
  | 0, x => some x
  | rounds + 1, x =>
    if x.exp < 0 ∧ x.mant.tmod 10 = 0 then do
      let exp ← toInt (x.exp + 1)
      let figures ← toInt (x.figures - 1)
      reduce rounds ⟨x.mant.tdiv 10, exp, figures⟩
    else some x

def normalize (x : Decimal) : Option Decimal :=
  if x.exp ≠ 0 ∧ x.figures ≠ 0 then do
    let x ← raise 18 x
    reduce x.exp.natAbs x
  else some x

end Decimal

def decimalOf (n : JsonNumber) : Option Decimal := do
  let (fraction, x) ← Decimal.scanInteger (unsigned n.integer) n.fraction ⟨0, n.exp, 0⟩
  let (_, x) ← Decimal.takeDigits true fraction x
  x.normalize

/-- How the `double` is made from `mant`; the indices are those of `__power_of_10`. -/
inductive Scaling where
  | plain
  | infinity
  | times (index : Fin 309)
  | over (index : Fin 309)
  | overTwice (index last : Fin 309)
  | zero
deriving DecidableEq, Repr

def powerIndex (i : ℤ) : Option (Fin 309) :=
  if h : 0 ≤ i ∧ i < 309 then some ⟨i.toNat, by omega⟩ else none

def scaling (x : Decimal) : Option Scaling :=
  if x.exp ≠ 0 ∧ x.figures ≠ 0 then
    if x.exp > 291 then some .infinity
    else if x.exp > 0 then (powerIndex x.exp).map .times
    else if x.exp > -309 then (powerIndex (-x.exp)).map .over
    else if x.exp > -324 - x.figures then do
      return .overTwice (← powerIndex (-x.exp - 308)) (← powerIndex 308)
    else some .zero
  else some .plain

def evaluateJsonNumber (n : JsonNumber) : Option (Bool × ℤ × Scaling) := do
  let x ← decimalOf n
  let num ← scaling x
  return (n.integer.head? = some 45, x.mant, num)

example : evaluateJsonNumber ⟨bytes "-120", bytes "50", 0⟩ =
    some (true, 1205, .over ⟨1, by decide⟩) := by decide

end MyWorkflow.Json
