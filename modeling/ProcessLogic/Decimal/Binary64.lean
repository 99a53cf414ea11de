/-!
# Binary floating point in exact arithmetic

A positive binary number is a mantissa times a power of two. `nearest` rounds a quotient to 53
bits, a half to the even neighbour; `shortest` finds the fewest decimal digits that round back
to a number, and of those the nearest.
-/

namespace ProcessLogic.Decimal

/-- The number `mantissa * 2 ^ exponent`. The zero has mantissa 0. -/
structure Binary64 where
  mantissa : Nat
  exponent : Int
  deriving DecidableEq

/-- The decimal number `digits * 10 ^ exponent`. -/
structure Digits where
  digits : Nat
  exponent : Int
  deriving DecidableEq

namespace Binary64

/-- The least exponent: smaller numbers have fewer bits. -/
def minExponent : Int := -1074

/-- The greatest exponent of a finite number. -/
def maxExponent : Int := 971

/-- The number `n * b ^ e` as a quotient of natural numbers. -/
def scaled (b n : Nat) (e : Int) : Nat × Nat :=
  if 0 ≤ e then (n * b.pow e.toNat, 1) else (n, b.pow (-e).toNat)

/-- A quotient rounded to the nearest natural number, a half to the even one. -/
def roundDiv (num den : Nat) : Nat :=
  let q := num / den
  let twice := 2 * (num % den)
  if twice < den || (twice == den && q % 2 == 0) then q else q + 1

/-- The number nearest to `num / den`, or nothing if it would be too large. -/
def nearest (num den : Nat) : Option Binary64 :=
  if num = 0 then some ⟨0, 0⟩
  else
    let guess : Int := (Nat.log2 num : Int) - (Nat.log2 den : Int) - 52
    let fits (e : Int) : Bool :=
      let (n, d) := scaled 2 num (-e)
      decide (n < Nat.pow 2 53 * (d * den))
    let e := max minExponent (if fits (guess - 1) then guess - 1 else guess)
    let (n, d) := scaled 2 num (-e)
    let m := roundDiv n (d * den)
    let (m, e) := if m = Nat.pow 2 53 then (Nat.pow 2 52, e + 1) else (m, e)
    if maxExponent < e then none else some ⟨m, e⟩

/-- Whether `digits * 10 ^ k` rounds to the number: twice its distance is at most one unit in
the last place, which counts half below a power of two. -/
def covers (x : Binary64) (digits : Nat) (k : Int) : Bool :=
  let unit := fun (n : Nat) => scaled 2 n (x.exponent - 2)
  let lowGap := if x.mantissa = Nat.pow 2 52 && minExponent < x.exponent then 1 else 2
  let (low, lowDen) := unit (4 * x.mantissa - lowGap)
  let (high, highDen) := unit (4 * x.mantissa + 2)
  let (v, vDen) := scaled 10 digits k
  if x.mantissa % 2 = 0 then
    decide (low * vDen ≤ v * lowDen) && decide (v * highDen ≤ high * vDen)
  else decide (low * vDen < v * lowDen) && decide (v * highDen < high * vDen)

/-- The decimal number with last place `10 ^ k` that is nearest to the number, if it rounds
back. -/
def onGrid (x : Binary64) (k : Int) : Option Digits :=
  let (n, d) := scaled 2 x.mantissa x.exponent
  let (p, q) := scaled 10 1 (-k)
  let below := n * p / (d * q)
  let nearer := roundDiv (n * p) (d * q)
  let other := if nearer = below then below + 1 else below
  if x.covers nearer k then some ⟨nearer, k⟩
  else if x.covers other k then some ⟨other, k⟩
  else none

/-- The place of the leading decimal digit. -/
def magnitude (x : Binary64) : Int :=
  let (n, d) := scaled 2 x.mantissa x.exponent
  let guess : Int := (((Nat.log2 n : Int) - (Nat.log2 d : Int)) * 30103) / 100000
  let atLeast (k : Int) : Bool :=
    let (p, q) := scaled 10 1 k
    decide (p * d ≤ n * q)
  if atLeast (guess + 1) then guess + 1 else if atLeast guess then guess else guess - 1

/-- The fewest digits that round back to the number. Seventeen always do. -/
def shortest (x : Binary64) : Digits :=
  if x.mantissa = 0 then ⟨0, 0⟩
  else
    let top := x.magnitude
    ((List.range 17).findSome? fun (n : Nat) => x.onGrid (top - (n : Int))).getD ⟨0, 0⟩

end Binary64

/-- The digits in positional notation, with at least one digit on each side of the point. -/
def Digits.positional (d : Digits) : String :=
  if 0 ≤ d.exponent then toString (d.digits * Nat.pow 10 d.exponent.toNat) ++ ".0"
  else
    let places := (-d.exponent).toNat
    let unit := Nat.pow 10 places
    let fraction := toString (d.digits % unit)
    let zeros := String.ofList (List.replicate (places - fraction.length) '0')
    toString (d.digits / unit) ++ "." ++ zeros ++ fraction

end ProcessLogic.Decimal
