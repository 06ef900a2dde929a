/-!
# Shortest decimals

A finite double is `m · 2^q`, and the reals that round to it form an interval around it, with its
ends in the interval exactly when `m` is even. `shortest` walks through ever finer decimal grids
and stops at the first one with a point of the interval among the two neighbours of the double; of
two such points it takes the nearer.
-/
namespace CodeActions.Decimal

structure Numeral where
  digits : Nat
  exponent : Int
deriving DecidableEq, Repr

structure Ratio where
  num : Nat
  den : Nat

namespace Ratio

def le (a b : Ratio) : Bool := a.num * b.den ≤ b.num * a.den
def lt (a b : Ratio) : Bool := a.num * b.den < b.num * a.den

def scale (a : Ratio) (e : Int) : Ratio :=
  if e ≥ 0 then ⟨a.num * Nat.pow 10 e.toNat, a.den⟩ else ⟨a.num, a.den * Nat.pow 10 (-e).toNat⟩

def leadingExponent (a : Ratio) : Int :=
  let guess : Int := (Nat.toDigits 10 a.num).length - (Nat.toDigits 10 a.den).length
  if (Ratio.scale ⟨1, 1⟩ guess).le a then guess else guess - 1

end Ratio

/-- A double as it is stored: the value is `mantissa · 2^exponent`, and `isLowest` says that the
next double below is only half a step away. -/
structure Binary where
  mantissa : Nat
  exponent : Int
  isLowest : Bool

namespace Binary

/-- `quarters / 4` times the step between neighbouring doubles. -/
def ofQuarters (b : Binary) (quarters : Nat) : Ratio :=
  if b.exponent ≥ 0 then ⟨quarters * Nat.pow 2 b.exponent.toNat, 4⟩
  else ⟨quarters, 4 * Nat.pow 2 (-b.exponent).toNat⟩

def value (b : Binary) : Ratio := b.ofQuarters (4 * b.mantissa)
def lowerEnd (b : Binary) : Ratio := b.ofQuarters (4 * b.mantissa - if b.isLowest then 1 else 2)
def upperEnd (b : Binary) : Ratio := b.ofQuarters (4 * b.mantissa + 2)

def admits (b : Binary) (d : Numeral) : Bool :=
  let r := Ratio.scale ⟨d.digits, 1⟩ d.exponent
  if b.mantissa % 2 = 0 then b.lowerEnd.le r && r.le b.upperEnd
  else b.lowerEnd.lt r && r.lt b.upperEnd

/-- The admitted neighbour of the double on the grid of multiples of `10^e`, if there is one. -/
def onGrid (b : Binary) (e : Int) : Option Numeral :=
  let v := b.value.scale (-e)
  let below : Numeral := ⟨v.num / v.den, e⟩
  let above : Numeral := ⟨v.num / v.den + 1, e⟩
  match b.admits below, b.admits above with
  | true, true => if 2 * (v.num % v.den) ≤ v.den then some below else some above
  | true, false => some below
  | false, true => some above
  | false, false => none

/-- The first hit on `count` grids, each ten times finer than the one before. -/
def firstHit (b : Binary) (e : Int) : Nat → Numeral
  | 0 => (b.onGrid e).getD ⟨0, 0⟩
  | count + 1 => match b.onGrid e with
    | some d => d
    | none => firstHit b (e - 1) count

/-- The coarsest grid is one step above the leading digit, where only the next power of ten can be
a hit. -/
def shortest (b : Binary) : Numeral := b.firstHit (b.value.leadingExponent + 1) 18

end Binary

inductive Parts where
  | nan
  | infinite (negative : Bool)
  | zero (negative : Bool)
  | finite (negative : Bool) (magnitude : Binary)

def Parts.ofFloat (f : Float) : Parts :=
  let bits := f.toBits.toNat
  let negative := bits / Nat.pow 2 63 = 1
  let stored : Nat := bits / Nat.pow 2 52 % Nat.pow 2 11
  let fraction := bits % Nat.pow 2 52
  if stored = 2047 then if fraction = 0 then .infinite negative else .nan
  else if stored = 0 then
    if fraction = 0 then .zero negative else .finite negative ⟨fraction, -1074, false⟩
  else .finite negative ⟨Nat.pow 2 52 + fraction, (stored : Int) - 1075, fraction = 0 && stored > 1⟩

end CodeActions.Decimal
