import CodeActions.Json.Fault
import CodeActions.Json.Value
import CodeActions.Text.Digits
/-!
# Number literals

The digits of a literal are kept apart from its value. Integer literals of 64 bits stay integers
(`-0` is a double); every other literal is a double made from the leading digits that fit 64 bits
and one power of ten, multiplied or divided in double arithmetic.
-/
namespace CodeActions.Json
open CodeActions.Text

structure Literal where
  negative : Bool
  whole : List Nat
  fraction : Option (List Nat)
  exponent : Option (Bool × List Nat)

def digits : List Char → List Nat
  | [] => []
  | c :: cs => match digit? c with
    | some d => d :: digits cs
    | none => []

namespace Literal

/-- How a literal breaks off; at the end of the text a reader and a skipper say different things. -/
inductive Break where
  | atEnd (offset : Nat)
  | invalid (offset : Nat)

/-- The exponent part after its mark, from the offset of its first character. -/
def scanExponent (o : Nat) (cs : List Char) : Except Break (Bool × List Nat × Nat) :=
  let (down, width, rest) := match cs with
    | '+' :: r => (false, 1, r)
    | '-' :: r => (true, 1, r)
    | r => (false, 0, r)
  match rest, digits rest with
  | [], _ => .error (.atEnd (o + width))
  | _ :: _, [] => .error (.invalid (o + width + 1))
  | _ :: _, ds => .ok (down, ds, width + ds.length)

def scanExponentPart (o : Nat) : List Char → Except Break (Option (Bool × List Nat) × Nat)
  | c :: cs =>
      if c = 'e' ∨ c = 'E' then do
        let (down, ds, width) ← scanExponent (o + 1) cs
        return (some (down, ds), width + 1)
      else return (none, 0)
  | [] => return (none, 0)

def scanFractionPart (o : Nat) : List Char → Except Break (Option (List Nat) × Nat)
  | '.' :: cs => match cs, digits cs with
    | [], _ => .error (.atEnd (o + 1))
    | _ :: _, [] => .error (.invalid (o + 2))
    | _ :: _, ds => .ok (some ds, ds.length + 1)
  | _ => .ok (none, 0)

/-- Reads the literal at offset `o`, and counts its characters, all of which are single bytes. -/
def scan (o : Nat) (cs : List Char) : Except Break (Literal × Nat) := do
  let (negative, sign, cs) := match cs with
    | '-' :: r => (true, 1, r)
    | r => (false, 0, r)
  let o := o + sign
  let whole := digits cs
  match cs, whole with
  | [], _ => .error (.atEnd o)
  | _ :: _, [] => .error (.invalid (o + 1))
  | _ :: _, 0 :: _ :: _ => .error (.invalid (o + 2))
  | _ :: _, whole =>
      let w := whole.length
      let (fraction, f) ← scanFractionPart (o + w) (cs.drop w)
      let (exponent, e) ← scanExponentPart (o + w + f) (cs.drop (w + f))
      return (⟨negative, whole, fraction, exponent⟩, sign + w + f + e)

def maxWord : Nat := Nat.pow 2 64 - 1
def maxExponent : Nat := Nat.pow 2 31 - 1

/-- The number made by the leading digits that keep it within `limit`, continuing `n`, and the
digits left over. -/
def leading (limit n : Nat) : List Nat → Nat × List Nat
  | [] => (n, [])
  | d :: ds => if n * 10 + d ≤ limit then leading limit (n * 10 + d) ds else (n, d :: ds)

/-- `f · 10^e`, in steps that stay within the powers of ten a double holds; `none` beyond the
largest double. -/
def scale (f : Float) (e : Int) : Option Float :=
  let rec go (f : Float) (e : Int) : Nat → Option Float
    | 0 => some f
    | steps + 1 =>
        if e.natAbs ≤ 308 then
          if e ≥ 0 then
            let g := f * Float.ofScientific 1 false e.toNat
            if g.isInf then none else some g
          else some (f / Float.ofScientific 1 false e.natAbs)
        else if f == 0.0 then some f
        else if e ≥ 0 then none
        else go (f / 1e308) (e + 308) steps
  go f e (e.natAbs / 308 + 2)

def signed (negative : Bool) (f : Float) : Float := if negative then -f else f

/-- The number of a literal, or the number of exponent digits after which it is out of range
(`none` if that takes the whole literal). -/
def value (l : Literal) : Except (Option Nat) Number :=
  let (n, spare) := leading maxWord 0 l.whole
  match l.fraction, l.exponent, spare with
  | none, none, [] =>
      if l.negative then
        if n = 0 ∨ n > Nat.pow 2 63 then .ok (.float (-(UInt64.ofNat n).toFloat)) else .ok (.int (-n))
      else .ok (.int n)
  | _, _, _ =>
      let (n, places) := match l.fraction with
        | none => (n, 0)
        | some ds => let (n, left) := leading maxWord n ds; (n, ds.length - left.length)
      let start : Int := spare.length - places
      let f := (UInt64.ofNat n).toFloat
      let finish (e : Int) : Except (Option Nat) Number := match scale f e with
        | some g => .ok (.float (signed l.negative g))
        | none => .error none
      match l.exponent with
      | none => finish start
      | some (down, ds) =>
          match leading maxExponent 0 ds with
          | (e, []) => finish (if down then start - e else start + e)
          | (_, left) =>
              if n = 0 ∨ down then .ok (.float (signed l.negative 0.0))
              else .error (some (ds.length - left.length + 1))

end Literal
end CodeActions.Json
