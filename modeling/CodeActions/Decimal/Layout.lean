import CodeActions.Decimal.Shortest
/-!
# Layouts of decimal numbers

A layout says which numbers are written without an exponent. The rest is the same everywhere:
positional numbers always have a fraction, and an exponent always has a sign.
-/
namespace CodeActions.Decimal

/-- Chooses the positional form by the exponent of the leading digit. -/
structure Layout where
  isPositional : Int → Bool

/-- JSON texts leave the exponent out from `0.00001` to just below `10^16`. -/
def Layout.json : Layout := ⟨fun e => -5 ≤ e && e < 16⟩

/-- Messages about other documents never use an exponent. -/
def Layout.plain : Layout := ⟨fun _ => true⟩

def zeros (n : Nat) : List Char := List.replicate n '0'

def positional (digits : List Char) (exponent : Int) : List Char :=
  if exponent ≥ 0 then digits ++ zeros exponent.toNat ++ ['.', '0']
  else
    let places := (-exponent).toNat
    if digits.length ≤ places then ['0', '.'] ++ zeros (places - digits.length) ++ digits
    else digits.take (digits.length - places) ++ '.' :: digits.drop (digits.length - places)

def scientific (digits : List Char) (leading : Int) : List Char :=
  let tail := digits.drop 1
  digits.take 1 ++ (if tail.isEmpty then [] else '.' :: tail)
    ++ ['e', if leading < 0 then '-' else '+'] ++ Nat.toDigits 10 leading.natAbs

def Layout.numeral (l : Layout) (d : Numeral) : List Char :=
  let digits := Nat.toDigits 10 d.digits
  let leading := d.exponent + digits.length - 1
  if l.isPositional leading then positional digits d.exponent else scientific digits leading

def Layout.float (l : Layout) (f : Float) : List Char :=
  let sign (negative : Bool) : List Char := if negative then ['-'] else []
  match Parts.ofFloat f with
  | .nan => "NaN".toList
  | .infinite negative => sign negative ++ "inf".toList
  | .zero negative => sign negative ++ "0.0".toList
  | .finite negative b => sign negative ++ l.numeral b.shortest

end CodeActions.Decimal
