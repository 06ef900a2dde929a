import CodeActions.Yaml.Node
/-!
# What scalars mean

A plain scalar stands for nothing, a boolean, an integer or a double if it is written like one, and
else for its text. The standard tags insist on a meaning, for every style of scalar.
-/
namespace CodeActions.Yaml
open CodeActions.Text

def isNull (s : String) : Bool := s = "null" || s = "Null" || s = "NULL" || s = "~"

def bool? (s : String) : Option Bool :=
  if s = "true" ∨ s = "True" ∨ s = "TRUE" then some true
  else if s = "false" ∨ s = "False" ∨ s = "FALSE" then some false
  else none

/-- Several digits of which the first is a zero, perhaps with a sign: a text, not a number. -/
def isPadded (cs : List Char) : Bool :=
  let unsigned := match cs with
    | '+' :: r | '-' :: r => r
    | r => r
  match unsigned with
  | '0' :: d :: r => (d :: r).all Char.isDigit
  | _ => false

/-- A number after a mark of its base, if it has one. -/
def based? : List Char → Option Nat
  | '0' :: 'x' :: r => number? 16 r
  | '0' :: 'o' :: r => number? 8 r
  | '0' :: 'b' :: r => number? 2 r
  | _ => none

def nat? (cs : List Char) : Option Nat :=
  let digits := match cs with
    | '+' :: r => r
    | r => r
  (based? digits).or (if isPadded cs then none else number? 10 digits)

/-- An integer: the absolute value, and whether it has a minus sign. -/
def int? : List Char → Option (Nat × Bool)
  | '-' :: r => ((based? r).or (if isPadded r then none else number? 10 r)).map (·, true)
  | cs => (nat? cs).map (·, false)

/-- An integer as far as it fits 64 or else 128 bits. -/
def intFound? (cs : List Char) : Option Found :=
  match int? cs with
  | some (n, false) =>
      if n < Nat.pow 2 64 then some (.int n) else if n < Nat.pow 2 128 then some (.wide n) else none
  | some (n, true) =>
      if n ≤ Nat.pow 2 63 then some (.int (-n)) else if n ≤ Nat.pow 2 127 then some (.wide (-n)) else none
  | none => none

/-- The digits in front of and behind the point and the exponent of a decimal number. -/
def decimalParts? (cs : List Char) : Option (List Char × List Char × Int) :=
  let whole := cs.takeWhile Char.isDigit
  let cs := cs.drop whole.length
  let (fraction, cs) := match cs with
    | '.' :: r => (r.takeWhile Char.isDigit, r.dropWhile Char.isDigit)
    | r => ([], r)
  if whole.isEmpty && fraction.isEmpty then none
  else match cs with
    | [] => some (whole, fraction, 0)
    | e :: r =>
        if e = 'e' ∨ e = 'E' then
          match r with
          | '-' :: ds => (number? 10 ds).map fun n => (whole, fraction, -n)
          | '+' :: ds => (number? 10 ds).map fun n => (whole, fraction, n)
          | ds => (number? 10 ds).map fun n => (whole, fraction, n)
        else none

def nearest (n : Nat) (e : Int) : Float :=
  let size : Int := (Nat.toDigits 10 n).length
  if n = 0 ∨ e + size < -400 then 0.0
  else if e + size > 400 then 1e308 * 10.0
  else if e ≥ 0 then Float.ofScientific n false e.toNat
  else Float.ofScientific n true e.natAbs

/-- A finite double in decimal notation without a plus sign. -/
def finite? (cs : List Char) : Option Float := do
  let (negative, digits) := match cs with
    | '-' :: r => (true, r)
    | r => (false, r)
  let (whole, fraction, e) ← decimalParts? digits
  let n ← number? 10 (whole ++ fraction)
  let f := nearest n (e - fraction.length)
  if f.isInf then none else some (if negative then -f else f)

def infinity : Float := 1.0 / 0.0

def float? (cs : List Char) : Option Float :=
  let unsigned := match cs with
    | '+' :: r => r
    | r => r
  let isInfinity (s : String) : Bool := s = ".inf" || s = ".Inf" || s = ".INF"
  let s := String.ofList unsigned
  if isInfinity s then some infinity
  else match cs with
    | '+' :: '+' :: _ | '+' :: '-' :: _ => none
    | '-' :: r => if isInfinity (String.ofList r) then some (-infinity) else finite? cs
    | cs =>
        let t := String.ofList cs
        if t = ".nan" ∨ t = ".NaN" ∨ t = ".NAN" then some (0.0 / 0.0) else finite? unsigned

def resolvePlain (s : String) : Found :=
  let cs := s.toList
  if s.isEmpty || isNull s then .null
  else match bool? s with
    | some b => .bool b
    | none => match intFound? cs with
      | some found => found
      | none =>
          if isPadded cs then .text s
          else match float? cs with
            | some f => .float f
            | none => .text s

def standardTag (name : String) : String := "tag:yaml.org,2002:" ++ name

def resolve (tag : Option String) (style : Style) (s : String) : Except Mismatch Found :=
  let insist (found : Option Found) (expected : String) : Except Mismatch Found :=
    match found with
    | some f => .ok f
    | none => .error (.wrongValue (.text s) expected)
  match tag with
  | none => .ok (if style = .plain then resolvePlain s else .text s)
  | some tag =>
      if tag = standardTag "bool" then insist ((bool? s).map .bool) "a boolean"
      else if tag = standardTag "int" then insist (intFound? s.toList) "an integer"
      else if tag = standardTag "float" then insist ((float? s.toList).map .float) "a float"
      else if tag = standardTag "null" then insist (if isNull s then some .null else none) "null"
      else .ok (if tag.startsWith "!" && style = .plain then resolvePlain s else .text s)

end CodeActions.Yaml
