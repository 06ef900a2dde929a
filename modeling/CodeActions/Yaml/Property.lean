import CodeActions.Yaml.Folding
/-!
# Anchors, tags, directives and block scalar headers

Each scanner starts after the character that introduces its token.
-/
namespace CodeActions.Yaml
open CodeActions.Text

/-- The characters in front of which `p` fails, and the rest. -/
def spanWhile (p : Char → Bool) : List Spot → List Char × List Spot
  | [] => ([], [])
  | s :: r => if p s.char then let (cs, rest) := spanWhile p r; (s.char :: cs, rest) else ([], s :: r)

def dropBlanks (cs : List Spot) : List Spot := (spanWhile isBlank cs).2

/-- The rest of a line that has only blanks and a comment; the break is taken, too. -/
def restOfLine (cs : List Spot) : Option (List Spot) :=
  let cs := dropBlanks cs
  let cs := match cs with
    | s :: r => if s.char = '#' then (spanWhile (fun c => !isBreak c) r).2 else s :: r
    | [] => []
  match cs with
  | [] => some []
  | s :: r => if isBreak s.char then some r else none

def scanName (cs : List Spot) : Option (String × List Spot) :=
  let (name, rest) := spanWhile isNameChar cs
  let ends := atGap rest || match rest with
    | [] => true
    | s :: _ => s.char = '?' || s.char = ':' || s.char = ',' || s.char = ']' || s.char = '\x7d'
        || s.char = '%' || s.char = '@' || s.char = '`'
  if name.isEmpty || !ends then none else some (String.ofList name, rest)

/-- The bytes of percent escapes: the number of bytes a character takes and its leading bits. -/
def leadByte? (n : Nat) : Option (Nat × Nat) :=
  if n < 0x80 then some (1, n)
  else if 0xC0 ≤ n ∧ n < 0xE0 then some (2, n - 0xC0)
  else if 0xE0 ≤ n ∧ n < 0xF0 then some (3, n - 0xE0)
  else if 0xF0 ≤ n ∧ n < 0xF8 then some (4, n - 0xF0)
  else none

def percentByte? : List Spot → Option Nat
  | p :: a :: b :: _ =>
      if p.char = '%' then do return (← hexDigit? a.char) * 16 + (← hexDigit? b.char) else none
  | _ => none

/-- The continuation bytes of a character with leading bits `n`. -/
def trailBytes? (n : Nat) (cs : List Spot) : Nat → Option Nat
  | 0 => some n
  | count + 1 => do
      let b ← percentByte? cs
      if 0x80 ≤ b ∧ b < 0xC0 then trailBytes? (n * 64 + (b - 0x80)) (cs.drop 3) count else none

/-- A percent-encoded character, and the number of places it takes. -/
def percentChar? (cs : List Spot) : Option (Char × Nat) := do
  let (width, bits) ← leadByte? (← percentByte? cs)
  let n ← trailBytes? bits (cs.drop 3) (width - 1)
  return (Char.ofNat n, 3 * width)

def isUriChar (c : Char) : Bool :=
  isNameChar c || c = ';' || c = '/' || c = '?' || c = ':' || c = '@' || c = '&' || c = '='
    || c = '+' || c = '$' || c = '.' || c = '%' || c = '!' || c = '~' || c = '*' || c = '\''
    || c = '(' || c = ')'

/-- The characters of a tag after `skip` places; flow indicators only where `wide`. -/
def scanUri (wide : Bool) (skip : Nat) : List Spot → Option (List Char × List Spot)
  | [] => some ([], [])
  | s :: r => match skip with
    | skip + 1 => scanUri wide skip r
    | 0 =>
        if s.char = '%' then do
          let (c, width) ← percentChar? (s :: r)
          let (cs, rest) ← scanUri wide (width - 1) r
          return (c :: cs, rest)
        else if isUriChar s.char || (wide && (s.char = ',' || s.char = '[' || s.char = ']')) then do
          let (cs, rest) ← scanUri wide 0 r
          return (s.char :: cs, rest)
        else some ([], s :: r)

/-- The name characters and the exclamation mark, if there is one, of a tag handle. -/
def handleTail (cs : List Spot) : List Char × Bool × List Spot :=
  let (name, rest) := spanWhile isNameChar cs
  match rest with
  | s :: r => if s.char = '!' then (name, true, r) else (name, false, s :: r)
  | [] => (name, false, [])

def endsTag (inFlow : Bool) (cs : List Spot) : Bool :=
  atGap cs || match cs with
    | s :: _ => inFlow && s.char = ','
    | [] => true

/-- A tag after its exclamation mark, as a handle and a suffix. -/
def scanTag (inFlow : Bool) (cs : List Spot) : Option (String × String × List Spot) := do
  let (handle, suffix, rest) ← match cs with
    | ⟨'<', _⟩ :: r => do
        let (uri, rest) ← scanUri true 0 r
        match uri, rest with
        | _ :: _, ⟨'>', _⟩ :: rest => some ("", String.ofList uri, rest)
        | _, _ => none
    | _ => match handleTail cs with
      | (name, true, r) => do
          let (uri, rest) ← scanUri false 0 r
          if uri.isEmpty then none
          else some (String.ofList ('!' :: name ++ ['!']), String.ofList uri, rest)
      | (name, false, r) => do
          let (uri, rest) ← scanUri false 0 r
          match name ++ uri with
          | [] => some ("", "!", rest)
          | suffix => some ("!", String.ofList suffix, rest)
  if endsTag inFlow rest then some (handle, suffix, rest) else none

def scanVersionNumber (cs : List Spot) : Option (Nat × List Spot) :=
  let (digits, rest) := spanWhile Char.isDigit cs
  if digits.length > 9 then none else (number? 10 digits).map (·, rest)

def scanVersion (cs : List Spot) : Option (Sign × List Spot) := do
  let (major, rest) ← scanVersionNumber (dropBlanks cs)
  match rest with
  | ⟨'.', _⟩ :: r =>
      let (minor, rest) ← scanVersionNumber r
      return (.version major minor, rest)
  | _ => none

def scanHandle (cs : List Spot) : Option (Sign × List Spot) := do
  match dropBlanks cs with
  | ⟨'!', _⟩ :: r =>
      let (name, closed, rest) := handleTail r
      if !closed && !name.isEmpty then none
      match rest with
      | s :: r =>
          if !isBlank s.char then none
          let (uri, rest) ← scanUri true 0 (dropBlanks r)
          if uri.isEmpty || !atGap rest then none
          let mark := if closed then ['!'] else []
          return (.handle (String.ofList ('!' :: name ++ mark)) (String.ofList uri), rest)
      | [] => none
  | _ => none

def scanDirective (cs : List Spot) : Option (Sign × List Spot) := do
  let (name, rest) := spanWhile isNameChar cs
  if !atGap rest then none
  let (sign, rest) ←
    if name = "YAML".toList then scanVersion rest
    else if name = "TAG".toList then scanHandle rest
    else none
  return (sign, ← restOfLine rest)

def scanChomping : List Spot → Option Chomping × List Spot
  | s :: r =>
      if s.char = '+' then (some .keep, r) else if s.char = '-' then (some .strip, r)
      else (none, s :: r)
  | [] => (none, [])

/-- The indentation a header asks for beyond that of its parent. -/
def scanIncrement : List Spot → Option (Option Nat × List Spot)
  | s :: r =>
      if s.char = '0' then none
      else if s.char.isDigit then some (some (s.char.toNat - '0'.toNat), r)
      else some (none, s :: r)
  | [] => some (none, [])

/-- A block scalar after its indicator, inside a collection of indentation `parent`, if any. -/
def scanBlockScalar (isFolded : Bool) (parent : Option Nat) (cs : List Spot) : Option Scanned := do
  let (before, cs) := scanChomping cs
  let (increment, cs) ← scanIncrement cs
  let (chomping, cs) := match before with
    | some c => (c, cs)
    | none => match increment with
      | none => (.clip, cs)
      | some _ => let (after, cs) := scanChomping cs; (after.getD .clip, cs)
  let cs ← restOfLine cs
  let least := match parent with
    | none => 1
    | some n => n + 1
  let indent := increment.map fun n => match parent with
    | none => n
    | some p => p + n
  scanBlock isFolded chomping least indent 0 false {} cs

end CodeActions.Yaml
