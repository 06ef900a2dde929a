import CodeActions.Text.Digits
import CodeActions.Yaml.Token
/-!
# Scalars that span lines

Plain and quoted scalars fold what stands between two words: blanks on one line are kept, a single
line feed becomes a space, and further breaks are kept. Block scalars go by lines of a common
indentation. Each scanner returns the text and the rest, or nothing where the scalar is broken.
-/
namespace CodeActions.Yaml
open CodeActions.Text

/-- What stands between two words of a scalar: blanks if there is no break, else the breaks.
`escaped` says that it starts with a break that a backslash takes away. -/
structure Gap where
  blanks : List Char := []
  breaks : List Char := []
  escaped : Bool := false
deriving DecidableEq, Repr

namespace Gap

def isEmpty (g : Gap) : Bool := g.blanks.isEmpty && g.breaks.isEmpty && !g.escaped

def isBroken (g : Gap) : Bool := !g.breaks.isEmpty || g.escaped

def addBlank (g : Gap) (c : Char) : Gap := if g.isBroken then g else { g with blanks := g.blanks ++ [c] }
def addBreak (g : Gap) (c : Char) : Gap := { g with blanks := [], breaks := g.breaks ++ [c] }

def fold (g : Gap) : List Char :=
  if g.escaped then g.breaks
  else match g.breaks with
    | [] => g.blanks
    | ['\n'] => [' ']
    | '\n' :: more => more
    | breaks => breaks

end Gap

/-- The characters of a scalar from some place on, and what follows it. -/
structure Scanned where
  text : List Char
  rest : List Spot

def Scanned.after (cs : List Char) (s : Scanned) : Scanned := { s with text := cs ++ s.text }

/-- Whether a plain scalar ends before the first of these places, which is no blank or break. -/
def endsPlain (inFlow : Bool) : List Spot → Bool
  | [] => true
  | s :: r =>
      (s.char = ':' && atGap r)
        || (inFlow && (s.char = ',' || s.char = '[' || s.char = ']' || s.char = '\x7b'
          || s.char = '\x7d'))

/-- In a flow collection a colon inside a plain scalar may not stand before an indicator. -/
def badColon (inFlow : Bool) : List Spot → Bool
  | c :: n :: _ =>
      inFlow && c.char = ':' && (n.char = ',' || n.char = '?' || n.char = '[' || n.char = ']'
        || n.char = '\x7b' || n.char = '\x7d')
  | _ => false

/-- Scans a plain scalar after a gap; lines after the first start at column `indent` or later, except
inside flow collections. Also says whether the scalar is followed by a break. -/
def scanPlain (inFlow : Bool) (indent : Nat) (gap : Gap) : List Spot → Option (Scanned × Bool)
  | [] => some (⟨[], []⟩, gap.isBroken)
  | s :: r =>
      if isBlank s.char then
        if s.char = '\t' ∧ gap.isBroken ∧ s.mark.column < indent then none
        else scanPlain inFlow indent (gap.addBlank s.char) r
      else if isBreak s.char then scanPlain inFlow indent (gap.addBreak s.char) r
      else if !gap.isEmpty && ((!inFlow && s.mark.column < indent) || atMarker (s :: r)
          || s.char = '#') then some (⟨[], s :: r⟩, gap.isBroken)
      else if badColon inFlow (s :: r) then none
      else if endsPlain inFlow (s :: r) then some (⟨[], s :: r⟩, gap.isBroken)
      else (fun (scanned, isBroken) => (scanned.after (gap.fold ++ [s.char]), isBroken)) <$>
        scanPlain inFlow indent {} r

/-- Scans a scalar in single quotes after its opening quote and a gap. With `skip` the first place
is the second of two quotes that stand for one. -/
def scanSingle (gap : Gap) (skip : Bool) : List Spot → Option Scanned
  | [] => none
  | s :: r =>
      if skip then scanSingle gap false r
      else if isBlank s.char then scanSingle (gap.addBlank s.char) false r
      else if isBreak s.char then scanSingle (gap.addBreak s.char) false r
      else if atMarker (s :: r) then none
      else if s.char ≠ '\'' then (·.after (gap.fold ++ [s.char])) <$> scanSingle {} false r
      else if (r.head?.map (·.char)) = some '\'' then
        (·.after (gap.fold ++ ['\''])) <$> scanSingle {} true r
      else some ⟨gap.fold, r⟩

def letterEscape? (c : Char) : Option Char :=
  match c with
  | '0' => some '\x00'
  | 'a' => some '\x07'
  | 'b' => some '\x08'
  | 't' | '\t' => some '\t'
  | 'n' => some '\n'
  | 'v' => some '\x0b'
  | 'f' => some '\x0c'
  | 'r' => some '\r'
  | 'e' => some '\x1b'
  | ' ' => some ' '
  | '"' => some '"'
  | '/' => some '/'
  | '\\' => some '\\'
  | 'N' => some '\u0085'
  | '_' => some '\u00a0'
  | 'L' => some '\u2028'
  | 'P' => some '\u2029'
  | _ => none

def hexNumber? (count : Nat) (cs : List Spot) : Option Nat :=
  if cs.length < count then none
  else (cs.take count).foldlM (fun n s => (n * 16 + ·) <$> hexDigit? s.char) 0

/-- The character of an escape whose letter comes first, and the number of places it takes. -/
def escape? : List Spot → Option (Char × Nat)
  | [] => none
  | s :: r =>
      let digits := match s.char with
        | 'x' => 2
        | 'u' => 4
        | 'U' => 8
        | _ => 0
      if digits = 0 then (·, 1) <$> letterEscape? s.char
      else do
        let n ← hexNumber? digits r
        if n.isValidChar then some (Char.ofNat n, digits + 1) else none

/-- Scans a scalar in double quotes after its opening quote, a gap and `skip` more places. -/
def scanDouble (gap : Gap) (skip : Nat) : List Spot → Option Scanned
  | [] => none
  | s :: r => match skip with
    | skip + 1 => scanDouble gap skip r
    | 0 =>
        if isBlank s.char then scanDouble (gap.addBlank s.char) 0 r
        else if isBreak s.char then scanDouble (gap.addBreak s.char) 0 r
        else if atMarker (s :: r) then none
        else if s.char = '"' then some ⟨gap.fold, r⟩
        else if s.char ≠ '\\' then (·.after (gap.fold ++ [s.char])) <$> scanDouble {} 0 r
        else if (r.head?.map fun n => isBreak n.char) = some true then
          (·.after gap.fold) <$> scanDouble { escaped := true } 1 r
        else match escape? r with
          | none => none
          | some (c, width) => (·.after (gap.fold ++ [c])) <$> scanDouble {} width r

inductive Chomping where
  | clip
  | strip
  | keep
deriving DecidableEq, Repr

/-- What a block scalar still owes before a line: `lead` is the break after the last line of text,
`breaks` those of the empty lines since then. -/
structure Block where
  lead : List Char := []
  breaks : List Char := []
  isIndented : Bool := false

namespace Block

def join (isFolded : Bool) (b : Block) (c : Char) : List Char :=
  if isFolded && b.lead = ['\n'] && !b.isIndented && !isBlank c then
    if b.breaks.isEmpty then [' '] else b.breaks
  else b.lead ++ b.breaks

def finish (chomping : Chomping) (b : Block) : List Char :=
  match chomping with
  | .strip => []
  | .clip => b.lead
  | .keep => b.lead ++ b.breaks

end Block

/-- Scans the lines of a block scalar. Without an `indent` the first line with text, or a longer
empty one before it, sets it, but to no less than `least`; `deepest` is the longest indentation so
far. `inLine` says that the first place belongs to a line of text. -/
def scanBlock (isFolded : Bool) (chomping : Chomping) (least : Nat) (indent : Option Nat)
    (deepest : Nat) (inLine : Bool) (b : Block) : List Spot → Option Scanned
  | [] => some ⟨b.finish chomping, []⟩
  | s :: r =>
      if inLine then
        if isBreak s.char then
          scanBlock isFolded chomping least indent deepest false { b with lead := [s.char] } r
        else
          (·.after [s.char]) <$> scanBlock isFolded chomping least indent deepest true b r
      else
        let column := s.mark.column
        let inIndent := match indent with
          | none => true
          | some n => decide (column < n)
        if inIndent && s.char = ' ' then
          scanBlock isFolded chomping least indent deepest false b r
        else if inIndent && s.char = '\t' then none
        else
          let deepest := max deepest column
          if isBreak s.char then
            scanBlock isFolded chomping least indent deepest false
              { b with breaks := b.breaks ++ [s.char] } r
          else
            let n := indent.getD (max deepest least)
            if column = n then
              (·.after (b.join isFolded s.char ++ [s.char])) <$>
                scanBlock isFolded chomping least (some n) deepest true
                  { isIndented := isBlank s.char } r
            else some ⟨b.finish chomping, s :: r⟩

end CodeActions.Yaml
