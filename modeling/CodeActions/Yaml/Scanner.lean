import CodeActions.Yaml.Property
/-!
# From characters to tokens

A scalar or a flow collection turns out to be a key only when a colon follows it on its line, so
tokens wait in a queue while a key may still have to be put in front of them. What is handed out
before a text breaks off is what a reader of the tokens has seen: `Scanner.tokens` ends there.
-/
namespace CodeActions.Yaml

/-- A place where a key may have started: the number of its first token. A key is `required` where
a block map can only go on with a key. -/
structure Candidate where
  number : Nat
  isRequired : Bool
  mark : Mark
deriving DecidableEq, Repr

structure Scanner where
  rest : List Spot
  finish : Mark
  /-- Columns of the open block collections, innermost first. -/
  indents : List Nat := []
  /-- Candidates of the open flow collections, innermost first, and of the block context. -/
  candidates : List (Option Candidate) := [none]
  keyAllowed : Bool := true
  /-- Tokens handed out, the last one first. -/
  handed : List Token := []
  queue : List Token := []

namespace Scanner

def inFlow (s : Scanner) : Bool := s.candidates.length > 1

def here (s : Scanner) : Mark := match s.rest with
  | [] => s.finish
  | c :: _ => c.mark

def count (s : Scanner) : Nat := s.handed.length + s.queue.length

def emit (s : Scanner) (sign : Sign) (mark : Mark) : Scanner :=
  { s with queue := s.queue ++ [⟨sign, mark⟩] }

def emitAt (s : Scanner) (number : Nat) (sign : Sign) (mark : Mark) : Scanner :=
  let n := number - s.handed.length
  { s with queue := s.queue.take n ++ ⟨sign, mark⟩ :: s.queue.drop n }

/-- A key lies on one line and within 1024 characters. -/
def Candidate.isStale (c : Candidate) (m : Mark) : Bool :=
  c.mark.line < m.line || c.mark.column + 1024 < m.column

/-- Gives up the candidates that are no keys any more; a required key must not be given up. -/
def dropStale (s : Scanner) : Option Scanner :=
  let isStale (c : Option Candidate) : Bool := c.any (Candidate.isStale · s.here)
  if s.candidates.any fun c => isStale c && c.any (·.isRequired) then none
  else some { s with candidates := s.candidates.map fun c => if isStale c then none else c }

/-- Hands out the tokens in front of the first that may still get a key in front of it. -/
def release (s : Scanner) : Scanner :=
  let numbers := s.candidates.filterMap (·.map (·.number))
  let n := (numbers.foldl min s.count) - s.handed.length
  { s with handed := (s.queue.take n).reverse ++ s.handed, queue := s.queue.drop n }

def removeCandidate (s : Scanner) : Option Scanner :=
  match s.candidates with
  | some c :: cs => if c.isRequired then none else some { s with candidates := none :: cs }
  | _ => some s

def saveCandidate (s : Scanner) : Option Scanner :=
  if s.keyAllowed then do
    let isRequired := !s.inFlow && s.indents.head? == some s.here.column
    let s ← s.removeCandidate
    return { s with candidates := some ⟨s.count, isRequired, s.here⟩ :: s.candidates.drop 1 }
  else some s

/-- Opens a block collection at a column further right than the innermost one. -/
def indentTo (s : Scanner) (column number : Nat) (sign : Sign) (mark : Mark) : Scanner :=
  if s.inFlow || s.indents.head?.any (column ≤ ·) then s
  else { s.emitAt number sign mark with indents := column :: s.indents }

def closeBlocks (s : Scanner) (p : Nat → Bool) : Scanner :=
  if s.inFlow then s
  else
    let closed := s.indents.takeWhile p
    { s with
      indents := s.indents.dropWhile p
      queue := s.queue ++ closed.map fun _ => ⟨.blockEnd, s.here⟩ }

def skip (s : Scanner) (n : Nat) : Scanner := { s with rest := s.rest.drop n }

/-- Blanks, comments and breaks up to the next token, and whether a key may start there. -/
def gapBefore (inFlow : Bool) : Bool → Bool → List Spot → List Spot × Bool
  | keyAllowed, _, [] => ([], keyAllowed)
  | keyAllowed, inComment, s :: r =>
      if isBreak s.char then gapBefore inFlow (keyAllowed || !inFlow) false r
      else if inComment then gapBefore inFlow keyAllowed true r
      else if s.char = ' ' || (s.char = '\t' && (inFlow || !keyAllowed))
          || (s.char = '\ufeff' && s.mark == ⟨0, 0⟩) then gapBefore inFlow keyAllowed false r
      else if s.char = '#' then gapBefore inFlow keyAllowed true r
      else (s :: r, keyAllowed)

def toNextToken (s : Scanner) : Scanner :=
  let (rest, keyAllowed) := gapBefore s.inFlow s.keyAllowed false s.rest
  { s with rest := rest, keyAllowed := keyAllowed }

/-- The end of the text counts as a new line. -/
def streamEnd (s : Scanner) : Option Scanner := do
  let m := s.finish
  let m : Mark := if m.column = 0 then m else ⟨m.line + 1, 0⟩
  let s := { s with finish := m }.closeBlocks fun _ => true
  let s ← s.removeCandidate
  return { s with keyAllowed := false }.emit .streamEnd m

def directive (s : Scanner) : Option Scanner := do
  let s ← (s.closeBlocks fun _ => true).removeCandidate
  let (sign, rest) ← scanDirective (s.rest.drop 1)
  return { s.emit sign s.here with keyAllowed := false, rest := rest }

def documentMarker (s : Scanner) (sign : Sign) : Option Scanner := do
  let s ← (s.closeBlocks fun _ => true).removeCandidate
  return { s.emit sign s.here with keyAllowed := false }.skip 3

def openFlow (s : Scanner) (sign : Sign) : Option Scanner := do
  let s ← s.saveCandidate
  return { s.emit sign s.here with candidates := none :: s.candidates, keyAllowed := true }.skip 1

def closeFlow (s : Scanner) (sign : Sign) : Option Scanner := do
  let s ← s.removeCandidate
  let outer := if s.inFlow then s.candidates.drop 1 else s.candidates
  return { s.emit sign s.here with candidates := outer, keyAllowed := false }.skip 1

def comma (s : Scanner) : Option Scanner := do
  let s ← s.removeCandidate
  return { s.emit .comma s.here with keyAllowed := true }.skip 1

def entry (s : Scanner) : Option Scanner := do
  if !s.inFlow && !s.keyAllowed then none
  let s ← (s.indentTo s.here.column s.count .blockListStart s.here).removeCandidate
  return { s.emit .entry s.here with keyAllowed := true }.skip 1

def key (s : Scanner) : Option Scanner := do
  if !s.inFlow && !s.keyAllowed then none
  let s ← (s.indentTo s.here.column s.count .blockMapStart s.here).removeCandidate
  return { s.emit .key s.here with keyAllowed := !s.inFlow }.skip 1

def value (s : Scanner) : Option Scanner :=
  match s.candidates with
  | some c :: cs =>
      let s := (s.emitAt c.number .key c.mark).indentTo c.mark.column c.number .blockMapStart c.mark
      some ({ s.emit .value s.here with candidates := none :: cs, keyAllowed := false }.skip 1)
  | _ =>
      if !s.inFlow && !s.keyAllowed then none
      else
        let s := s.indentTo s.here.column s.count .blockMapStart s.here
        some ({ s.emit .value s.here with keyAllowed := !s.inFlow }.skip 1)

def name (s : Scanner) (sign : String → Sign) : Option Scanner := do
  let s ← s.saveCandidate
  let (name, rest) ← scanName (s.rest.drop 1)
  return { s.emit (sign name) s.here with keyAllowed := false, rest := rest }

def tag (s : Scanner) : Option Scanner := do
  let s ← s.saveCandidate
  let (handle, suffix, rest) ← scanTag s.inFlow (s.rest.drop 1)
  return { s.emit (.tag handle suffix) s.here with keyAllowed := false, rest := rest }

def scalar (s : Scanner) (style : Style) (scanned : Scanned) : Scanner :=
  { s.emit (.scalar style (String.ofList scanned.text)) s.here with rest := scanned.rest }

def blockScalar (s : Scanner) (isFolded : Bool) : Option Scanner := do
  let s ← s.removeCandidate
  let scanned ← scanBlockScalar isFolded s.indents.head? (s.rest.drop 1)
  return { s.scalar (if isFolded then .folded else .literal) scanned with keyAllowed := true }

def quotedScalar (s : Scanner) (isSingle : Bool) : Option Scanner := do
  let s ← s.saveCandidate
  let scanned ← if isSingle then scanSingle {} false (s.rest.drop 1)
    else scanDouble {} 0 (s.rest.drop 1)
  return { s.scalar .quoted scanned with keyAllowed := false }

def plainScalar (s : Scanner) : Option Scanner := do
  let s ← s.saveCandidate
  let indent := match s.indents with
    | [] => 0
    | n :: _ => n + 1
  let (scanned, broken) ← scanPlain s.inFlow indent {} s.rest
  return { s.scalar .plain scanned with keyAllowed := broken }

def startsPlain (inFlow : Bool) (c : Char) (r : List Spot) : Bool :=
  let isIndicator := c = '-' || c = '?' || c = ':' || c = ',' || c = '[' || c = ']' || c = '\x7b'
    || c = '\x7d' || c = '#' || c = '&' || c = '*' || c = '!' || c = '|' || c = '>' || c = '\''
    || c = '"' || c = '%' || c = '@' || c = '`'
  (!isBlank c && !isBreak c && !isIndicator)
    || (c = '-' && !(r.head?.any fun s => isBlank s.char))
    || (!inFlow && (c = '?' || c = ':') && !atGap r)

def token (s : Scanner) : Option Scanner :=
  match s.rest with
  | [] => s.streamEnd
  | p :: r =>
      let c := p.char
      if p.mark.column = 0 && c = '%' then s.directive
      else if atMarker (p :: r) then s.documentMarker (if c = '-' then .documentStart else .documentEnd)
      else if c = '[' then s.openFlow .flowListStart
      else if c = '\x7b' then s.openFlow .flowMapStart
      else if c = ']' then s.closeFlow .flowListEnd
      else if c = '\x7d' then s.closeFlow .flowMapEnd
      else if c = ',' then s.comma
      else if c = '-' && atGap r then s.entry
      else if c = '?' && (s.inFlow || atGap r) then s.key
      else if c = ':' && (s.inFlow || atGap r) then s.value
      else if c = '*' then s.name .alias
      else if c = '&' then s.name .anchor
      else if c = '!' then s.tag
      else if c = '|' && !s.inFlow then s.blockScalar false
      else if c = '>' && !s.inFlow then s.blockScalar true
      else if c = '\'' then s.quotedScalar true
      else if c = '"' then s.quotedScalar false
      else if startsPlain s.inFlow c r then s.plainScalar
      else none

inductive Progress where
  | more (s : Scanner)
  | complete (tokens : List Token)
  | broken (tokens : List Token)

def advance (s : Scanner) : Progress :=
  match if s.queue.isEmpty then some s else s.dropStale with
  | none => .broken s.handed.reverse
  | some s =>
      let s := s.release
      match s.toNextToken.dropStale with
      | none => .broken s.handed.reverse
      | some ready =>
          match (ready.closeBlocks (ready.here.column < ·)).token with
          | none => .broken s.handed.reverse
          | some next =>
              if !ready.rest.isEmpty then .more next
              else if next.dropStale.isNone then .broken s.handed.reverse
              else .complete (next.handed.reverse ++ next.queue)

def run : Nat → Scanner → List Token
  | 0, s => s.handed.reverse
  | steps + 1, s => match s.advance with
    | .more s => run steps s
    | .complete tokens | .broken tokens => tokens

end Scanner

/-- The tokens of a text, as far as they can be told; nothing if the text has a character that no
document may contain. -/
def tokens? (text : String) : Option (List Token) :=
  if text.toList.all isAllowed then
    let cs := unifyBreaks text.toList
    let cs := match cs with
      | '\ufeff' :: r => r
      | cs => cs
    some (Scanner.run (cs.length + 1) { rest := placed ⟨0, 0⟩ cs, finish := endMark ⟨0, 0⟩ cs })
  else none

end CodeActions.Yaml
