import CodeActions.Yaml.Fault
/-!
# Characters with their places

A text as its characters, each with its place. Line breaks are made uniform first: a carriage
return, alone or before a line feed, and the next-line character become line feeds, while the line
and paragraph separators stay what they are.
-/
namespace CodeActions.Yaml

structure Spot where
  char : Char
  mark : Mark
deriving DecidableEq, Repr

def isAllowed (c : Char) : Bool :=
  let n := c.toNat
  n = 0x09 || n = 0x0A || n = 0x0D || (0x20 ≤ n && n ≤ 0x7E) || n = 0x85
    || (0xA0 ≤ n && n ≤ 0xD7FF) || (0xE000 ≤ n && n ≤ 0xFFFD) || 0x10000 ≤ n

def isBlank (c : Char) : Bool := c = ' ' || c = '\t'
def isBreak (c : Char) : Bool := c = '\n' || c = '\u2028' || c = '\u2029'

/-- Letters of the names of anchors and of the handles of tags. -/
def isNameChar (c : Char) : Bool := c.isAlphanum || c = '_' || c = '-'

def unifyBreaks : List Char → List Char
  | '\r' :: '\n' :: r => '\n' :: unifyBreaks r
  | c :: r => (if c = '\r' ∨ c = '\u0085' then '\n' else c) :: unifyBreaks r
  | [] => []

def Mark.after (m : Mark) (c : Char) : Mark :=
  if isBreak c then ⟨m.line + 1, 0⟩ else ⟨m.line, m.column + 1⟩

def placed (m : Mark) : List Char → List Spot
  | [] => []
  | c :: cs => ⟨c, m⟩ :: placed (m.after c) cs

def endMark (m : Mark) (cs : List Char) : Mark := cs.foldl Mark.after m

/-- Whether a list of places starts with a blank or a break, or is at the end of the text. -/
def atGap : List Spot → Bool
  | [] => true
  | s :: _ => isBlank s.char || isBreak s.char

def atMarker : List Spot → Bool
  | a :: b :: c :: r =>
      a.mark.column = 0 && atGap r
        && ((a.char = '-' && b.char = '-' && c.char = '-')
          || (a.char = '.' && b.char = '.' && c.char = '.'))
  | _ => false

end CodeActions.Yaml
