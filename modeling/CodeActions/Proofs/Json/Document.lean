import CodeActions.Json.Token
/-!
# JSON documents as they are written

The grammar of JSON, apart from any reader: a document keeps its number literals, the escapes in
its strings and all members of its objects, and `Document.Spells` says which texts spell it. What a
string or a number comes to is left open where that is nothing: an escape of half a surrogate pair,
a number beyond all doubles.
-/
namespace CodeActions.Json
open CodeActions.Text Quotation

/-- A part of a string: a character, an escape by a letter, or one by four digits. -/
inductive Piece where
  | plain (c : Char) (h : 0x20 ≤ c.toNat ∧ c ≠ '"' ∧ c ≠ '\\')
  | short (letter c : Char) (h : simpleEscape? letter = some c)
  | code (a b c d : Char) (unit : Nat) (h : hex4? a b c d = some unit)

namespace Piece

def chars : Piece → List Char
  | plain c _ => [c]
  | short letter _ _ => ['\\', letter]
  | code a b c d _ _ => ['\\', 'u', a, b, c, d]

/-- The characters that pieces stand for. Escapes of surrogates have to come in pairs. -/
def decode : List Piece → Option (List Char)
  | [] => some []
  | plain c _ :: ps => (c :: ·) <$> decode ps
  | short _ c _ :: ps => (c :: ·) <$> decode ps
  | code _ _ _ _ n _ :: ps =>
      if isLowSurrogate n then none
      else if isHighSurrogate n then
        match ps with
        | code _ _ _ _ m _ :: ps =>
            if isLowSurrogate m then (joinSurrogates n m :: ·) <$> decode ps else none
        | _ => none
      else (Char.ofNat n :: ·) <$> decode ps

def text? (ps : List Piece) : Option String := String.ofList <$> decode ps

def quoted (ps : List Piece) : List Char := '"' :: (ps.flatMap chars ++ ['"'])

end Piece

namespace Literal

def IsNumeral (ds : List Nat) : Prop := ds ≠ [] ∧ ∀ d ∈ ds, d < 10

def numeral (ds : List Nat) : List Char := ds.map Nat.digitChar

inductive FractionSpelt : Option (List Nat) → List Char → Prop
  | absent : FractionSpelt none []
  | digits {ds : List Nat} (hds : IsNumeral ds) : FractionSpelt (some ds) ('.' :: numeral ds)

/-- The sign of an exponent, which may be left out if the exponent is not negative. -/
inductive SignSpelt : Bool → List Char → Prop
  | absent : SignSpelt false []
  | plus : SignSpelt false ['+']
  | minus : SignSpelt true ['-']

inductive ExponentSpelt : Option (Bool × List Nat) → List Char → Prop
  | absent : ExponentSpelt none []
  | digits {mark : Char} {isNegative : Bool} {sign : List Char} {ds : List Nat}
      (hmark : mark = 'e' ∨ mark = 'E') (hsign : SignSpelt isNegative sign)
      (hds : IsNumeral ds) :
      ExponentSpelt (some (isNegative, ds)) (mark :: (sign ++ numeral ds))

/-- The spellings of a literal; its integer part has no zero in front of other digits. -/
inductive Spelt : Literal → List Char → Prop
  | parts {negative : Bool} {whole : List Nat} {fraction : Option (List Nat)}
      {exponent : Option (Bool × List Nat)} {f e : List Char} (hwhole : IsNumeral whole)
      (hzero : ∀ ds, whole = 0 :: ds → ds = []) (hf : FractionSpelt fraction f)
      (he : ExponentSpelt exponent e) :
      Spelt ⟨negative, whole, fraction, exponent⟩
        ((if negative then ['-'] else []) ++ (numeral whole ++ (f ++ e)))

def number? (l : Literal) : Option Number := l.value.toOption

def mayContinue (c : Char) : Bool := (digit? c).isSome || c = '.' || c = 'e' || c = 'E'

end Literal

inductive Document where
  | null
  | bool (b : Bool)
  | number (l : Literal)
  | text (ps : List Piece)
  | list (items : List Document)
  | object (members : List (List Piece × Document))

instance : Inhabited Document := ⟨.null⟩

inductive Lexeme where
  | openList
  | closeList
  | openObject
  | closeObject
  | comma
  | colon
  | null
  | bool (b : Bool)
  | number (l : Literal)
  | text (ps : List Piece)

namespace Lexeme

inductive Spelt : Lexeme → List Char → Prop
  | openList : Spelt .openList ['[']
  | closeList : Spelt .closeList [']']
  | openObject : Spelt .openObject ['\x7b']
  | closeObject : Spelt .closeObject ['\x7d']
  | comma : Spelt .comma [',']
  | colon : Spelt .colon [':']
  | null : Spelt .null ['n', 'u', 'l', 'l']
  | true : Spelt (.bool true) ['t', 'r', 'u', 'e']
  | false : Spelt (.bool false) ['f', 'a', 'l', 's', 'e']
  | number {l : Literal} {cs : List Char} (h : l.Spelt cs) : Spelt (.number l) cs
  | text (ps : List Piece) : Spelt (.text ps) (Piece.quoted ps)

/-- A number ends where it cannot go on, and anything else where it does. -/
def EndsBefore : Lexeme → List Char → Prop
  | .number _, c :: _ => Literal.mayContinue c = Bool.false
  | _, _ => True

inductive Written : List Lexeme → List Char → Prop
  | blanks {w : List Char} (hw : ∀ c ∈ w, Token.isBlank c) : Written [] w
  | lexeme {w : List Char} {x : Lexeme} {cs : List Char} {xs : List Lexeme} {rest : List Char}
      (hw : ∀ c ∈ w, Token.isBlank c) (hx : x.Spelt cs) (hend : x.EndsBefore rest)
      (hrest : Written xs rest) : Written (x :: xs) (w ++ (cs ++ rest))

end Lexeme

namespace Document

mutual
def lexemes : Document → List Lexeme
  | .null => [.null]
  | .bool b => [.bool b]
  | .number l => [.number l]
  | .text ps => [.text ps]
  | .list [] => [.openList, .closeList]
  | .list (d :: ds) => .openList :: (d.lexemes ++ lexemesOfItems ds)
  | .object [] => [.openObject, .closeObject]
  | .object ((k, d) :: ms) =>
      .openObject :: .text k :: .colon :: (d.lexemes ++ lexemesOfMembers ms)

def lexemesOfItems : List Document → List Lexeme
  | [] => [.closeList]
  | d :: ds => .comma :: (d.lexemes ++ lexemesOfItems ds)

def lexemesOfMembers : List (List Piece × Document) → List Lexeme
  | [] => [.closeObject]
  | (k, d) :: ms => .comma :: .text k :: .colon :: (d.lexemes ++ lexemesOfMembers ms)
end

def Spells (d : Document) (text : String) : Prop := Lexeme.Written d.lexemes text.toList

mutual
def nesting : Document → Nat
  | .list ds => nestingOfItems ds + 1
  | .object ms => nestingOfMembers ms + 1
  | _ => 0

def nestingOfItems : List Document → Nat
  | [] => 0
  | d :: ds => max d.nesting (nestingOfItems ds)

def nestingOfMembers : List (List Piece × Document) → Nat
  | [] => 0
  | (_, d) :: ms => max d.nesting (nestingOfMembers ms)
end

mutual
/-- The value that a document is, members as they are written, if all its strings and numbers come
to something. -/
def value? : Document → Option Value
  | .null => some .null
  | .bool b => some (.bool b)
  | .number l => .number <$> l.number?
  | .text ps => .text <$> Piece.text? ps
  | .list ds => .list <$> valuesOfItems? ds
  | .object ms => .object <$> valuesOfMembers? ms

def valuesOfItems? : List Document → Option (List Value)
  | [] => some []
  | d :: ds => do
      let v ← d.value?
      return v :: (← valuesOfItems? ds)

def valuesOfMembers? : List (List Piece × Document) → Option (List (String × Value))
  | [] => some []
  | (k, d) :: ms => do
      let name ← Piece.text? k
      let v ← d.value?
      return (name, v) :: (← valuesOfMembers? ms)
end

end Document
end CodeActions.Json
