import CodeActions.Json.Literal
import CodeActions.Json.Quotation
/-!
# Tokens of a JSON document

Tokens do not depend on what surrounds them. A number or a string can be well formed and still be
faulty for a reader (out of range, a lone surrogate); such a fault travels inside the token. What
is not well formed ends the document: `broken` says what a reader and what a skipper make of it,
and `brokenText` does so for what starts as a string.
-/
namespace CodeActions.Json
open CodeActions.Text

inductive Scalar where
  | null
  | bool (b : Bool)
  | number (n : Except Fault Number)
  | text (s : Except Fault String)

inductive Token where
  | openList
  | closeList
  | openObject
  | closeObject
  | comma
  | colon
  | scalar (s : Scalar)
  | broken (read skip : Fault)
  | brokenText (read skip : Fault)

/-- A token with the offsets of its first byte and of the byte after its last. -/
structure Located where
  token : Token
  start : Nat
  stop : Nat

namespace Token

def isBlank (c : Char) : Bool := c = ' ' || c = '\t' || c = '\n' || c = '\r'

/-- The fault of a word whose remaining letters should start at offset `o`, if it is misspelt. -/
def misspelt? (o : Nat) : List Char → List Char → Option Fault
  | [], _ => none
  | _ :: _, [] => some ⟨.eofInValue, o⟩
  | e :: es, c :: cs => if c = e then misspelt? (o + 1) es cs else some ⟨.misspeltWord, o + 1⟩

def word (o : Nat) (letters cs : List Char) (s : Scalar) : Token × Nat :=
  match misspelt? (o + 1) letters cs with
  | some f => (.broken f f, 1)
  | none => (.scalar s, letters.length + 1)

def number (o : Nat) (cs : List Char) : Token × Nat :=
  match Literal.scan o cs with
  | .error (.atEnd p) => (.broken ⟨.eofInValue, p⟩ ⟨.invalidNumber, p⟩, 1)
  | .error (.invalid p) => (.broken ⟨.invalidNumber, p⟩ ⟨.invalidNumber, p⟩, 1)
  | .ok (l, width) => match l.value with
    | .ok n => (.scalar (.number (.ok n)), width)
    | .error none => (.scalar (.number (.error ⟨.numberOutOfRange, o + width⟩)), width)
    | .error (some k) =>
        let last := (l.exponent.map fun (_, ds) => ds.length).getD 0
        (.scalar (.number (.error ⟨.numberOutOfRange, o + width - last + k⟩)), width)

def text (o : Nat) (cs : List Char) : Token × Nat :=
  match Quotation.extent (o + 1) cs, Quotation.content (o + 1) cs with
  | .ok width, content => (.scalar (.text (content.map String.ofList)), width + 1)
  | .error skip, .error read => (.brokenText read skip, 1)
  | .error skip, .ok _ => (.brokenText skip skip, 1)

/-- The token that starts with `c` at offset `o`, and the number of its characters. -/
def first (o : Nat) (c : Char) (cs : List Char) : Token × Nat :=
  match c with
  | '[' => (.openList, 1)
  | ']' => (.closeList, 1)
  | '\x7b' => (.openObject, 1)
  | '\x7d' => (.closeObject, 1)
  | ',' => (.comma, 1)
  | ':' => (.colon, 1)
  | 'n' => word o ['u', 'l', 'l'] cs .null
  | 't' => word o ['r', 'u', 'e'] cs (.bool true)
  | 'f' => word o ['a', 'l', 's', 'e'] cs (.bool false)
  | '"' => text o cs
  | _ =>
      if c = '-' ∨ (digit? c).isSome then number o (c :: cs)
      else (.broken ⟨.expectedValue, o + 1⟩ ⟨.expectedValue, o + 1⟩, 1)

def isBroken : Token → Bool
  | .broken _ _ | .brokenText _ _ => true
  | _ => false

/-- The tokens of a text after the first `skip` of its characters, up to the first broken one. -/
def scan (skip o : Nat) : List Char → List Located
  | [] => []
  | c :: cs => match skip with
    | skip + 1 => scan skip (o + c.utf8Size) cs
    | 0 =>
        if isBlank c then scan 0 (o + c.utf8Size) cs
        else
          let (token, width) := first o c cs
          let stop := o + Quotation.byteLength ((c :: cs).take width)
          if token.isBroken then [⟨token, o, stop⟩]
          else ⟨token, o, stop⟩ :: scan (width - 1) (o + c.utf8Size) cs

end Token
end CodeActions.Json
