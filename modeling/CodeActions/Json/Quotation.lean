import CodeActions.Json.Fault
import CodeActions.Text.Digits
/-!
# Reading quoted strings

`Quotation.extent` finds where a string ends, as a skipper does, and `Quotation.content` what it
says. A reader also wants escapes for surrogates to come in pairs.
-/
namespace CodeActions.Json.Quotation
open CodeActions.Text

def hex4? (a b c d : Char) : Option Nat := do
  return (((← hexDigit? a) * 16 + (← hexDigit? b)) * 16 + (← hexDigit? c)) * 16 + (← hexDigit? d)

def byteLength (cs : List Char) : Nat := cs.foldr (fun c n => c.utf8Size + n) 0

/-- The fault of a `\u` escape whose digits should start at offset `o`. -/
def badDigits (o : Nat) (cs : List Char) : Fault :=
  if byteLength cs < 4 then ⟨.eofInText, o + byteLength cs⟩ else ⟨.invalidEscape, o + 4⟩

def simpleEscape? (c : Char) : Option Char :=
  match c with
  | '"' => some '"'
  | '\\' => some '\\'
  | '/' => some '/'
  | 'b' => some '\x08'
  | 'f' => some '\x0c'
  | 'n' => some '\n'
  | 'r' => some '\r'
  | 't' => some '\t'
  | _ => none

/-- The number of characters up to and with the closing quote, from offset `o`. -/
def extent (o : Nat) : List Char → Except Fault Nat
  | [] => .error ⟨.eofInText, o⟩
  | '"' :: _ => .ok 1
  | '\\' :: 'u' :: a :: b :: c :: d :: r =>
      if (hex4? a b c d).isSome then (· + 6) <$> extent (o + 6) r
      else .error (badDigits (o + 2) (a :: b :: c :: d :: r))
  | '\\' :: 'u' :: r => .error (badDigits (o + 2) r)
  | '\\' :: c :: r =>
      if (simpleEscape? c).isSome then (· + 2) <$> extent (o + 2) r
      else .error ⟨.invalidEscape, o + 2⟩
  | '\\' :: [] => .error ⟨.eofInText, o + 1⟩
  | c :: r =>
      if c.toNat < 0x20 then .error ⟨.controlCharacter, o⟩
      else (· + 1) <$> extent (o + c.utf8Size) r

def isHighSurrogate (n : Nat) : Bool := 0xD800 ≤ n && n < 0xDC00
def isLowSurrogate (n : Nat) : Bool := 0xDC00 ≤ n && n < 0xE000

def joinSurrogates (high low : Nat) : Char :=
  Char.ofNat ((high - 0xD800) * 0x400 + (low - 0xDC00) + 0x10000)

/-- The fault of a high surrogate that no escape of a low one follows. -/
def unpaired (o : Nat) : List Char → Fault
  | [] => ⟨.eofInText, o⟩
  | '\\' :: [] => ⟨.eofInText, o + 1⟩
  | '\\' :: 'u' :: r => badDigits (o + 2) r
  | '\\' :: _ :: _ => ⟨.brokenSurrogatePair, o + 2⟩
  | _ :: _ => ⟨.brokenSurrogatePair, o + 1⟩

/-- The characters of a string up to its closing quote, from offset `o`. -/
def content (o : Nat) : List Char → Except Fault (List Char)
  | [] => .error ⟨.eofInText, o⟩
  | '"' :: _ => .ok []
  | '\\' :: 'u' :: a :: b :: c :: d :: r =>
      match hex4? a b c d with
      | none => .error (badDigits (o + 2) (a :: b :: c :: d :: r))
      | some n =>
          if isLowSurrogate n then .error ⟨.loneSurrogate, o + 6⟩
          else if isHighSurrogate n then
            match r with
            | '\\' :: 'u' :: e :: f :: g :: h :: s =>
                match hex4? e f g h with
                | none => .error (badDigits (o + 8) (e :: f :: g :: h :: s))
                | some m =>
                    if isLowSurrogate m then (joinSurrogates n m :: ·) <$> content (o + 12) s
                    else .error ⟨.loneSurrogate, o + 12⟩
            | r => .error (unpaired (o + 6) r)
          else (Char.ofNat n :: ·) <$> content (o + 6) r
  | '\\' :: 'u' :: r => .error (badDigits (o + 2) r)
  | '\\' :: c :: r => match simpleEscape? c with
      | some e => (e :: ·) <$> content (o + 2) r
      | none => .error ⟨.invalidEscape, o + 2⟩
  | '\\' :: [] => .error ⟨.eofInText, o + 1⟩
  | c :: r =>
      if c.toNat < 0x20 then .error ⟨.controlCharacter, o + 1⟩
      else (c :: ·) <$> content (o + c.utf8Size) r

end CodeActions.Json.Quotation
