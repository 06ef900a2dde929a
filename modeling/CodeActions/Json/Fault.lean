import CodeActions.Mismatch
/-!
# What is wrong with a JSON document

A fault is a cause and the number of bytes in front of it; its message gives the place as a line
and a column of bytes.
-/
namespace CodeActions.Json
open CodeActions.Decimal

inductive Cause where
  | eofInValue
  | eofInList
  | eofInObject
  | eofInText
  | expectedValue
  | expectedKey
  | expectedColon
  | expectedCommaInList
  | expectedCommaInObject
  | trailingComma
  | misspeltWord
  | invalidNumber
  | numberOutOfRange
  | controlCharacter
  | invalidEscape
  | brokenSurrogatePair
  | loneSurrogate
  | trailingCharacters
  | tooDeep
  | mismatch (m : Mismatch)

def words : Found.Words := ⟨"null", .json⟩

def Cause.message : Cause → String
  | .eofInValue => "EOF while parsing a value"
  | .eofInList => "EOF while parsing a list"
  | .eofInObject => "EOF while parsing an object"
  | .eofInText => "EOF while parsing a string"
  | .expectedValue => "expected value"
  | .expectedKey => "key must be a string"
  | .expectedColon => "expected `:`"
  | .expectedCommaInList => "expected `,` or `]`"
  | .expectedCommaInObject => "expected `,` or `\x7d`"
  | .trailingComma => "trailing comma"
  | .misspeltWord => "expected ident"
  | .invalidNumber => "invalid number"
  | .numberOutOfRange => "number out of range"
  | .controlCharacter =>
      "control character (\\u0000-\\u001F) found while parsing a string"
  | .invalidEscape => "invalid escape"
  | .brokenSurrogatePair => "unexpected end of hex escape"
  | .loneSurrogate => "lone leading surrogate in hex escape"
  | .trailingCharacters => "trailing characters"
  | .tooDeep => "recursion limit exceeded"
  | .mismatch m => m.message words

structure Fault where
  cause : Cause
  offset : Nat

/-- Line and column of an offset: lines count from one, and the column is the number of bytes since
the last line feed. -/
def locate (offset : Nat) : List Char → Nat × Nat → Nat × Nat
  | [], place => place
  | c :: cs, (line, column) =>
      if offset < c.utf8Size then (line, column + offset)
      else locate (offset - c.utf8Size) cs
        (if c = '\n' then (line + 1, 0) else (line, column + c.utf8Size))

def Fault.place (f : Fault) (text : String) : Nat × Nat := locate f.offset text.toList (1, 0)

def messageAt (cause : Cause) (line column : Nat) : String :=
  cause.message ++ " at line " ++ toString line ++ " column " ++ toString column

end CodeActions.Json
