import CodeActions.Text.Unprintable
/-!
# Quoted texts

Two ways to put a text between double quotes. `jsonQuote` escapes what a JSON string must escape
and nothing else; `display` makes every character visible and is meant for people.
-/
namespace CodeActions.Text

def hexDigits (n : Nat) : List Char := Nat.toDigits 16 n

def jsonEscape (c : Char) : List Char :=
  if c = '"' then ['\\', '"']
  else if c = '\\' then ['\\', '\\']
  else if c = '\x08' then ['\\', 'b']
  else if c = '\t' then ['\\', 't']
  else if c = '\n' then ['\\', 'n']
  else if c = '\x0c' then ['\\', 'f']
  else if c = '\r' then ['\\', 'r']
  else if c.toNat < 0x10 then ['\\', 'u', '0', '0', '0', Nat.digitChar c.toNat]
  else if c.toNat < 0x20 then ['\\', 'u', '0', '0', '1', Nat.digitChar (c.toNat - 0x10)]
  else [c]

def jsonQuote (s : String) : List Char :=
  '"' :: s.toList.flatMap jsonEscape ++ ['"']

def displayEscape (c : Char) : List Char :=
  if c = '\x00' then ['\\', '0']
  else if c = '\t' then ['\\', 't']
  else if c = '\n' then ['\\', 'n']
  else if c = '\r' then ['\\', 'r']
  else if c = '"' then ['\\', '"']
  else if c = '\\' then ['\\', '\\']
  else if isUnprintable c then ['\\', 'u', '\x7b'] ++ hexDigits c.toNat ++ ['\x7d']
  else [c]

def display (s : String) : String :=
  String.ofList ('"' :: s.toList.flatMap displayEscape ++ ['"'])

end CodeActions.Text
