import CodeActions.Json.Fault
import CodeActions.Text.Digits
import CodeActions.Text.Inspect
import CodeActions.Yaml.Fault
/-!
# Failures

Everything that can go wrong for a caller, with the text that tells about it.
-/
namespace CodeActions
open Text

inductive IoCause where
  | system (code : Int)
  | other (text : String)

def IoCause.message : IoCause → String
  | .other text => text
  | .system code =>
      let text := match code with
        | 2 => "No such file or directory"
        | 13 => "Permission denied"
        | 21 => "Is a directory"
        | code => "Unknown error " ++ toString code
      text ++ " (os error " ++ toString code ++ ")"

/-- The cause that a text describes: a number of the system's if it is one of 32 bits. -/
def IoCause.ofText (text : String) : IoCause :=
  let (isNegative, digits) := match text.toList with
    | '-' :: cs => (true, cs)
    | '+' :: cs => (false, cs)
    | cs => (false, cs)
  match number? 10 digits with
  | none => .other text
  | some n =>
      if isNegative then if n ≤ Nat.pow 2 31 then .system (-n) else .other text
      else if n < Nat.pow 2 31 then .system n else .other text

inductive Failure where
  | duplicateName (name : String)
  | unknownName (name : String)
  | io (cause : IoCause)
  | yaml (fault : Yaml.Fault)
  | json (cause : Json.Cause) (line column : Nat)
  | fileNotFound (path : String)

namespace Failure

def ofJson (text : String) (f : Json.Fault) : Failure :=
  let (line, column) := f.place text
  .json f.cause line column

/-- The text of the failure that lies behind this one. A malformed YAML document has one, too, but
its text is not fixed. -/
def source? : Failure → Option String
  | .io cause => some cause.message
  | .yaml fault => fault.message?
  | .json cause line column => some (Json.messageAt cause line column)
  | .duplicateName _ | .unknownName _ | .fileNotFound _ => none

def hasSource : Failure → Bool
  | .io _ | .yaml _ | .json _ _ _ => true
  | .duplicateName _ | .unknownName _ | .fileNotFound _ => false

def message? : Failure → Option String
  | .duplicateName name => some ("Refactor already registered: " ++ name)
  | .unknownName name => some ("Unknown refactor: " ++ name)
  | .fileNotFound path => some ("File not found: " ++ path)
  | .io cause => some ("IO error: " ++ cause.message)
  | .yaml fault => fault.message?.map ("YAML parsing error: " ++ ·)
  | .json cause line column =>
      some ("JSON parsing error: " ++ Json.messageAt cause line column)

/-- The inspection of the failures that are just about a name. -/
def inspect? : Failure → Option Inspect
  | .duplicateName name => some (.tuple "DuplicateRefactor" [.text name])
  | .unknownName name => some (.tuple "UnknownRefactor" [.text name])
  | .fileNotFound path => some (.tuple "FileNotFound" [.text path])
  | _ => none

end Failure
end CodeActions
