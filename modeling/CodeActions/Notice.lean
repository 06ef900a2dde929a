import CodeActions.Text.Quoted
/-!
# Notices

What the library tells about its work while it is at it.
-/
namespace CodeActions
open Text

inductive Level where
  | error
  | warn
  | info
  | debug
  | trace
deriving DecidableEq, Repr

namespace Level

/-- Levels of more detail have larger numbers. -/
def detail : Level → Nat
  | .error => 1
  | .warn => 2
  | .info => 3
  | .debug => 4
  | .trace => 5

def name : Level → String
  | .error => "ERROR"
  | .warn => "WARN"
  | .info => "INFO"
  | .debug => "DEBUG"
  | .trace => "TRACE"

end Level

inductive Notice where
  | registered (name : String)
  /-- `description` is the one of the provider that had the name. -/
  | replaced (name description : String)
  /-- `name` is the one the provider has now. -/
  | skipped (name : String)
  | found (count : Nat) (file : String)
  | unknown (name : String)
  | requested (action name : String)
  | declined (action name : String)
  | loaded (path : String)
  | noSettings (path : String)
deriving DecidableEq, Repr

namespace Notice

def level : Notice → Level
  | .replaced _ _ => .warn
  | .loaded _ => .info
  | _ => .debug

def origin : Notice → String
  | .registered _ | .replaced _ _ => "refactor_registry::refactoring::catalog"
  | .loaded _ | .noSettings _ => "refactor_registry::config"
  | _ => "refactor_registry::refactoring::service"

def message : Notice → String
  | .registered name => "Registered refactor '" ++ name ++ "'"
  | .replaced name description =>
      "Refactor '" ++ name ++ "' was already registered (" ++ description ++ "); replacing it"
  | .skipped name => "Cancellation requested, skipping refactor '" ++ name ++ "'"
  | .found count file =>
      "Found " ++ toString count ++ " applicable refactors in " ++ file
  | .unknown name => "No refactor registered as '" ++ name ++ "'"
  | .requested action name => "Getting edits for '" ++ action ++ "' from '" ++ name ++ "'"
  | .declined action name =>
      "Refactor '" ++ name ++ "' produced no edits for '" ++ action ++ "'"
  | .loaded path => "Loaded format settings from " ++ display path
  | .noSettings path => "No format settings at " ++ display path ++ ", using defaults"

def line (n : Notice) : String := n.level.name ++ " " ++ n.origin ++ ": " ++ n.message

end Notice
end CodeActions
