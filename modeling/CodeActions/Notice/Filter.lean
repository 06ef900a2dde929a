import CodeActions.Notice
import CodeActions.Text.Digits
/-!
# Filters of notices

A filter is a list of directives, written with commas between them: a level for everything, or a
target with a level for what comes from there. Of the directives that apply to a notice, the one
with the longest target decides.
-/
namespace CodeActions
open Text

structure Directive where
  /-- How an origin starts that the directive is about; without one it is about all. -/
  target : Option String
  limit : Option Level
deriving DecidableEq, Repr

namespace Directive

def word? (s : String) : Option (Option Level) :=
  [("off", none), ("error", some .error), ("warn", some .warn), ("info", some .info),
    ("debug", some .debug), ("trace", some .trace)].lookup s.toLower

def digits? (s : String) : Option (Option Level) := do
  let n ← number? 10 s.toList
  [none, some .error, some .warn, some .info, some .debug, some .trace][n]?

def limit? (s : String) : Option (Option Level) := (word? s).or (digits? s)

def starts (c : Char) : Bool := c.isAlphanum || c = '-' || c = ':' || c = '_'

/-- Reads a directive. A target alone, or with nothing after its equals sign, passes all levels. -/
def ofText? (s : String) : Option Directive :=
  let cs := s.toList
  if !cs.head?.any starts then none
  else
    let before := String.ofList (cs.takeWhile (· ≠ '='))
    match cs.dropWhile (· ≠ '=') with
    | [] => some <| match limit? s with
        | some limit => ⟨none, limit⟩
        | none => ⟨some s, some .trace⟩
    | ['='] => some ⟨some before, some .trace⟩
    | _ :: after => (limit? (String.ofList after)).map fun limit => ⟨some before, limit⟩

def concerns (d : Directive) (origin : String) : Bool :=
  d.target.all fun target => target.toList.isPrefixOf origin.toList

/-- Directives with longer targets come first. -/
def weight (d : Directive) : Nat := d.target.elim 0 (·.utf8ByteSize + 1)

end Directive

/-- Directives, of which the last one for a target holds. -/
structure Filter where
  directives : List Directive

namespace Filter

def ofDirectives (ds : List Directive) : Filter :=
  ⟨if ds.isEmpty then [⟨none, some .error⟩] else ds⟩

def pieces (s : String) : List String :=
  (s.splitOn ",").filter (· ≠ "")

def ofText? (s : String) : Option Filter := ofDirectives <$> (pieces s).mapM Directive.ofText?

def ofTextLossy (s : String) : Filter := ofDirectives ((pieces s).filterMap Directive.ofText?)

/-- The filter that a setting of the user asks for, or the given one if it is absent or wrong. -/
def choose (setting : Option String) (fallback : String) : Filter :=
  (setting.bind ofText?).getD (ofTextLossy fallback)

/-- The directive that decides on what comes from an origin: of the longest targets the last. -/
def deciding? (f : Filter) (origin : String) : Option Directive :=
  (f.directives.filter (·.concerns origin)).foldl (fun best d => match best with
    | some b => if b.weight ≤ d.weight then some d else some b
    | none => some d) none

def passes (f : Filter) (n : Notice) : Bool :=
  match (f.deciding? n.origin).bind (·.limit) with
  | some limit => n.level.detail ≤ limit.detail
  | none => false

end Filter

/-- Where notices go: nowhere, until a filter is installed for good. -/
structure Logger where
  filter : Option Filter := none

namespace Logger

def standard : String := "info"

/-- Installs a filter unless there is one; whether there was none. -/
def install (l : Logger) (setting : Option String) (fallback : String) : Bool × Logger :=
  match l.filter with
  | some _ => (false, l)
  | none => (true, ⟨some (Filter.choose setting fallback)⟩)

/-- Installs filters in turn; `none` asks for the standard one. -/
def installAll (l : Logger) (setting : Option String) : List (Option String) → List Bool × Logger
  | [] => ([], l)
  | fallback :: rest =>
      let (isFirst, l) := l.install setting (fallback.getD standard)
      let (answers, l) := l.installAll setting rest
      (isFirst :: answers, l)

def lines (l : Logger) (notices : List Notice) : List String :=
  match l.filter with
  | none => []
  | some f => (notices.filter f.passes).map Notice.line

end Logger
end CodeActions
