import CodeActions.Json.Record
/-!
# Format settings

The formatting options of a host. Seven of them are known; `extra` holds all others, sorted by key
and without values for the known names.
-/
namespace CodeActions
open Json Text

structure Settings where
  newLineCharacter : Option String := none
  indentSize : Option UInt32 := none
  tabSize : Option UInt32 := none
  convertTabsToSpaces : Option Bool := none
  insertSpaceAfterCommaDelimiter : Option Bool := none
  insertSpaceBeforeAndAfterBinaryOperators : Option Bool := none
  placeOpenBraceOnNewLineForFunctions : Option Bool := none
  extra : List (String × Value) := []

namespace Settings

instance : Inhabited Settings := ⟨{}⟩

abbrev Known : List Type :=
  [Option String, Option UInt32, Option UInt32, Option Bool, Option Bool, Option Bool, Option Bool]

def known : Fields Known :=
  .cons (.optional "newLineCharacter" .text) <|
  .cons (.optional "indentSize" .word) <|
  .cons (.optional "tabSize" .word) <|
  .cons (.optional "convertTabsToSpaces" .flag) <|
  .cons (.optional "insertSpaceAfterCommaDelimiter" .flag) <|
  .cons (.optional "insertSpaceBeforeAndAfterBinaryOperators" .flag) <|
  .cons (.optional "placeOpenBraceOnNewLineForFunctions" .flag) .nil

/-- Settings from the known options and all other members in the order they were read. -/
def make : Row Known → List (String × Value) → Settings
  | (newLine, indent, tab, tabs, comma, operators, brace, ()), others =>
      ⟨newLine, indent, tab, tabs, comma, operators, brace, Value.sorted others⟩

def row (s : Settings) : Row Known :=
  (s.newLineCharacter, s.indentSize, s.tabSize, s.convertTabsToSpaces,
    s.insertSpaceAfterCommaDelimiter, s.insertSpaceBeforeAndAfterBinaryOperators,
    s.placeOpenBraceOnNewLineForFunctions, ())

def title : String := "FormatCodeSettings"

/-- Settings have no list form, and every member that is not a known option is read and kept. -/
def codec : Codec Settings where
  read
    | 0, .object start _ _ => .error (Tree.tooDeep start)
    | depth + 1, .object _ members ending => do
        let (r, others) ← known.readObject
          (fun name depth t => (fun v => [(name, v)]) <$> t.readValue depth) depth members ending
        return make r others
    | _, t => .error (t.wrongType ("struct " ++ title))
  ofValue? := fun
    | .object ms => do
        let others := ms.filter fun (k, _) => !known.names.contains k
        return make (← known.ofMembers? ms) (Value.canonicalMembers others)
    | _ => none
  toValue s := .object (known.toMembers s.row ++ s.extra)

/-- The compact text: the known options that are set, then the others by key. -/
def toText (s : Settings) : String := codec.toText s

def same (s t : Settings) : Bool :=
  s.newLineCharacter == t.newLineCharacter && s.indentSize == t.indentSize
    && s.tabSize == t.tabSize && s.convertTabsToSpaces == t.convertTabsToSpaces
    && s.insertSpaceAfterCommaDelimiter == t.insertSpaceAfterCommaDelimiter
    && s.insertSpaceBeforeAndAfterBinaryOperators == t.insertSpaceBeforeAndAfterBinaryOperators
    && s.placeOpenBraceOnNewLineForFunctions == t.placeOpenBraceOnNewLineForFunctions
    && Value.sameMembers s.extra t.extra

def withNewLine (s : Settings) (newLine : String) : Settings :=
  { s with newLineCharacter := some newLine }

def inspect (s : Settings) : Inspect :=
  let word (n : UInt32) : Inspect := .number n.toNat
  .record title [
    ("new_line_character", .optional .text s.newLineCharacter),
    ("indent_size", .optional word s.indentSize),
    ("tab_size", .optional word s.tabSize),
    ("convert_tabs_to_spaces", .optional .flag s.convertTabsToSpaces),
    ("insert_space_after_comma_delimiter", .optional .flag s.insertSpaceAfterCommaDelimiter),
    ("insert_space_before_and_after_binary_operators",
      .optional .flag s.insertSpaceBeforeAndAfterBinaryOperators),
    ("place_open_brace_on_new_line_for_functions",
      .optional .flag s.placeOpenBraceOnNewLineForFunctions),
    ("extra", .map (Value.inspectMembers s.extra))] false

end Settings

structure Formatting where
  options : Option Settings := none

namespace Formatting

def codec : Codec Formatting :=
  .record "FormatContext" (.cons (.optional "options" Settings.codec) .nil)
    (fun (options, ()) => ⟨options⟩) (fun f => (f.options, ()))

def same (f g : Formatting) : Bool :=
  match f.options, g.options with
  | none, none => true
  | some s, some t => s.same t
  | _, _ => false

def newLine? (f : Formatting) : Option String :=
  (f.options.bind (·.newLineCharacter)).filter (· ≠ "")

def inspect (f : Formatting) : Inspect :=
  .record "FormatContext" [("options", .optional Settings.inspect f.options)] false

end Formatting
end CodeActions
