import CodeActions.Settings
import CodeActions.Signal
/-!
# Requests

All that a provider sees of one request, and what follows from it: the length of the selection and
the newline to use in edits. The newline is resolved from the formatting and the host alone, so it
is defined for everything that has these two.
-/
namespace CodeActions
open Text

structure SourceFile where
  name : String
  text : String
deriving DecidableEq, Repr

def SourceFile.inspect (f : SourceFile) : Inspect :=
  .record "SourceFile" [("file_name", .text f.name), ("text", .text f.text)] false

/-- The editor or tool that makes requests; it may have a newline of its own. -/
structure Host where
  newLine : Option String := none
deriving DecidableEq, Repr

def Host.system : Host := ⟨some "\n"⟩

/-- The newline where neither the formatting nor the host has one. -/
def defaultNewLine : String := "\r\n"

/-- What has a host and says something about formatting. -/
class Formatted (ρ : Type) where
  host : ρ → Host
  formatting : ρ → Formatting

/-- The newline to use in edits: the first that is not empty among the one asked for, the host's
and the default. -/
def newLineFor {ρ : Type} [Formatted ρ] (r : ρ) : String :=
  ((Formatted.formatting r).newLine?.or ((Formatted.host r).newLine.filter (· ≠ ""))).getD
    defaultNewLine

structure TextChanges where
  newLine : String
  formatting : Formatting

namespace TextChanges

def of {ρ : Type} [Formatted ρ] (r : ρ) : TextChanges := ⟨newLineFor r, Formatted.formatting r⟩

def inspect (c : TextChanges) : Inspect :=
  .record "TextChangesContext"
    [("new_line_character", .text c.newLine), ("format_context", c.formatting.inspect)] false

end TextChanges

/-- A request for fixes, of which only the host and the formatting matter here. -/
structure FixRequest where
  host : Host
  formatting : Formatting

instance : Formatted FixRequest := ⟨FixRequest.host, FixRequest.formatting⟩

/-- A request at a position of a file, or about the selection from `start` to `stop`. -/
structure Request where
  file : SourceFile
  start : UInt64 := 0
  stop : Option UInt64 := none
  roots : List String := []
  signal : Option Handle := none
  host : Host := {}
  formatting : Formatting := {}

instance : Formatted Request := ⟨Request.host, Request.formatting⟩

namespace Request

/-- The length of the selection, which is negative if it ends before it starts; positions further
apart than lengths reach wrap around. -/
def selectionLength (r : Request) : Int64 :=
  match r.stop with
  | none => 0
  | some stop => (stop - r.start).toInt64

def inspect (r : Request) (isCancelled : Bool) : Inspect :=
  .record "RefactorContext" [
    ("file", .text r.file.name),
    ("start_position", .number r.start.toNat),
    ("end_position", .optional (fun p : UInt64 => .number p.toNat) r.stop),
    ("cancellation_requested", .flag isCancelled),
    ("format_context", r.formatting.inspect)] true

end Request
end CodeActions
