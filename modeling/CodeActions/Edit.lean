import CodeActions.Json.Record
/-!
# Edits

What a provider answers when an action is chosen: changes of the texts of files, and perhaps a file
to rename or a place at which to start a rename.
-/
namespace CodeActions
open Json Text

private def positionInspect (p : UInt64) : Inspect := .number p.toNat

structure Span where
  start : UInt64
  length : UInt64
deriving DecidableEq, Repr

namespace Span

def codec : Codec Span :=
  .record "TextSpan" (.cons (.required "start" .position) (.cons (.required "length" .position) .nil))
    (fun (start, length, ()) => ⟨start, length⟩) (fun s => (s.start, s.length, ()))

/-- The position after the range, if positions reach that far. -/
def end? (s : Span) : Option UInt64 :=
  if s.start.toNat + s.length.toNat < UInt64.size then some (s.start + s.length) else none

def overflow : String := "attempt to add with overflow"

def inspect (s : Span) : Inspect :=
  .record "TextSpan"
    [("start", positionInspect s.start), ("length", positionInspect s.length)] false

end Span

structure Change where
  span : Span
  newText : String
deriving DecidableEq, Repr

namespace Change

def codec : Codec Change :=
  .record "TextChange" (.cons (.required "span" Span.codec) (.cons (.required "newText" .text) .nil))
    (fun (span, newText, ()) => ⟨span, newText⟩) (fun c => (c.span, c.newText, ()))

def replace (start length : UInt64) (newText : String) : Change := ⟨⟨start, length⟩, newText⟩

def insert (position : UInt64) (newText : String) : Change := replace position 0 newText

def inspect (c : Change) : Inspect :=
  .record "TextChange" [("span", c.span.inspect), ("new_text", .text c.newText)] false

end Change

structure FileChanges where
  fileName : String
  textChanges : List Change
deriving DecidableEq, Repr

namespace FileChanges

def codec : Codec FileChanges :=
  .record "FileTextChanges"
    (.cons (.required "fileName" .text) (.cons (.required "textChanges" (.list Change.codec)) .nil))
    (fun (fileName, textChanges, ()) => ⟨fileName, textChanges⟩)
    (fun f => (f.fileName, f.textChanges, ()))

def inspect (f : FileChanges) : Inspect :=
  .record "FileTextChanges" [("file_name", .text f.fileName),
    ("text_changes", .list (f.textChanges.map Change.inspect))] false

end FileChanges

structure Edit where
  edits : List FileChanges := []
  renameFilename : Option String := none
  renameLocation : Option UInt64 := none
deriving DecidableEq, Repr

namespace Edit

def codec : Codec Edit :=
  .record "RefactorEditInfo"
    (.cons (.required "edits" (.list FileChanges.codec)) <|
      .cons (.optional "renameFilename" .text) <| .cons (.optional "renameLocation" .position) .nil)
    (fun (edits, renameFilename, renameLocation, ()) => ⟨edits, renameFilename, renameLocation⟩)
    (fun e => (e.edits, e.renameFilename, e.renameLocation, ()))

def changeCount (e : Edit) : Nat :=
  e.edits.foldr (fun f n => f.textChanges.length + n) 0

def inspect (e : Edit) : Inspect :=
  .record "RefactorEditInfo" [("edits", .list (e.edits.map FileChanges.inspect)),
    ("rename_filename", .optional .text e.renameFilename),
    ("rename_location", .optional positionInspect e.renameLocation)] false

end Edit
end CodeActions
