import CodeActions.Edit
import CodeActions.Offer
import CodeActions.Proofs.Json.Alike
import CodeActions.Proofs.Json.Codec
import CodeActions.Proofs.Json.Printing
import CodeActions.Settings
/-!
# Reading wire values

The shapes of the values that hosts and providers exchange, and that they are read accordingly:
from a text of a document the value is read that the document gives, and no other text of a
document is read at all.
-/
namespace CodeActions
open Json

def namedEntries : Entries [String, String] :=
  .required "name" .text (.required "description" .text .nil)

private theorem namedFields_follow : namedFields.Follow Codec.ReadsAs namedEntries :=
  .required _ Codec.readsAs_text (.required _ Codec.readsAs_text .nil)

namespace Action

def shape : Shape Action := .record namedEntries fun (name, description, ()) => ⟨name, description⟩

theorem readsAs : codec.ReadsAs shape :=
  Codec.readsAs_record namedEntries namedFields_follow (by decide) _ _ _

end Action

namespace Listing

def shape : Shape Listing := .record namedEntries fun (name, description, ()) => ⟨name, description⟩

theorem readsAs : codec.ReadsAs shape :=
  Codec.readsAs_record namedEntries namedFields_follow (by decide) _ _ _

end Listing

namespace Offer

def entries : Entries [String, String, Option Bool, List Action] :=
  .required "name" .text <| .required "description" .text <| .optional "inlineable" .flag <|
    .required "actions" Action.shape.list .nil

def shape : Shape Offer :=
  .record entries fun (name, description, inlineable, actions, ()) =>
    ⟨name, description, inlineable, actions⟩

theorem readsAs : codec.ReadsAs shape :=
  Codec.readsAs_record entries
    (.required _ Codec.readsAs_text <| .required _ Codec.readsAs_text <|
      .optional _ Codec.readsAs_flag <| .required _ (Codec.readsAs_list Action.readsAs) .nil)
    (by decide) _ _ _

end Offer

def positionShape : Shape UInt64 := .natural UInt64.size UInt64.ofNat

namespace Span

def entries : Entries [UInt64, UInt64] :=
  .required "start" positionShape (.required "length" positionShape .nil)

def shape : Shape Span := .record entries fun (start, length, ()) => ⟨start, length⟩

theorem readsAs : codec.ReadsAs shape :=
  Codec.readsAs_record entries
    (.required _ Codec.readsAs_position <| .required _ Codec.readsAs_position .nil)
    (by decide) _ _ _

end Span

namespace Change

def entries : Entries [Span, String] :=
  .required "span" Span.shape (.required "newText" .text .nil)

def shape : Shape Change := .record entries fun (span, newText, ()) => ⟨span, newText⟩

theorem readsAs : codec.ReadsAs shape :=
  Codec.readsAs_record entries
    (.required _ Span.readsAs <| .required _ Codec.readsAs_text .nil) (by decide) _ _ _

end Change

namespace FileChanges

def entries : Entries [String, List Change] :=
  .required "fileName" .text (.required "textChanges" Change.shape.list .nil)

def shape : Shape FileChanges :=
  .record entries fun (fileName, textChanges, ()) => ⟨fileName, textChanges⟩

theorem readsAs : codec.ReadsAs shape :=
  Codec.readsAs_record entries
    (.required _ Codec.readsAs_text <| .required _ (Codec.readsAs_list Change.readsAs) .nil)
    (by decide) _ _ _

end FileChanges

namespace Edit

def entries : Entries [List FileChanges, Option String, Option UInt64] :=
  .required "edits" FileChanges.shape.list <| .optional "renameFilename" .text <|
    .optional "renameLocation" positionShape .nil

def shape : Shape Edit :=
  .record entries fun (edits, renameFilename, renameLocation, ()) =>
    ⟨edits, renameFilename, renameLocation⟩

theorem readsAs : codec.ReadsAs shape :=
  Codec.readsAs_record entries
    (.required _ (Codec.readsAs_list FileChanges.readsAs) <|
      .optional _ Codec.readsAs_text <| .optional _ Codec.readsAs_position .nil)
    (by decide) _ _ _

end Edit

namespace Settings

def wordShape : Shape UInt32 := .natural UInt32.size UInt32.ofNat

def entries : Entries Known :=
  .optional "newLineCharacter" .text <| .optional "indentSize" wordShape <|
    .optional "tabSize" wordShape <| .optional "convertTabsToSpaces" .flag <|
    .optional "insertSpaceAfterCommaDelimiter" .flag <|
    .optional "insertSpaceBeforeAndAfterBinaryOperators" .flag <|
    .optional "placeOpenBraceOnNewLineForFunctions" .flag .nil

def shape : Shape Settings := .openRecord entries make

theorem known_follow : known.Follow Codec.ReadsAs entries :=
  .optional _ Codec.readsAs_text <| .optional _ Codec.readsAs_word <|
    .optional _ Codec.readsAs_word <| .optional _ Codec.readsAs_flag <|
    .optional _ Codec.readsAs_flag <| .optional _ Codec.readsAs_flag <|
    .optional _ Codec.readsAs_flag .nil

theorem readsAs : codec.ReadsAs shape := by
  intro d t depth h hdepth
  cases d with
  | null => obtain ⟨start, stop, rfl⟩ := h.null; cases depth <;> rfl
  | bool b => obtain ⟨start, stop, rfl⟩ := h.bool; cases depth <;> rfl
  | number l => obtain ⟨start, stop, n, rfl, -⟩ := h.number; cases depth <;> rfl
  | text ps => obtain ⟨start, stop, s, rfl, -⟩ := h.text; cases depth <;> rfl
  | list ds => obtain ⟨start, ts, stop, rfl, -⟩ := h.list; cases depth <;> rfl
  | object ms =>
    obtain ⟨start, ts, stop, rfl, hts⟩ := h.object
    cases depth with
    | zero => simp [Document.nesting] at hdepth
    | succ depth =>
      have hms := Nat.le_of_succ_le_succ hdepth
      have hrow := Fields.gather_of_shows known_follow hts hms
      have hothers := Fields.foundIn_readValue entries hts hms
      have hobject := Fields.readObject_eq_gather
        (fun name depth t => (fun v => [(name, v)]) <$> t.readValue depth) depth
        known (by decide) stop ts
      rw [known_follow.names_eq, hrow, hothers] at hobject
      rw [shape, Shape.meaning]
      simp only [codec, toOption_bind, hobject]
      cases entries.ofMembers ms with
      | none => rfl
      | some row => cases Document.valuesOfMembers? (ms.filter fun m => !entries.knows m.1) <;> rfl

end Settings

namespace Formatting

def entries : Entries [Option Settings] := .optional "options" Settings.shape .nil

def shape : Shape Formatting := .record entries fun (options, ()) => ⟨options⟩

theorem readsAs : codec.ReadsAs shape :=
  Codec.readsAs_record entries (.optional _ Settings.readsAs .nil) (by decide) _ _ _

end Formatting

inductive WireType where
  | listing
  | action
  | offer
  | span
  | change
  | fileChanges
  | edit
  | formatting

namespace WireType

abbrev Carrier : WireType → Type
  | listing => Listing
  | action => Action
  | offer => Offer
  | span => Span
  | change => Change
  | fileChanges => FileChanges
  | edit => Edit
  | formatting => Formatting

def codec : (w : WireType) → Codec w.Carrier
  | listing => Listing.codec
  | action => Action.codec
  | offer => Offer.codec
  | span => Span.codec
  | change => Change.codec
  | fileChanges => FileChanges.codec
  | edit => Edit.codec
  | formatting => Formatting.codec

def shape : (w : WireType) → Shape w.Carrier
  | listing => Listing.shape
  | action => Action.shape
  | offer => Offer.shape
  | span => Span.shape
  | change => Change.shape
  | fileChanges => FileChanges.shape
  | edit => Edit.shape
  | formatting => Formatting.shape

theorem readsAs : (w : WireType) → w.codec.ReadsAs w.shape
  | listing => Listing.readsAs
  | action => Action.readsAs
  | offer => Offer.readsAs
  | span => Span.readsAs
  | change => Change.readsAs
  | fileChanges => FileChanges.readsAs
  | edit => Edit.readsAs
  | formatting => Formatting.readsAs

/-- A text of a document is read as the value of the document's shape, if it has one. What is read
is the same for all documents that say the same. -/
theorem read_iff_meaning (w : WireType) {d : Document} {text : String} (h : d.Spells text)
    (hdepth : d.nesting ≤ depthLimit) :
    (∀ a, Json.read w.codec.read text = .ok a ↔ w.shape.meaning d = some a) ∧
      ∀ ⦃e : Document⦄ ⦃other : String⦄, Alike w.shape d e → e.Spells other →
        e.nesting ≤ depthLimit →
        ∀ a, Json.read w.codec.read text = .ok a ↔ Json.read w.codec.read other = .ok a := by
  refine ⟨w.readsAs.read_iff h hdepth, fun e other halike hother hdepth' a => ?_⟩
  rw [w.readsAs.read_iff h hdepth, w.readsAs.read_iff hother hdepth', halike.sound.2]

private def spanItems : List Value := [.number (.int 1), .number (.int 2)]

private def spanFields : List (String × Value) := ["start", "length"].zip spanItems

private def spanMembers : List (String × Value) :=
  [("length", .number (.int 2)), ("more", .null), ("start", .number (.int 1))]

private theorem spanItems_alike :
    Alike Span.shape (Value.list spanItems).document (Value.object spanMembers).document := by
  change Alike (.record Span.entries _) _ _
  have hnames : (Value.documentsOfMembers spanFields).map (fun m => Piece.text? m.1) =
      Span.entries.names.map some := by
    simp [spanFields, spanItems, Value.documentsOfMembers, Piece.text?_ofText, Span.entries,
      Entries.names]
  have hlist := Alike.form (fun (start, length, ()) => Span.mk start length)
    (show Span.entries.names.Nodup by decide) hnames
  have hmore := Alike.unknown (fun (start, length, ()) => Span.mk start length)
    (Piece.text?_ofText "more") (show "more" ∉ Span.entries.names by decide) .null
    (Value.documentsOfMembers spanFields)
  refine hlist.symm.trans (hmore.trans (.order Span.entries _ ?_))
  exact List.perm_append_singleton _ [_, _]

theorem read_span_forms :
    Json.read Span.codec.read "[1,2]" = .ok ⟨1, 2⟩ ∧
      Json.read Span.codec.read "\x7b\"length\":2,\"more\":null,\"start\":1\x7d" = .ok ⟨1, 2⟩ := by
  have hlist : (Value.list spanItems).document.Spells "[1,2]" :=
    Value.spells_toText (v := .list spanItems) ⟨trivial, trivial, trivial⟩
  have hobject : (Value.object spanMembers).document.Spells
      "\x7b\"length\":2,\"more\":null,\"start\":1\x7d" :=
    Value.spells_toText (v := .object spanMembers) ⟨trivial, trivial, trivial, trivial⟩
  obtain ⟨hread, hsame⟩ := read_iff_meaning .span hlist (by decide)
  have hvalue : Json.read Span.codec.read "[1,2]" = .ok ⟨1, 2⟩ := (hread _).mpr rfl
  exact ⟨hvalue, (hsame spanItems_alike hobject (by decide) _).mp hvalue⟩

/-- An object with one member, whose name is half of a surrogate pair. -/
private def halfPair : List (List Piece × Document) :=
  [([.code 'd' '8' '0' '0' 0xD800 rfl], .null)]

/-- Formatting needs no member and takes unknown ones, but names have to be texts. -/
theorem not_read_of_half_pair :
    (Document.object halfPair).Spells "\x7b\"\\ud800\":null\x7d" ∧
      (Document.object halfPair).nesting ≤ depthLimit ∧
      Formatting.entries.ofMembers halfPair = some (none, ()) ∧
      ∀ f, Json.read Formatting.codec.read "\x7b\"\\ud800\":null\x7d" ≠ .ok f := by
  have hspells : (Document.object halfPair).Spells "\x7b\"\\ud800\":null\x7d" := by
    have hnull := Lexeme.Written.cons .null trivial <|
      .mark .closeObject trivial (.blanks (w := []) (List.forall_mem_nil _))
    exact .mark .openObject trivial <| .cons (.text _) trivial <| .mark .colon trivial hnull
  refine ⟨hspells, by decide, rfl, fun f hread => ?_⟩
  have hmeaning := (Formatting.readsAs.read_iff hspells (by decide) f).mp hread
  cases hmeaning

end WireType
end CodeActions
