import CodeActions.Proofs.Settings.RoundTrip
/-!
# Reading wire values back

Whatever is written of the values that are exchanged is read back as it is: any offers and edits,
and formatting whose settings come from a JSON text and hold no doubles.
-/
namespace CodeActions
open Json

private theorem namedFields_renders (n : Nat) (name description : String) :
    namedFields.Renders n namedEntries (name, description, ()) :=
  .required _ (Codec.renders_text n name) (.required _ (Codec.renders_text n description) .nil)

theorem Action.renders (a : Action) : codec.Renders shape 1 a := by
  refine Codec.renders_record ?_ (by decide) ?_ _
  · exact namedFields_renders 0 a.name a.description
  · rfl

theorem Listing.renders (l : Listing) : codec.Renders shape 1 l := by
  refine Codec.renders_record ?_ (by decide) ?_ _
  · exact namedFields_renders 0 l.name l.description
  · rfl

theorem Offer.renders (o : Offer) : codec.Renders shape 3 o := by
  refine Codec.renders_record ?_ (by decide) ?_ _
  · have hactions := Codec.renders_list fun a (_ : a ∈ o.actions) => a.renders
    exact .required _ (Codec.renders_text 2 o.name) <|
      .required _ (Codec.renders_text 2 o.description) <|
      .optional _ (fun b _ => Codec.renders_flag 2 b) <| .required _ hactions .nil
  · rfl

theorem Span.renders (s : Span) : codec.Renders shape 1 s := by
  refine Codec.renders_record ?_ (by decide) ?_ _
  · exact .required _ (Codec.renders_position 0 s.start) <|
      .required _ (Codec.renders_position 0 s.length) .nil
  · rfl

theorem Change.renders (c : Change) : codec.Renders shape 2 c := by
  refine Codec.renders_record ?_ (by decide) ?_ _
  · exact .required _ c.span.renders <| .required _ (Codec.renders_text 1 c.newText) .nil
  · rfl

theorem FileChanges.renders (f : FileChanges) : codec.Renders shape 4 f := by
  refine Codec.renders_record ?_ (by decide) ?_ _
  · have hchanges := Codec.renders_list fun c (_ : c ∈ f.textChanges) => c.renders
    exact .required _ (Codec.renders_text 3 f.fileName) <| .required _ hchanges .nil
  · rfl

theorem Edit.renders (e : Edit) : codec.Renders shape 6 e := by
  refine Codec.renders_record ?_ (by decide) ?_ _
  · have hedits := Codec.renders_list fun f (_ : f ∈ e.edits) => f.renders
    exact .required _ hedits <| .optional _ (fun s _ => Codec.renders_text 5 s) <|
      .optional _ (fun p _ => Codec.renders_position 5 p) .nil
  · rfl

theorem Formatting.renders {f : Formatting} {n : Nat}
    (h : ∀ s ∈ f.options, Settings.codec.Renders Settings.shape n s) :
    codec.Renders shape (n + 1) f := by
  refine Codec.renders_record ?_ (by decide) ?_ _
  · exact .optional _ h .nil
  · rfl

namespace WireType

/-- What has to hold of a value to be read back. Settings have to come from a JSON text, to have no
doubles, and to leave room for the formatting around them. -/
def ReadsBack : (w : WireType) → w.Carrier → Prop
  | formatting, f => ∀ s ∈ f.options, (∃ text, Settings.ofJsonText text = .ok s) ∧
      Value.AllNumbersAmong Number.IsInt s.extra ∧
      (Formatting.codec.toValue f).document.nesting ≤ depthLimit
  | _, _ => True

theorem reads_back (w : WireType) (a : w.Carrier) (ha : w.ReadsBack a) :
    Json.read w.codec.read (w.codec.toText a) = .ok a := by
  cases w with
  | listing => exact (Listing.renders a).read_toText Listing.readsAs (by decide)
  | action => exact (Action.renders a).read_toText Action.readsAs (by decide)
  | offer => exact (Offer.renders a).read_toText Offer.readsAs (by decide)
  | span => exact (Span.renders a).read_toText Span.readsAs (by decide)
  | change => exact (Change.renders a).read_toText Change.readsAs (by decide)
  | fileChanges => exact (FileChanges.renders a).read_toText FileChanges.readsAs (by decide)
  | edit => exact (Edit.renders a).read_toText Edit.readsAs (by decide)
  | formatting =>
    have hoptions : ∀ s ∈ a.options,
        Settings.codec.Renders Settings.shape (depthLimit - 1) s := by
      intro s hs
      obtain ⟨⟨text, htext⟩, hint, hnesting⟩ := ha s hs
      obtain ⟨options⟩ := a
      obtain rfl : options = some s := hs
      have hinner : max (Settings.codec.toValue s).document.nesting 0 + 1 ≤ depthLimit := hnesting
      exact (Settings.sound_of_ofJsonText htext).renders hint (by omega)
    exact (Formatting.renders hoptions).read_toText Formatting.readsAs (Nat.le_refl _)

theorem reads_back_formatting :
    Json.read Formatting.codec.read "\x7b\"options\":\x7b\"tabSize\":8,\"a\":-1\x7d\x7d" =
      .ok ⟨some { tabSize := some 8, extra := [("a", .number (.int (-1)))] }⟩ := by
  refine reads_back .formatting
    ⟨some { tabSize := some 8, extra := [("a", .number (.int (-1)))] }⟩ ?_
  rintro s ⟨⟩
  refine ⟨⟨"\x7b\"a\":-1,\"tabSize\":8\x7d", ?_⟩, ⟨trivial, trivial⟩, by decide⟩
  have hspells :
      (Value.object [("a", .number (.int (-1))), ("tabSize", .number (.int 8))]).document.Spells
        "\x7b\"a\":-1,\"tabSize\":8\x7d" := Value.spells_toText ⟨trivial, trivial, trivial⟩
  exact Settings.ofJsonText_eq_ok_iff.mpr <|
    (Settings.readsAs.read_iff hspells (by decide) _).mpr rfl

end WireType
end CodeActions
