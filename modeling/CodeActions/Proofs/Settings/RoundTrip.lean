import CodeActions.Proofs.Json.RoundTrip
import CodeActions.Proofs.Settings.Extra
import CodeActions.Proofs.Wire
/-!
# Reading settings back

Settings that were loaded, from JSON or YAML, are written without repeating a key and read back as
they are, as long as there are no doubles among their unknown options.
-/
namespace CodeActions.Settings
open Json

theorem known_renders (s : Settings) (n : Nat) : known.Renders n entries s.row :=
  .optional _ (fun _ _ => Codec.renders_text n _) <|
    .optional _ (fun _ _ => Codec.renders_word n _) <|
    .optional _ (fun _ _ => Codec.renders_word n _) <|
    .optional _ (fun _ _ => Codec.renders_flag n _) <|
    .optional _ (fun _ _ => Codec.renders_flag n _) <|
    .optional _ (fun _ _ => Codec.renders_flag n _) <|
    .optional _ (fun _ _ => Codec.renders_flag n _) .nil

private theorem knows_ofText (name : String) :
    entries.knows (Piece.ofText name) = entries.names.contains name := by
  rw [Entries.knows, Piece.text?_ofText]
  rfl

private theorem filter_documents (s : Settings) {others : List (String × Value)}
    (h : ∀ m ∈ others, m.1 ∉ known.names) :
    (Value.documentsOfMembers (known.toMembers s.row ++ others)).filter
        (fun m => !entries.knows m.1) = Value.documentsOfMembers others := by
  have hknown : ∀ ms : List (String × Value), (∀ m ∈ ms, m.1 ∈ entries.names) →
      (Value.documentsOfMembers ms).filter (fun m => !entries.knows m.1) = [] := by
    intro ms hms
    induction ms with
    | nil => rfl
    | cons m ms ih =>
      obtain ⟨hm, hms⟩ := List.forall_mem_cons.mp hms
      rw [Value.documentsOfMembers, List.filter_cons_of_neg, ih hms]
      simpa [knows_ofText] using hm
  have hunknown : (Value.documentsOfMembers others).filter (fun m => !entries.knows m.1) =
      Value.documentsOfMembers others := by
    induction others with
    | nil => rfl
    | cons m ms ih =>
      obtain ⟨hm, hms⟩ := List.forall_mem_cons.mp h
      rw [Value.documentsOfMembers, List.filter_cons_of_pos, ih hms]
      have hm : m.1 ∉ entries.names := known_follow.names_eq ▸ hm
      simpa [knows_ofText] using hm
  rw [Fields.documentsOfMembers_append, List.filter_append, hunknown, hknown]
  · rfl
  · intro m hm
    exact known_follow.names_eq ▸
      (Fields.keys_toMembers_sublist known s.row).subset (List.mem_map_of_mem hm)

theorem Sound.renders {s : Settings} (h : s.Sound)
    (hint : Value.AllNumbersAmong Number.IsInt s.extra) {n : Nat}
    (hnesting : (codec.toValue s).document.nesting ≤ n) : codec.Renders shape n s where
  meaning := by
    have hunknown : ∀ m ∈ s.extra, m.1 ∉ known.names := fun m hm => (h.isExtra m hm).unknown
    have hrow : entries.ofMembers (Value.documentsOfMembers (known.toMembers s.row ++ s.extra)) =
        some s.row :=
      (known_renders s n).ofMembers_eq (by decide) fun name hname hmem => by
        obtain ⟨m, hm, rfl⟩ := List.mem_map.mp hmem
        exact hunknown m hm hname
    have hothers := Value.valuesOfMembers?_documents s.extra hint
      (Value.allNumbersAmong_iff.mpr fun m hm => (h.isExtra m hm).fits)
    have hcanonical := Value.canonicalMembers_of_isCanonical s.extra
      (Value.isCanonicalAmong_iff.mpr fun m hm => (h.isExtra m hm).canonical)
    change shape.meaning (.object (Value.documentsOfMembers (known.toMembers s.row ++ s.extra))) = _
    rw [shape, Shape.meaning]
    simp only [hrow, filter_documents s hunknown, hothers]
    change some (make s.row (Value.canonicalMembers s.extra)) = some s
    rw [hcanonical, row, make, Value.sorted_of_byKey h.byKey]
  isInt := Value.allNumbersAmong_iff.mpr <| List.forall_mem_append.mpr
    ⟨(known_renders s n).forall_toMembers fun _ _ _ _ ha => ha.isInt,
      Value.allNumbersAmong_iff.mp hint⟩
  fits := Value.allNumbersAmong_iff.mpr <| List.forall_mem_append.mpr
    ⟨(known_renders s n).forall_toMembers fun _ _ _ _ ha => ha.fits,
      fun m hm => (h.isExtra m hm).fits⟩
  noRepeats := by
    refine ⟨?_, Value.noRepeatsAmong_iff.mpr <| List.forall_mem_append.mpr
      ⟨(known_renders s n).forall_toMembers fun _ _ _ _ ha => ha.noRepeats,
        fun m hm => Value.noRepeats_of_isCanonical m.2 (h.isExtra m hm).canonical⟩⟩
    have hkeys := Fields.keys_toMembers_sublist known s.row
    rw [List.map_append, List.nodup_append]
    refine ⟨hkeys.nodup (by decide), Value.nodup_of_byKey h.byKey, ?_⟩
    rintro name hname _ hother rfl
    obtain ⟨m, hm, rfl⟩ := List.mem_map.mp hother
    exact (h.isExtra m hm).unknown (hkeys.subset hname)
  nesting := hnesting

/-- Loaded settings, also with another newline, are written as a text that repeats no key in any
object and that is read as the same settings. -/
theorem ofJsonText_toText {text : String} {s t : Settings}
    (hs : ofJsonText text = .ok s ∨ ofYamlText text = .ok s)
    (ht : t = s ∨ ∃ newLine, t = s.withNewLine newLine)
    (hint : Value.AllNumbersAmong Number.IsInt t.extra)
    (hnesting : (codec.toValue t).document.nesting ≤ depthLimit) :
    (Json.read Tree.readDocument t.toText = .ok (codec.toValue t) ∧
        (codec.toValue t).NoRepeats) ∧
      ofJsonText t.toText = .ok t := by
  have hsound : s.Sound := hs.elim sound_of_ofJsonText sound_of_ofYamlText
  have hsound : t.Sound := by
    rcases ht with rfl | ⟨newLine, rfl⟩
    · exact hsound
    · exact hsound.withNewLine newLine
  have hrenders := hsound.renders hint hnesting
  refine ⟨⟨?_, hrenders.noRepeats⟩,
    ofJsonText_eq_ok_iff.mpr (hrenders.read_toText readsAs (Nat.le_refl _))⟩
  obtain ⟨tree, htree, hread⟩ :=
    read_of_spells Tree.readDocument (Value.spells_toText hrenders.isInt)
  have hvalue := Tree.readDocument_of_shows _ htree hnesting
  rw [Value.value?_document _ hrenders.isInt hrenders.fits] at hvalue
  exact hread.trans (toOption_eq_some_iff.mp hvalue)

theorem ofJsonText_toText_indented :
    ofJsonText "\x7b\"newLineCharacter\":\"\\n\",\"indentSize\":4,\"a\":[null]\x7d" =
      .ok ⟨some "\n", some 4, none, none, none, none, none, [("a", .list [.null])]⟩ := by
  let s : Settings := { indentSize := some 4, extra := [("a", .list [.null])] }
  have hspells :
      (Value.object [("a", .list [.null]), ("indentSize", .number (.int 4))]).document.Spells
        "\x7b\"a\":[null],\"indentSize\":4\x7d" :=
    Value.spells_toText ⟨⟨trivial, trivial⟩, trivial, trivial⟩
  have hread := ofJsonText_eq_ok_iff.mpr ((readsAs.read_iff hspells (by decide) s).mpr rfl)
  have hint : Value.AllNumbersAmong Number.IsInt s.extra := ⟨⟨trivial, trivial⟩, trivial⟩
  exact (ofJsonText_toText (.inl hread) (.inr ⟨"\n", rfl⟩) hint (by decide)).2

end CodeActions.Settings
