import CodeActions.Proofs.Json.Reordering
import CodeActions.Proofs.Settings.Reading
/-!
# The canonical text of settings

Settings do not depend on the order in which options are given, and their text has one order for
them (`text_is_canonical`): the known options as they are declared, then all others by the bytes of
their keys, and so on inside them.
-/
namespace CodeActions

namespace Json
open Document

def Shape.IsScalar {α : Type} : Shape α → Prop
  | .text | .flag | .natural .. => True
  | .list _ | .record .. | .openRecord .. => False

private theorem Shape.meaning_of_scalar {α : Type} {s : Shape α} (hs : s.IsScalar) {d : Document}
    (hd : d.nesting ≠ 0) : s.meaning d = none := by
  cases d with
  | list ds => cases s <;> first | rfl | exact hs.elim
  | object ms => cases s <;> first | rfl | exact hs.elim
  | _ => exact absurd rfl hd

private theorem Document.Reordered.meaning_of_scalar {α : Type} {s : Shape α} (hs : s.IsScalar)
    {d e : Document} (h : Reordered d e) : (d = .null ↔ e = .null) ∧ s.meaning d = s.meaning e := by
  by_cases hd : d.nesting = 0
  · rw [h.eq_of_flat hd]
    exact ⟨Iff.rfl, rfl⟩
  · have he : e.nesting ≠ 0 := h.nesting_eq ▸ hd
    rw [Shape.meaning_of_scalar hs hd, Shape.meaning_of_scalar hs he]
    exact ⟨⟨fun hnull => absurd (congrArg nesting hnull) hd,
      fun hnull => absurd (congrArg nesting hnull) he⟩, rfl⟩

namespace Entries

def AreScalars {αs : List Type} : Entries αs → Prop
  | .nil => True
  | .required _ s es | .optional _ s es => s.IsScalar ∧ es.AreScalars

private theorem isScalar_of_has {α : Type} {αs : List Type} {name : String} {s : Shape α}
    {es : Entries αs} (h : es.Has name s) (hes : es.AreScalars) : s.IsScalar := by
  induction h with
  | required es => exact hes.1
  | optional es => exact hes.1
  | afterRequired other r h ih => exact ih hes.2
  | afterOptional other r h ih => exact ih hes.2

end Entries

namespace Entries
variable {α : Type} {αs : List Type} {name : String} {s : Shape α} {es : Entries αs}
  {ms : List (List Piece × Document)}

private theorem exists_of_ofMembers_required {row : Row (α :: αs)}
    (h : (Entries.required name s es).ofMembers ms = some row) :
    (∃ d ∈ named name ms, d ≠ .null) ∧ es.ofMembers ms = some row.2 := by
  obtain ⟨⟨d, hnamed, hmeaning⟩, hrest⟩ := ofMembers_required_eq_some_iff.mp h
  refine ⟨⟨d, hnamed ▸ List.mem_singleton_self d, ?_⟩, hrest⟩
  rintro rfl
  rw [s.meaning_null] at hmeaning
  cases hmeaning

private theorem isSome_iff_of_ofMembers_optional {row : Row (Option α :: αs)}
    (h : (Entries.optional name s es).ofMembers ms = some row) :
    row.1.isSome ↔ ∃ d ∈ named name ms, d ≠ .null := by
  obtain ⟨⟨hlength, hmeaning⟩, hrow, -⟩ := ofMembers_optional_eq_some_iff.mp h
  rcases hnamed : named name ms with _ | ⟨d, _ | ⟨e, ds⟩⟩
  · simp [hrow, hnamed]
  · rcases hmeaning d (hnamed ▸ List.mem_cons_self) with rfl | ⟨a, ha⟩
    · simp [hrow, hnamed, s.meaning_null]
    · have hd : d ≠ .null := by
        rintro rfl
        rw [s.meaning_null] at ha
        cases ha
      simp [hrow, hnamed, ha, hd]
  · simp [hnamed] at hlength

end Entries

private theorem Fields.Follow.mem_keys_toMembers_iff {R : ∀ ⦃α : Type⦄, Codec α → Shape α → Prop}
    {αs : List Type} {fs : Fields αs} {es : Entries αs} {row : Row αs}
    {ms : List (List Piece × Document)} {name : String} (h : fs.Follow R es)
    (hnodup : fs.names.Nodup) (hrow : es.ofMembers ms = some row) (hname : name ∈ fs.names) :
    name ∈ (fs.toMembers row).map Prod.fst ↔ ∃ d ∈ Document.named name ms, d ≠ .null := by
  induction h with
  | nil => cases hname
  | @required α αs field c s fs es hc hrest ih =>
    obtain ⟨a, row⟩ := row
    obtain ⟨-, hnodup⟩ := List.nodup_cons.mp hnodup
    obtain ⟨hgiven, hrow⟩ := Entries.exists_of_ofMembers_required hrow
    change name ∈ field :: (fs.toMembers row).map Prod.fst ↔ _
    by_cases hfield : name = field
    · subst hfield
      exact iff_of_true List.mem_cons_self hgiven
    · rw [List.mem_cons, or_iff_right hfield]
      exact ih hnodup hrow (List.mem_of_ne_of_mem hfield hname)
  | @optional α αs field c s fs es hc hrest ih =>
    obtain ⟨a, row⟩ := row
    obtain ⟨hfresh, hnodup⟩ := List.nodup_cons.mp hnodup
    have hgiven := Entries.isSome_iff_of_ofMembers_optional hrow
    have hrow := (Entries.ofMembers_optional_eq_some_iff.mp hrow).2.2
    have hkeys : (toMembers (.cons (.optional field c) fs) (a, row)).map Prod.fst =
        (a.map fun _ => field).toList ++ (fs.toMembers row).map Prod.fst := by
      cases a <;> rfl
    rw [hkeys, List.mem_append]
    by_cases hfield : name = field
    · subst hfield
      have habsent : name ∉ (fs.toMembers row).map Prod.fst :=
        fun hmem => hfresh ((keys_toMembers_sublist fs row).subset hmem)
      rw [or_iff_left habsent, ← hgiven]
      cases a <;> simp
    · rw [← ih hnodup hrow (List.mem_of_ne_of_mem hfield hname)]
      cases a <;> simp [hfield]

end Json

namespace Settings
open Json Document

def others (ms : List (List Piece × Document)) : List (List Piece × Document) :=
  ms.filter fun m => !entries.knows m.1

private theorem meaning_object (ms : List (List Piece × Document)) :
    shape.meaning (.object ms) = (entries.ofMembers ms).bind fun row =>
      ((members? (others ms)).map Value.sorted).map fun extra => { make row [] with extra } := by
  rw [shape, Shape.meaning, members?, others]
  cases entries.ofMembers ms with
  | none => rfl
  | some row =>
    cases valuesOfMembers? (ms.filter fun m => !entries.knows m.1) <;> rfl

private theorem meaning_replace {d e : Document} (h : Reordered d e) (hd : d.NoRepeats) (k : List Piece)
    (pre post : List (List Piece × Document)) :
    shape.meaning (.object (pre ++ (k, d) :: post)) =
      shape.meaning (.object (pre ++ (k, e) :: post)) := by
  rw [meaning_object, meaning_object]
  have hothers : members? (others (pre ++ (k, d) :: post)) =
      members? (others (pre ++ (k, e) :: post)) := by
    simp only [others, List.filter_append, List.filter_cons]
    by_cases hk : entries.knows k = true
    · simp only [hk, Bool.not_true, Bool.false_eq_true, if_false]
    · simp only [hk, Bool.not_false, if_true]
      exact members?_replace (h.canonical?_eq hd) k _ _
  cases hk : Piece.text? k with
  | none =>
    have hnone (d : Document) : members? (others (pre ++ (k, d) :: post)) = none := by
      have hunknown : entries.knows k = false := by rw [Entries.knows, hk]; rfl
      have hmember : member? (k, d) = none := by rw [member?, hk]; rfl
      simp [others, hunknown, members?_eq, hmember]
    rw [hnone, hnone]
    cases entries.ofMembers (pre ++ (k, d) :: post) <;>
      cases entries.ofMembers (pre ++ (k, e) :: post) <;> rfl
  | some name =>
    have hscalars : entries.AreScalars :=
      ⟨trivial, trivial, trivial, trivial, trivial, trivial, trivial, trivial⟩
    have hrow := Entries.ofMembers_replace hk pre post entries fun α s hs =>
      h.meaning_of_scalar (Entries.isScalar_of_has hs hscalars)
    rw [hothers, hrow]

private theorem keys_others_sublist (ms : List (List Piece × Document)) :
    (keys (others ms)).Sublist (keys ms) := List.filter_sublist.filterMap _

private theorem meaning_reordered {d e : Document} (h : Reordered d e) (hd : d.NoRepeats) :
    shape.meaning d = shape.meaning e := by
  induction h with
  | refl d => rfl
  | symm h ih => exact (ih (h.noRepeats_iff.mpr hd)).symm
  | trans h h' ih ih' => exact (ih hd).trans (ih' (h.noRepeats_iff.mp hd))
  | item => rfl
  | @member d e k pre post h ih =>
    exact meaning_replace h
      (noRepeatsAmong_iff.mp hd.2 (k, d) (List.mem_append_right _ List.mem_cons_self)) k pre post
  | @order ms ns h =>
    have hothers : (members? (others ms)).map Value.sorted =
        (members? (others ns)).map Value.sorted :=
      sorted_members?_perm (h.filter _) ((keys_others_sublist ms).nodup hd.1)
    rw [meaning_object, meaning_object, entries.ofMembers_perm h, hothers]

/-- Settings text is canonical. Two texts of documents that differ only in the order of members
within objects, at any depth, and repeat no key are both read as the same settings, or neither is
read. If there are no doubles among their unknown options, the text of these settings has the known
options first that are given and not `null`, as they are declared, and then the unknown ones. All
objects among these, and themselves, are in the strict order of the UTF-8 bytes of their keys, and
lists are as they were given. -/
theorem text_is_canonical {d e : Document} {text text' : String} (hd : d.Spells text)
    (he : e.Spells text') (horder : d.Reordered e) (hkeys : d.NoRepeats)
    (hdepth : d.nesting ≤ depthLimit) :
    ((∃ f, ofJsonText text = .error f) ∧ ∃ f, ofJsonText text' = .error f) ∨
      ∃ s, ofJsonText text = .ok s ∧ ofJsonText text' = .ok s ∧
        (Value.AllNumbersAmong Number.IsInt s.extra →
          ∃ ms, d = .object ms ∧ s.Holds ms ∧
            let options := known.toMembers s.row
            (Value.object (options ++ s.extra)).document.Spells s.toText ∧
              (options.map Prod.fst).Sublist known.names ∧
              (∀ name ∈ known.names,
                name ∈ options.map Prod.fst ↔ ∃ x ∈ named name ms, x ≠ .null) ∧
              (Value.object s.extra).EveryObject Value.ByBytes) := by
  have hread (s : Settings) : ofJsonText text = .ok s ↔ shape.meaning d = some s :=
    ofJsonText_eq_ok_iff.trans (readsAs.read_iff hd hdepth s)
  have hread' (s : Settings) : ofJsonText text' = .ok s ↔ shape.meaning d = some s := by
    rw [meaning_reordered horder hkeys]
    exact ofJsonText_eq_ok_iff.trans (readsAs.read_iff he (horder.nesting_eq ▸ hdepth) s)
  cases hs : ofJsonText text with
  | error f =>
    refine .inl ⟨⟨f, rfl⟩, ?_⟩
    cases hs' : ofJsonText text' with
    | error f' => exact ⟨f', rfl⟩
    | ok s =>
      have hsame := (hread s).mpr ((hread' s).mp hs')
      rw [hs] at hsame
      cases hsame
  | ok s =>
    have hmeaning := (hread s).mp hs
    refine .inr ⟨s, rfl, (hread' s).mpr hmeaning, fun hint => ?_⟩
    obtain ⟨ms, others, rfl, hadmits, hothers, hfields⟩ := meaning_eq_some_iff.mp hmeaning
    have hsound := sound_of_ofJsonText hs
    have hrow : entries.ofMembers ms = some s.row :=
      ofMembers_eq_some_iff.mpr ⟨hadmits, by rw [hfields]; rfl⟩
    have hcanonical : (Value.object s.extra).IsCanonical :=
      ⟨hsound.byKey, Value.isCanonicalAmong_iff.mpr fun m hm => (hsound.isExtra m hm).canonical⟩
    refine ⟨ms, rfl, holds_of_others hothers hfields, ?_, ?_, ?_, ?_⟩
    · exact Value.spells_toText (hsound.renders hint (Nat.le_refl _)).isInt
    · exact Fields.keys_toMembers_sublist known s.row
    · exact fun name hname => known_follow.mem_keys_toMembers_iff (by decide) hrow hname
    · exact Value.everyObject_of_isCanonical _ hcanonical

/-- Members that are out of order, and so are those of an object inside a list inside them. -/
private def unordered : List (String × Value) :=
  [("b", .list [.object [("y", .bool true), ("x", .null)]]), ("tabSize", .number (.int 4))]

private def reordered : List (String × Value) :=
  [("tabSize", .number (.int 4)), ("b", .list [.object [("x", .null), ("y", .bool true)]])]

private theorem unordered_reordered :
    (Value.object unordered).document.Reordered (Value.object reordered).document := by
  have hinner : (Value.object [("y", .bool true), ("x", .null)]).document.Reordered
      (Value.object [("x", .null), ("y", .bool true)]).document := .order (List.Perm.swap _ _ _)
  have hmember := (hinner.item [] []).member (Piece.ofText "b") []
    (Value.documentsOfMembers [("tabSize", .number (.int 4))])
  exact hmember.trans (.order (List.Perm.swap _ _ _))

theorem text_is_canonical_of_unordered :
    let text := "\x7b\"b\":[\x7b\"y\":true,\"x\":null\x7d],\"tabSize\":4\x7d"
    let text' := "\x7b\"tabSize\":4,\"b\":[\x7b\"x\":null,\"y\":true\x7d]\x7d"
    (Value.object unordered).document.Reordered (Value.object reordered).document ∧
      (Value.object unordered).document.NoRepeats ∧
      ∃ s, ofJsonText text = .ok s ∧ ofJsonText text' = .ok s ∧ s.toText = text' ∧
        (Value.object s.extra).EveryObject Value.ByBytes := by
  intro text text'
  have hspells : (Value.object unordered).document.Spells text :=
    Value.spells_toText (v := .object unordered)
      ⟨⟨⟨trivial, trivial, trivial⟩, trivial⟩, trivial, trivial⟩
  have hspells' : (Value.object reordered).document.Spells text' :=
    Value.spells_toText (v := .object reordered)
      ⟨trivial, ⟨⟨trivial, trivial, trivial⟩, trivial⟩, trivial⟩
  have hkeys : (Value.object unordered).document.NoRepeats :=
    ⟨by decide, ⟨⟨by decide, trivial, trivial, trivial⟩, trivial⟩, trivial, trivial⟩
  refine ⟨unordered_reordered, hkeys, ?_⟩
  have hread : ofJsonText text = .ok
      { tabSize := some 4, extra := [("b", .list [.object [("x", .null), ("y", .bool true)]])] } :=
    ofJsonText_eq_ok_iff.mpr ((readsAs.read_iff hspells (by decide) _).mpr rfl)
  rcases text_is_canonical hspells hspells' unordered_reordered hkeys (by decide) with
    ⟨⟨f, hf⟩, -⟩ | ⟨s, hs, hs', hform⟩
  · rw [hread] at hf
    cases hf
  · rw [hread] at hs
    cases hs
    obtain ⟨-, -, -, -, -, -, hsorted⟩ := hform ⟨⟨⟨trivial, trivial, trivial⟩, trivial⟩, trivial⟩
    exact ⟨_, hread, hs', rfl, hsorted⟩

end Settings
end CodeActions
