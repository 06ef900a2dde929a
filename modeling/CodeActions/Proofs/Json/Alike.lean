import CodeActions.Proofs.Json.Shape
/-!
# Documents that say the same

The liberties that a shape leaves: in which order members stand, which unknown ones there are,
whether an absent value is left out or `null`, and whether a record is an object or a list. Two
documents that differ in these only, at any depth, give the same value (`Alike.sound`).
-/
namespace CodeActions.Json
open Document

namespace Entries

def requiredNames {αs : List Type} : Entries αs → List String
  | .nil => []
  | .required name _ es => name :: es.requiredNames
  | .optional _ _ es => es.requiredNames

/-- Whether a field of this name has this shape. -/
inductive Has {α : Type} (name : String) (s : Shape α) : {αs : List Type} → Entries αs → Prop
  | required {αs : List Type} (es : Entries αs) : Has name s (.required name s es)
  | optional {αs : List Type} (es : Entries αs) : Has name s (.optional name s es)
  | afterRequired {β : Type} {αs : List Type} (other : String) (r : Shape β) {es : Entries αs}
      (h : Has name s es) : Has name s (.required other r es)
  | afterOptional {β : Type} {αs : List Type} (other : String) (r : Shape β) {es : Entries αs}
      (h : Has name s es) : Has name s (.optional other r es)

end Entries

/-- Documents that give the same value of a shape, whichever it is. -/
inductive Alike : {α : Type} → Shape α → Document → Document → Prop
  | refl {α : Type} (s : Shape α) (d : Document) : Alike s d d
  | symm {α : Type} {s : Shape α} {d e : Document} (h : Alike s d e) : Alike s e d
  | trans {α : Type} {s : Shape α} {d e f : Document} (h : Alike s d e) (h' : Alike s e f) :
      Alike s d f
  | item {α : Type} {s : Shape α} {d e : Document} (pre post : List Document) (h : Alike s d e) :
      Alike s.list (.list (pre ++ d :: post)) (.list (pre ++ e :: post))
  | member {αs : List Type} {ρ : Type} {es : Entries αs} (make : Row αs → ρ) {k : List Piece}
      {name : String} (hk : Piece.text? k = some name) {d e : Document}
      (pre post : List (List Piece × Document))
      (h : ∀ ⦃α : Type⦄ ⦃s : Shape α⦄, es.Has name s → Alike s d e) :
      Alike (.record es make) (.object (pre ++ (k, d) :: post)) (.object (pre ++ (k, e) :: post))
  | order {αs : List Type} {ρ : Type} (es : Entries αs) (make : Row αs → ρ)
      {ms ns : List (List Piece × Document)} (h : ms.Perm ns) :
      Alike (.record es make) (.object ms) (.object ns)
  | unknown {αs : List Type} {ρ : Type} {es : Entries αs} (make : Row αs → ρ) {k : List Piece}
      {name : String} (hk : Piece.text? k = some name) (hname : name ∉ es.names) (d : Document)
      (ms : List (List Piece × Document)) :
      Alike (.record es make) (.object ms) (.object ((k, d) :: ms))
  /-- `null` for what need not be there and is not. -/
  | absent {αs : List Type} {ρ : Type} {es : Entries αs} (make : Row αs → ρ) {k : List Piece}
      {name : String} (hk : Piece.text? k = some name) (hname : name ∉ es.requiredNames)
      {ms : List (List Piece × Document)} (hms : named name ms = []) :
      Alike (.record es make) (.object ms) (.object ((k, .null) :: ms))
  | form {αs : List Type} {ρ : Type} {es : Entries αs} (make : Row αs → ρ)
      (hnodup : es.names.Nodup) {ms : List (List Piece × Document)}
      (hms : ms.map (fun m => Piece.text? m.1) = es.names.map some) :
      Alike (.record es make) (.object ms) (.list (ms.map Prod.snd))

section named
variable {k : List Piece} {name : String}

theorem named_cons_self (hk : Piece.text? k = some name) (d : Document)
    (ms : List (List Piece × Document)) : named name ((k, d) :: ms) = d :: named name ms := by
  simp [named, hk]

theorem named_cons_of_ne {other : String} (hk : Piece.text? k = some name) (hne : name ≠ other)
    (d : Document) (ms : List (List Piece × Document)) :
    named other ((k, d) :: ms) = named other ms := by
  simp [named, hk, hne]

private theorem named_append (pre post : List (List Piece × Document)) :
    named name (pre ++ post) = named name pre ++ named name post := List.filterMap_append

theorem named_eq_nil {ms : List (List Piece × Document)}
    (h : some name ∉ ms.map fun m => Piece.text? m.1) : named name ms = [] := by
  rw [named, List.filterMap_eq_nil_iff]
  rintro ⟨k, d⟩ hm
  have hk : Piece.text? k ≠ some name := fun hk => h (List.mem_map.mpr ⟨_, hm, hk⟩)
  simp [hk]

end named

section once
variable {β : Type} (absent : Option β) (meaning : Document → Option β)

private theorem once_perm {ds es : List Document} (h : ds.Perm es) :
    once absent meaning ds = once absent meaning es := by
  match ds with
  | [] => rw [h.nil_eq]
  | [d] => rw [List.singleton_perm.mp h]
  | d :: e :: ds =>
    match es with
    | [] => exact absurd h.length_eq (by simp)
    | [f] => exact absurd h.length_eq (by simp)
    | f :: g :: es => rfl

private theorem once_replace {d e : Document} (h : meaning d = meaning e) (pre post : List Document) :
    once absent meaning (pre ++ d :: post) = once absent meaning (pre ++ e :: post) := by
  match pre, post with
  | [], [] => exact h
  | [], _ :: _ | [_], _ | _ :: _ :: _, _ => rfl

end once

namespace Entries
variable {ms ns : List (List Piece × Document)}

private theorem ofMembers_congr : {αs : List Type} → (es : Entries αs) →
    (∀ ⦃β : Type⦄ (meaning : Document → Option β), ∀ name ∈ es.requiredNames,
      once none meaning (named name ms) = once none meaning (named name ns)) →
    (∀ ⦃β : Type⦄ (meaning : Document → Option β), ∀ name ∈ es.names,
      once (some none) (optional? meaning) (named name ms) =
        once (some none) (optional? meaning) (named name ns)) →
    es.ofMembers ms = es.ofMembers ns
  | _, .nil, _, _ => rfl
  | _, .required name s es, hrequired, hoptional => by
    have htail := ofMembers_congr es
      (fun _ m other h => hrequired m other (List.mem_cons_of_mem _ h))
      (fun _ m other h => hoptional m other (List.mem_cons_of_mem _ h))
    rw [ofMembers, ofMembers, htail, hrequired s.meaning name List.mem_cons_self]
  | _, .optional name s es, hrequired, hoptional => by
    have htail := ofMembers_congr es hrequired
      (fun _ m other h => hoptional m other (List.mem_cons_of_mem _ h))
    rw [ofMembers, ofMembers, htail, hoptional s.meaning name List.mem_cons_self]

theorem ofMembers_perm {αs : List Type} (es : Entries αs) (h : ms.Perm ns) :
    es.ofMembers ms = es.ofMembers ns :=
  es.ofMembers_congr (fun _ m _ _ => once_perm none m (h.filterMap _))
    (fun _ m _ _ => once_perm (some none) (optional? m) (h.filterMap _))

private theorem requiredNames_subset : {αs : List Type} → (es : Entries αs) →
    es.requiredNames ⊆ es.names
  | _, .nil => List.Subset.refl _
  | _, .required name _ es => List.cons_subset_cons name es.requiredNames_subset
  | _, .optional name _ es => List.subset_cons_of_subset name es.requiredNames_subset

section
variable {αs : List Type} {es : Entries αs} {k : List Piece} {name : String}

theorem ofMembers_unknown (hk : Piece.text? k = some name) (hname : name ∉ es.names)
    (d : Document) (ms : List (List Piece × Document)) :
    es.ofMembers ((k, d) :: ms) = es.ofMembers ms := by
  have hnamed : ∀ other ∈ es.names, named other ((k, d) :: ms) = named other ms :=
    fun other h => named_cons_of_ne hk (ne_of_mem_of_not_mem h hname).symm d ms
  exact es.ofMembers_congr
    (fun _ m other h => congrArg (once none m) (hnamed other (es.requiredNames_subset h)))
    (fun _ m other h => congrArg (once (some none) (optional? m)) (hnamed other h))

private theorem ofMembers_absent (hk : Piece.text? k = some name) (hname : name ∉ es.requiredNames)
    (hms : named name ms = []) : es.ofMembers ((k, .null) :: ms) = es.ofMembers ms := by
  refine es.ofMembers_congr (fun _ m other h => ?_) (fun _ m other _ => ?_)
  · rw [named_cons_of_ne hk (ne_of_mem_of_not_mem h hname).symm]
  · by_cases hother : name = other
    · subst hother
      rw [named_cons_self hk, hms]
      rfl
    · rw [named_cons_of_ne hk hother]

end

private theorem ofMembers_eq_ofItems : {αs : List Type} → (es : Entries αs) → es.names.Nodup →
    (ms : List (List Piece × Document)) →
    ms.map (fun m => Piece.text? m.1) = es.names.map some →
    es.ofMembers ms = es.ofItems (ms.map Prod.snd)
  | _, .nil, _, [], _ => rfl
  | _, .required name s es, hnodup, (k, d) :: ms, hms => by
    obtain ⟨hk, hms⟩ := List.cons.inj hms
    obtain ⟨hname, hnodup⟩ := List.nodup_cons.mp hnodup
    have hnil : named name ms = [] := named_eq_nil (by simpa [hms] using hname)
    have htail := ofMembers_eq_ofItems es hnodup ms hms
    rw [ofMembers, named_cons_self hk, hnil, ofMembers_unknown hk hname, htail]
    rfl
  | _, .optional name s es, hnodup, (k, d) :: ms, hms => by
    obtain ⟨hk, hms⟩ := List.cons.inj hms
    obtain ⟨hname, hnodup⟩ := List.nodup_cons.mp hnodup
    have hnil : named name ms = [] := named_eq_nil (by simpa [hms] using hname)
    have htail := ofMembers_eq_ofItems es hnodup ms hms
    rw [ofMembers, named_cons_self hk, hnil, ofMembers_unknown hk hname, htail]
    rfl

private theorem optional?_congr {α : Type} {meaning : Document → Option α} {d e : Document}
    (hnull : d = .null ↔ e = .null) (h : meaning d = meaning e) :
    optional? meaning d = optional? meaning e := by
  by_cases hd : d = .null
  · rw [hd, hnull.mp hd]
  · rw [optional?, optional?, h]
    · exact fun he => hd (hnull.mpr he)
    · exact hd

theorem ofMembers_replace {k : List Piece} {name : String} (hk : Piece.text? k = some name)
    {d e : Document} (pre post : List (List Piece × Document)) :
    {αs : List Type} → (es : Entries αs) →
    (∀ ⦃α : Type⦄ ⦃s : Shape α⦄, es.Has name s →
      (d = .null ↔ e = .null) ∧ s.meaning d = s.meaning e) →
    es.ofMembers (pre ++ (k, d) :: post) = es.ofMembers (pre ++ (k, e) :: post)
  | _, .nil, _ => rfl
  | _, .required other s es, h => by
    have htail := ofMembers_replace hk pre post es fun _ _ hs => h (hs.afterRequired other s)
    rw [ofMembers, ofMembers, htail, named_append, named_append]
    by_cases hother : name = other
    · subst hother
      have hmeaning : s.meaning d = s.meaning e := (h (.required es)).2
      rw [named_cons_self hk, named_cons_self hk, once_replace _ _ hmeaning]
    · rw [named_cons_of_ne hk hother, named_cons_of_ne hk hother]
  | _, .optional other s es, h => by
    have htail := ofMembers_replace hk pre post es fun _ _ hs => h (hs.afterOptional other s)
    rw [ofMembers, ofMembers, htail, named_append, named_append]
    by_cases hother : name = other
    · subst hother
      obtain ⟨hnull, hvalue⟩ : _ ∧ s.meaning d = s.meaning e := h (.optional es)
      have hmeaning := optional?_congr hnull hvalue
      rw [named_cons_self hk, named_cons_self hk, once_replace _ _ hmeaning]
    · rw [named_cons_of_ne hk hother, named_cons_of_ne hk hother]

end Entries

private theorem namesAll_perm {ms ns : List (List Piece × Document)} (h : ms.Perm ns) :
    namesAll ms = namesAll ns := by
  rw [Bool.eq_iff_iff]
  simp only [namesAll, List.all_eq_true]
  exact forall_congr' fun m => by rw [h.mem_iff]

private theorem namesAll_of_names {ms : List (List Piece × Document)} {names : List String}
    (h : ms.map (fun m => Piece.text? m.1) = names.map some) : namesAll ms = true := by
  rw [namesAll, List.all_eq_true]
  intro m hm
  have hmem : Piece.text? m.1 ∈ names.map some := h ▸ List.mem_map_of_mem hm
  obtain ⟨name, -, hname⟩ := List.mem_map.mp hmem
  rw [← hname]
  rfl

namespace Alike

/-- Documents that say the same are both `null` or neither is, and give the same value. -/
theorem sound {α : Type} {s : Shape α} {d e : Document} (h : Alike s d e) :
    (d = .null ↔ e = .null) ∧ s.meaning d = s.meaning e := by
  induction h with
  | refl s d => exact ⟨Iff.rfl, rfl⟩
  | symm h ih => exact ⟨ih.1.symm, ih.2.symm⟩
  | trans h h' ih ih' => exact ⟨ih.1.trans ih'.1, ih.2.trans ih'.2⟩
  | @item α s d e pre post h ih =>
    refine ⟨by simp, ?_⟩
    simp only [Shape.meaning, List.mapM_append, List.mapM_cons, ih.2]
  | @member αs ρ es make k name hk d e pre post h ih =>
    refine ⟨by simp, ?_⟩
    have hrow := Entries.ofMembers_replace hk pre post es fun α s hs => ih hs
    simp only [Shape.meaning, hrow, namesAll, List.all_append, List.all_cons]
  | @order αs ρ es make ms ns h =>
    refine ⟨by simp, ?_⟩
    simp only [Shape.meaning, es.ofMembers_perm h, namesAll_perm h]
  | @unknown αs ρ es make k name hk hname d ms =>
    refine ⟨by simp, ?_⟩
    simp only [Shape.meaning, Entries.ofMembers_unknown hk hname, namesAll_cons hk]
  | @absent αs ρ es make k name hk hname ms hms =>
    refine ⟨by simp, ?_⟩
    simp only [Shape.meaning, Entries.ofMembers_absent hk hname hms, namesAll_cons hk]
  | @form αs ρ es make hnodup ms hms =>
    refine ⟨by simp, ?_⟩
    simp only [Shape.meaning, es.ofMembers_eq_ofItems hnodup ms hms, namesAll_of_names hms, if_true]

end Alike
end CodeActions.Json
