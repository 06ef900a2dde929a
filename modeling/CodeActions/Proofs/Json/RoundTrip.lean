import CodeActions.Proofs.Json.Alike
import CodeActions.Proofs.Json.Canonical
import CodeActions.Proofs.Json.Codec
/-!
# Reading back what was written

A codec renders a value by a shape (`Codec.Renders`) when the document that it writes gives the
value again; then the compact text is read as that value (`Renders.read_toText`). Texts, flags,
numbers and lists are rendered, and a record is when each of its fields is.
-/
namespace CodeActions.Json
open Value Document

/-- Whether a codec writes a value as a document that gives it again, without doubles and repeated
keys, and nesting no deeper than `n`. -/
structure Codec.Renders {α : Type} (c : Codec α) (s : Shape α) (n : Nat) (a : α) : Prop where
  meaning : s.meaning (c.toValue a).document = some a
  isInt : (c.toValue a).AllNumbers Number.IsInt
  fits : (c.toValue a).AllNumbers Number.Fits
  noRepeats : (c.toValue a).NoRepeats
  nesting : (c.toValue a).document.nesting ≤ n

theorem Shape.meaning_null {α : Type} (s : Shape α) : s.meaning .null = none := by
  cases s <;> simp [meaning, text?, flag?, Document.natural?]

private theorem optional?_of_meaning {α : Type} {s : Shape α} {d : Document} {a : α}
    (h : s.meaning d = some a) : optional? s.meaning d = some (some a) := by
  rw [optional?, h]
  · rfl
  · rintro rfl
    rw [s.meaning_null] at h
    cases h

namespace Codec

theorem Renders.read_toText {α : Type} {c : Codec α} {s : Shape α} {n : Nat} {a : α}
    (h : c.Renders s n a) (hread : c.ReadsAs s) (hn : n ≤ depthLimit) :
    Json.read c.read (c.toText a) = .ok a :=
  (hread.read_iff (spells_toText h.isInt) (Nat.le_trans h.nesting hn) a).mpr h.meaning

theorem renders_text (n : Nat) (s : String) : text.Renders .text n s where
  meaning := Piece.text?_ofText s
  isInt := trivial
  fits := trivial
  noRepeats := trivial
  nesting := Nat.zero_le n

theorem renders_flag (n : Nat) (b : Bool) : flag.Renders .flag n b where
  meaning := rfl
  isInt := trivial
  fits := trivial
  noRepeats := trivial
  nesting := Nat.zero_le n

end Codec

namespace Literal

private theorem natural?_ofInt {bound n : Nat} (h : n < bound) : (ofInt n).natural? bound = some n := by
  have hamount : amount (ofInt n).whole = n := amount_decimal n
  have hnegative : (ofInt n).negative = false :=
    show decide ((n : Int) < 0) = false from decide_eq_false (by omega)
  rw [natural?, if_pos ⟨hnegative, rfl, rfl, hamount.symm ▸ h⟩, hamount]

end Literal

namespace Codec

private theorem renders_natural {α : Type} {c : Codec α} {bound k : Nat} {ofNat : Nat → α} {a : α}
    (hvalue : c.toValue a = .number (.int k)) (hk : k < bound) (hbound : bound ≤ UInt64.size)
    (ha : ofNat k = a) (n : Nat) : c.Renders (.natural bound ofNat) n a where
  meaning := by
    rw [hvalue, Value.document, Shape.meaning, Document.natural?, Literal.natural?_ofInt hk]
    exact congrArg some ha
  isInt := by
    rw [hvalue]
    trivial
  fits := by
    rw [hvalue]
    have hsize : UInt64.size = Nat.pow 2 64 := rfl
    exact ⟨by omega, by omega⟩
  noRepeats := by
    rw [hvalue]
    trivial
  nesting := by
    rw [hvalue]
    exact Nat.zero_le n

theorem renders_word (n : Nat) (w : UInt32) :
    word.Renders (.natural UInt32.size UInt32.ofNat) n w :=
  renders_natural rfl w.toNat_lt (by decide) UInt32.ofNat_toNat n

theorem renders_position (n : Nat) (p : UInt64) :
    position.Renders (.natural UInt64.size UInt64.ofNat) n p :=
  renders_natural rfl p.toNat_lt (Nat.le_refl _) UInt64.ofNat_toNat n

theorem renders_list {α : Type} {c : Codec α} {s : Shape α} {n : Nat} {as : List α}
    (h : ∀ a ∈ as, c.Renders s n a) : c.list.Renders s.list (n + 1) as where
  meaning := by
    change (documentsOfItems (as.map c.toValue)).mapM s.meaning = some as
    induction as with
    | nil => rfl
    | cons a as ih =>
      obtain ⟨ha, has⟩ := List.forall_mem_cons.mp h
      rw [List.map_cons, documentsOfItems, List.mapM_cons, ha.meaning, ih has]
      rfl
  isInt := allNumbersIn_iff.mpr (List.forall_mem_map.mpr fun a ha => (h a ha).isInt)
  fits := allNumbersIn_iff.mpr (List.forall_mem_map.mpr fun a ha => (h a ha).fits)
  noRepeats := noRepeatsIn_iff.mpr (List.forall_mem_map.mpr fun a ha => (h a ha).noRepeats)
  nesting := by
    refine Nat.succ_le_succ ?_
    induction as with
    | nil => exact Nat.zero_le n
    | cons a as ih =>
      obtain ⟨ha, has⟩ := List.forall_mem_cons.mp h
      exact Nat.max_le.mpr ⟨ha.nesting, ih has⟩

end Codec

namespace Fields

inductive Renders (n : Nat) : {αs : List Type} → Fields αs → Entries αs → Row αs → Prop
  | nil : Renders n .nil .nil ()
  | required {α : Type} {αs : List Type} (name : String) {c : Codec α} {s : Shape α} {a : α}
      {fs : Fields αs} {es : Entries αs} {row : Row αs} (ha : c.Renders s n a)
      (hrest : Renders n fs es row) :
      Renders n (.cons (.required name c) fs) (.required name s es) (.cons a row)
  | optional {α : Type} {αs : List Type} (name : String) {c : Codec α} {s : Shape α}
      {a : Option α} {fs : Fields αs} {es : Entries αs} {row : Row αs}
      (ha : ∀ b ∈ a, c.Renders s n b) (hrest : Renders n fs es row) :
      Renders n (.cons (.optional name c) fs) (.optional name s es) (.cons a row)

variable {n : Nat} {αs : List Type} {fs : Fields αs} {es : Entries αs} {row : Row αs}

theorem documentsOfMembers_append (ms ns : List (String × Value)) :
    documentsOfMembers (ms ++ ns) = documentsOfMembers ms ++ documentsOfMembers ns := by
  induction ms with
  | nil => rfl
  | cons m ms ih => exact congrArg (_ :: ·) ih

theorem nesting_documents_le_iff {ms : List (String × Value)} :
    nestingOfMembers (documentsOfMembers ms) ≤ n ↔ ∀ m ∈ ms, m.2.document.nesting ≤ n := by
  induction ms with
  | nil => simp [documentsOfMembers, nestingOfMembers]
  | cons m ms ih => rw [documentsOfMembers, nestingOfMembers, Nat.max_le, ih, List.forall_mem_cons]

private theorem named_documents_eq_nil {name : String} {ms : List (String × Value)}
    (h : name ∉ ms.map Prod.fst) : Document.named name (documentsOfMembers ms) = [] := by
  induction ms with
  | nil => rfl
  | cons m ms ih =>
    obtain ⟨k, v⟩ := m
    simp only [List.map_cons, List.mem_cons, not_or] at h
    rw [documentsOfMembers, named_cons_of_ne (Piece.text?_ofText k) (Ne.symm h.1), ih h.2]

theorem keys_toMembers_sublist (fs : Fields αs) (row : Row αs) :
    ((fs.toMembers row).map Prod.fst).Sublist fs.names := by
  induction fs with
  | nil => exact List.nil_sublist _
  | cons f fs ih =>
    obtain ⟨a, row⟩ := row
    rw [toMembers, names, List.map_append]
    cases f.toValue? a with
    | none => exact (ih row).cons _
    | some v => exact (ih row).cons_cons _

theorem Renders.names_eq (h : fs.Renders n es row) : fs.names = es.names := by
  induction h with
  | nil => rfl
  | required name ha hrest ih => exact congrArg (name :: ·) ih
  | optional name ha hrest ih => exact congrArg (name :: ·) ih

theorem Renders.named_eq_nil (h : fs.Renders n es row) {name : String} (hname : name ∉ es.names)
    {others : List (String × Value)} (hother : name ∉ others.map Prod.fst) :
    Document.named name (documentsOfMembers (fs.toMembers row ++ others)) = [] := by
  refine named_documents_eq_nil fun hmem => ?_
  rw [List.map_append, List.mem_append] at hmem
  rcases hmem with hmem | hmem
  · exact hname (h.names_eq ▸ (keys_toMembers_sublist fs row).subset hmem)
  · exact hother hmem

/-- The members of a row, and others of other names, give the row again. -/
theorem Renders.ofMembers_eq (h : fs.Renders n es row) (hnodup : es.names.Nodup)
    {others : List (String × Value)} (hothers : ∀ name ∈ es.names, name ∉ others.map Prod.fst) :
    es.ofMembers (documentsOfMembers (fs.toMembers row ++ others)) = some row := by
  induction h with
  | nil => rfl
  | @required α αs name c s a fs es row ha hrest ih =>
    obtain ⟨hname, hnodup⟩ := List.nodup_cons.mp hnodup
    obtain ⟨hother, hothers⟩ := List.forall_mem_cons.mp hothers
    have htail := ih hnodup hothers
    have hnil := hrest.named_eq_nil hname hother
    change Entries.ofMembers _ ((Piece.ofText name, (c.toValue a).document) ::
      documentsOfMembers (fs.toMembers row ++ others)) = _
    rw [Entries.ofMembers, named_cons_self (Piece.text?_ofText name), hnil,
      Entries.ofMembers_unknown (Piece.text?_ofText name) hname, htail, once, ha.meaning]
    rfl
  | @optional α αs name c s a fs es row ha hrest ih =>
    obtain ⟨hname, hnodup⟩ := List.nodup_cons.mp hnodup
    obtain ⟨hother, hothers⟩ := List.forall_mem_cons.mp hothers
    have htail := ih hnodup hothers
    have hnil := hrest.named_eq_nil hname hother
    cases a with
    | none =>
      change Entries.ofMembers _ (documentsOfMembers (fs.toMembers row ++ others)) = _
      rw [Entries.ofMembers, hnil, htail]
      rfl
    | some b =>
      change Entries.ofMembers _ ((Piece.ofText name, (c.toValue b).document) ::
        documentsOfMembers (fs.toMembers row ++ others)) = _
      rw [Entries.ofMembers, named_cons_self (Piece.text?_ofText name), hnil,
        Entries.ofMembers_unknown (Piece.text?_ofText name) hname, htail, once,
        optional?_of_meaning (ha b rfl).meaning]
      rfl

theorem Renders.forall_toMembers {Q : Value → Prop} (h : fs.Renders n es row)
    (hQ : ∀ ⦃α : Type⦄ ⦃c : Codec α⦄ ⦃s : Shape α⦄ ⦃a : α⦄, c.Renders s n a → Q (c.toValue a)) :
    ∀ m ∈ fs.toMembers row, Q m.2 := by
  induction h with
  | nil => exact List.forall_mem_nil _
  | required name ha hrest ih => exact List.forall_mem_cons.mpr ⟨hQ ha, ih⟩
  | @optional α αs name c s a fs es row ha hrest ih =>
    cases a with
    | none => exact ih
    | some b => exact List.forall_mem_cons.mpr ⟨hQ (ha b rfl), ih⟩

theorem Renders.nesting (h : fs.Renders n es row) :
    nestingOfMembers (documentsOfMembers (fs.toMembers row)) ≤ n :=
  nesting_documents_le_iff.mpr (h.forall_toMembers (Q := fun v => v.document.nesting ≤ n)
    fun _ _ _ _ ha => ha.nesting)

end Fields

private theorem namesAll_documents (ms : List (String × Value)) :
    namesAll (documentsOfMembers ms) = true := by
  induction ms with
  | nil => rfl
  | cons m ms ih => rw [documentsOfMembers, namesAll_cons (Piece.text?_ofText m.1), ih]

theorem Codec.renders_record {αs : List Type} {ρ : Type} {n : Nat} {fs : Fields αs}
    {es : Entries αs} {make : Row αs → ρ} {row : ρ → Row αs} {r : ρ}
    (h : fs.Renders n es (row r)) (hnodup : es.names.Nodup) (hmake : make (row r) = r)
    (title : String) :
    (Codec.record title fs make row).Renders (.record es make) (n + 1) r where
  meaning := by
    have hrow : es.ofMembers (documentsOfMembers (fs.toMembers (row r) ++ [])) = some (row r) :=
      h.ofMembers_eq hnodup fun _ _ => List.not_mem_nil
    rw [List.append_nil] at hrow
    change Shape.meaning _ (.object (documentsOfMembers (fs.toMembers (row r)))) = _
    rw [Shape.meaning]
    simp only [namesAll_documents, if_true, hrow]
    exact congrArg some hmake
  isInt := allNumbersAmong_iff.mpr (h.forall_toMembers fun _ _ _ _ ha => ha.isInt)
  fits := allNumbersAmong_iff.mpr (h.forall_toMembers fun _ _ _ _ ha => ha.fits)
  noRepeats := ⟨(Fields.keys_toMembers_sublist fs (row r)).nodup (h.names_eq ▸ hnodup),
    noRepeatsAmong_iff.mpr (h.forall_toMembers fun _ _ _ _ ha => ha.noRepeats)⟩
  nesting := Nat.succ_le_succ (h.nesting)

end CodeActions.Json
