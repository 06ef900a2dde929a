import CodeActions.Proofs.Yaml.Reread
/-!
# Strings that YAML reads verbatim

The strings that stand for themselves when the compact text of a value is read in YAML. A value is
there what it is in JSON exactly if it has no others (`inYaml?_eq_self_iff`).
-/
namespace CodeActions.Yaml
open Json Text

/-- Whether a character stands for itself in strings of both kinds. -/
def IsVerbatim (c : Char) : Prop :=
  (c.toNat < 0x7F ∨ 0x9F < c.toNat) ∧ c ≠ '\ufffe' ∧ c ≠ '\uffff'

/-- Whether a key stands for itself: it is on one line and takes at most 1024 characters, with its
quotes and escapes. -/
structure IsVerbatimKey (k : String) : Prop where
  characters : ∀ c ∈ k.toList, IsVerbatim c
  oneLine : '\u2028' ∉ k.toList ∧ '\u2029' ∉ k.toList
  length : (jsonQuote k).length ≤ 1024

/-- Whether a string that is no key stands for itself: no line or paragraph separator is next to a
space, or right before a marker of documents. -/
structure IsVerbatimText (t : String) : Prop where
  characters : ∀ c ∈ t.toList, IsVerbatim c
  separators : ∀ before c after, t.toList = before ++ c :: after → c = '\u2028' ∨ c = '\u2029' →
    before.getLast? ≠ some ' ' ∧ after.head? ≠ some ' ' ∧ startsMarker after = false

/-- Whether all keys and all other strings in a value stand for themselves. -/
structure AllVerbatim (v : Value) : Prop where
  keys : ∀ k ∈ v.keysWithin, IsVerbatimKey k
  texts : ∀ t ∈ v.textsWithin, IsVerbatimText t

private theorem isVerbatim_iff {c : Char} :
    IsVerbatim c ↔ (0x7F ≤ c.toNat → isAllowed c = true) ∧ c ≠ '\u0085' := by
  have hne (d : Char) : c ≠ d ↔ c.toNat ≠ d.toNat := not_congr Char.toNat_inj.symm
  have hvalid : c.toNat < 0xD800 ∨ 0xDFFF < c.toNat ∧ c.toNat < 0x110000 := c.valid
  have hnext : '\u0085'.toNat = 0x85 := rfl
  have hlast : '\ufffe'.toNat = 0xFFFE ∧ '\uffff'.toNat = 0xFFFF := ⟨rfl, rfl⟩
  simp only [IsVerbatim, isAllowed, hne, hnext, hlast, Bool.or_eq_true, Bool.and_eq_true,
    decide_eq_true_eq]
  omega

private theorem forall_isVerbatim_iff {cs : List Char} :
    (∀ c ∈ cs, IsVerbatim c) ↔
      (∀ c ∈ cs, 0x7F ≤ c.toNat → isAllowed c = true) ∧ '\u0085' ∉ cs := by
  simp only [isVerbatim_iff, forall_and, List.forall_mem_ne']

private theorem isVerbatimKey_iff {k : String} :
    IsVerbatimKey k ↔ Value.Beyond (isAllowed · = true) k ∧ isSimpleKey k = true := by
  have hsolid : isSimpleKey k = true ↔
      (∀ c ∈ k.toList, isSeparator c = false) ∧ (jsonQuote k).length ≤ 1024 := by
    simp [isSimpleKey]
  rw [hsolid]
  constructor
  · intro h
    refine ⟨(forall_isVerbatim_iff.mp h.characters).1, fun c hc => ?_, h.length⟩
    rw [Bool.eq_false_iff, Ne, isSeparator_iff]
    rintro (rfl | rfl | rfl)
    · exact (forall_isVerbatim_iff.mp h.characters).2 hc
    · exact h.oneLine.1 hc
    · exact h.oneLine.2 hc
  · rintro ⟨hallowed, hseparator, hlength⟩
    have hnone {c : Char} (hc : isSeparator c = true) : c ∉ k.toList := fun hmem =>
      Bool.false_ne_true (hseparator c hmem ▸ hc)
    exact ⟨forall_isVerbatim_iff.mpr ⟨hallowed, hnone rfl⟩, ⟨hnone rfl, hnone rfl⟩, hlength⟩

private theorem isVerbatimText_iff {t : String} :
    IsVerbatimText t ↔ Value.Beyond (isAllowed · = true) t ∧ IsKept t := by
  rw [IsKept, kept_iff, ← and_assoc, Value.Beyond, ← forall_isVerbatim_iff]
  constructor
  · intro h
    refine ⟨h.characters, fun before c after hsplit hc => h.separators before c after hsplit ?_⟩
    rcases isSeparator_iff.mp hc with rfl | hc
    · have hnext := (forall_isVerbatim_iff.mp h.characters).2
      exact absurd (hsplit ▸ List.mem_append_right _ List.mem_cons_self) hnext
    · exact hc
  · intro h
    exact ⟨h.1, fun before c after hsplit hc => h.2 before c after hsplit
      (isSeparator_iff.mpr (.inr hc))⟩

theorem inYaml?_eq_self_iff {v : Value} (hint : v.AllNumbers Number.IsInt) :
    v.inYaml? = some v ↔ AllVerbatim v := by
  have hallowed : v.render.all isAllowed = true ↔
      (∀ k ∈ v.keysWithin, Value.Beyond (isAllowed · = true) k) ∧
        ∀ t ∈ v.textsWithin, Value.Beyond (isAllowed · = true) t := by
    rw [List.all_eq_true]
    exact Value.forall_render_iff (fun c hlow hhigh => by simp [isAllowed]; omega) v hint
  have hverbatim : AllVerbatim v ↔
      (∀ k ∈ v.keysWithin, IsVerbatimKey k) ∧ ∀ t ∈ v.textsWithin, IsVerbatimText t :=
    ⟨fun h => ⟨h.keys, h.texts⟩, fun h => ⟨h.1, h.2⟩⟩
  simp only [hverbatim, Value.inYaml?, Option.ite_none_right_eq_some, hallowed,
    reread?_eq_self_iff, isVerbatimKey_iff, isVerbatimText_iff, forall_and]
  exact and_and_and_comm

example : (Value.text "a \u2028b").inYaml? = some (.text "a\u2028b") := rfl

end CodeActions.Yaml
