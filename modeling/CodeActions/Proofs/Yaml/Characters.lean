import CodeActions.Proofs.Yaml.Signs
/-!
# The strings in a JSON text

The compact text of a value has visible characters of ASCII only, apart from those of its keys and
texts, none of which is a control character (`forall_render_iff`).
-/
namespace CodeActions.Json.Value
open Text Yaml Scanner

mutual
def keysWithin : Value → List String
  | .list vs => keysInItems vs
  | .object ms => keysInMembers ms
  | _ => []

def keysInItems : List Value → List String
  | [] => []
  | v :: vs => v.keysWithin ++ keysInItems vs

def keysInMembers : List (String × Value) → List String
  | [] => []
  | (k, v) :: ms => k :: (v.keysWithin ++ keysInMembers ms)
end

mutual
def textsWithin : Value → List String
  | .text s => [s]
  | .list vs => textsInItems vs
  | .object ms => textsInMembers ms
  | _ => []

def textsInItems : List Value → List String
  | [] => []
  | v :: vs => v.textsWithin ++ textsInItems vs

def textsInMembers : List (String × Value) → List String
  | [] => []
  | (_, v) :: ms => v.textsWithin ++ textsInMembers ms
end

/-- Whether the characters of a text that are not plain ASCII have a property. -/
def Beyond (P : Char → Prop) (s : String) : Prop := ∀ c ∈ s.toList, 0x7F ≤ c.toNat → P c

section characters
variable {P : Char → Prop} (hP : ∀ c : Char, 0x20 ≤ c.toNat → c.toNat < 0x7F → P c)
include hP

private theorem forall_jsonEscape_iff (c : Char) :
    (∀ x ∈ jsonEscape c, P x) ↔ (0x7F ≤ c.toNat → P c) := by
  rcases jsonEscape_cases c with ⟨hplain, hlow, -, -⟩ | ⟨e, hescape, he, hc⟩
  · rw [hplain, List.forall_mem_singleton]
    refine ⟨fun h _ => h, fun h => ?_⟩
    by_cases hhigh : 0x7F ≤ c.toNat
    · exact h hhigh
    · exact hP c hlow (Nat.lt_of_not_le hhigh)
  · rw [hescape]
    refine iff_of_true ?_ fun hhigh => ?_
    · exact List.forall_mem_cons.mpr
        ⟨hP _ (by decide) (by decide), fun x hx => hP x (he.visible x hx).1 (he.visible x hx).2⟩
    · rcases hc with hlow | rfl | rfl
      · omega
      · exact absurd hhigh (by decide)
      · exact absurd hhigh (by decide)

private theorem forall_jsonQuote_iff (s : String) : (∀ x ∈ jsonQuote s, P x) ↔ Beyond P s := by
  have hquote : P '"' := hP _ (by decide) (by decide)
  have hquoted : (∀ x ∈ jsonQuote s, P x) ↔ ∀ x ∈ s.toList.flatMap jsonEscape, P x := by
    simp [jsonQuote, or_imp, forall_and, hquote]
  rw [hquoted, Beyond]
  constructor
  · exact fun h c hc => (forall_jsonEscape_iff hP c).mp fun x hx =>
      h x (List.mem_flatMap.mpr ⟨c, hc, hx⟩)
  · intro h x hx
    obtain ⟨c, hc, hx⟩ := List.mem_flatMap.mp hx
    exact (forall_jsonEscape_iff hP c).mpr (h c hc) x hx

private theorem forall_render_bare {v : Value} (hv : v.AllNumbers Number.IsInt) (hbare : v.IsBare) :
    ∀ c ∈ v.render, P c := by
  intro c hc
  obtain ⟨hlow, hhigh⟩ := visible_of_isWordChar ((isWord_render hv hbare).isWordChar c hc)
  exact hP c hlow hhigh

mutual
theorem forall_render_iff : (v : Value) → v.AllNumbers Number.IsInt →
    ((∀ c ∈ v.render, P c) ↔ (∀ k ∈ v.keysWithin, Beyond P k) ∧ ∀ t ∈ v.textsWithin, Beyond P t)
  | .null, hv | .bool true, hv | .bool false, hv | .number _, hv => by
    refine iff_of_true (forall_render_bare hP hv trivial) ⟨?_, ?_⟩ <;> exact List.forall_mem_nil _
  | .text s, _ => by
    simpa [render, keysWithin, textsWithin] using forall_jsonQuote_iff hP s
  | .list [], _ => by
    have hopen : P '[' := hP _ (by decide) (by decide)
    have hclose : P ']' := hP _ (by decide) (by decide)
    simp [render, keysWithin, textsWithin, keysInItems, textsInItems, hopen, hclose]
  | .list (v :: vs), hv => by
    have hopen : P '[' := hP _ (by decide) (by decide)
    simp only [render, keysWithin, textsWithin, keysInItems, textsInItems, List.forall_mem_cons,
      List.forall_mem_append, hopen, true_and, forall_render_iff v hv.1,
      forall_renderItems_iff vs hv.2]
    exact and_and_and_comm
  | .object [], _ => by
    have hopen : P '\x7b' := hP _ (by decide) (by decide)
    have hclose : P '\x7d' := hP _ (by decide) (by decide)
    simp [render, keysWithin, textsWithin, keysInMembers, textsInMembers, hopen, hclose]
  | .object ((k, v) :: ms), hv => by
    have hopen : P '\x7b' := hP _ (by decide) (by decide)
    have hcolon : P ':' := hP _ (by decide) (by decide)
    simp only [render, keysWithin, textsWithin, keysInMembers, textsInMembers,
      List.forall_mem_cons, List.forall_mem_append, hopen, hcolon, true_and,
      forall_jsonQuote_iff hP, forall_render_iff v hv.1, forall_renderMembers_iff ms hv.2,
      and_assoc, and_left_comm]

private theorem forall_renderItems_iff : (vs : List Value) → AllNumbersIn Number.IsInt vs →
    ((∀ c ∈ renderItems vs, P c) ↔
      (∀ k ∈ keysInItems vs, Beyond P k) ∧ ∀ t ∈ textsInItems vs, Beyond P t)
  | [], _ => by
    have hclose : P ']' := hP _ (by decide) (by decide)
    simp [renderItems, keysInItems, textsInItems, hclose]
  | v :: vs, hv => by
    have hcomma : P ',' := hP _ (by decide) (by decide)
    simp only [renderItems, keysInItems, textsInItems, List.forall_mem_cons, List.forall_mem_append,
      hcomma, true_and, forall_render_iff v hv.1, forall_renderItems_iff vs hv.2]
    exact and_and_and_comm

private theorem forall_renderMembers_iff : (ms : List (String × Value)) →
    AllNumbersAmong Number.IsInt ms →
    ((∀ c ∈ renderMembers ms, P c) ↔
      (∀ k ∈ keysInMembers ms, Beyond P k) ∧ ∀ t ∈ textsInMembers ms, Beyond P t)
  | [], _ => by
    have hclose : P '\x7d' := hP _ (by decide) (by decide)
    simp [renderMembers, keysInMembers, textsInMembers, hclose]
  | (k, v) :: ms, hv => by
    have hcomma : P ',' := hP _ (by decide) (by decide)
    have hcolon : P ':' := hP _ (by decide) (by decide)
    simp only [renderMembers, keysInMembers, textsInMembers, List.forall_mem_cons,
      List.forall_mem_append, hcomma, hcolon, true_and, forall_jsonQuote_iff hP,
      forall_render_iff v hv.1, forall_renderMembers_iff ms hv.2, and_assoc, and_left_comm]
end

end characters

end CodeActions.Json.Value
