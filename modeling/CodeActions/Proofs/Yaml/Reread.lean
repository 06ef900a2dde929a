import CodeActions.Proofs.Json.Nesting
import CodeActions.Proofs.Yaml.Characters
/-!
# What is reread of a value

A value as its compact text means it in YAML: with folded strings, and only if no string is broken
off and every key is simple. The keys stay what they are, and everything stays if the texts do
(`reread?_eq_self_iff`).
-/
namespace CodeActions
open Json Text

namespace Json.Value
open Yaml

mutual
/-- A value with its strings folded; nothing if one is broken off or a key is not simple. -/
def reread? : Value → Option Value
  | .text s => (refold {} false s.toList).map fun text => .text (String.ofList text)
  | .list vs => .list <$> rereadItems? vs
  | .object ms => .object <$> rereadMembers? ms
  | v => some v

def rereadItems? : List Value → Option (List Value)
  | [] => some []
  | v :: vs => do return (← v.reread?) :: (← rereadItems? vs)

def rereadMembers? : List (String × Value) → Option (List (String × Value))
  | [] => some []
  | (k, v) :: ms =>
      if isSimpleKey k then do return (k, ← v.reread?) :: (← rereadMembers? ms) else none
end

/-- What the compact text of a value comes to in YAML, where not all characters are allowed. -/
def inYaml? (v : Value) : Option Value := if v.render.all isAllowed then v.reread? else none

end Json.Value

namespace Yaml

private theorem refold_of_simple {k : String} (h : isSimpleKey k = true) :
    refold {} false k.toList = some k.toList := by
  have hkept (cs : List Char) (hcs : ∀ c ∈ cs, isSeparator c = false) : Kept cs := by
    induction cs with
    | nil => trivial
    | cons c cs ih =>
      obtain ⟨hc, hcs⟩ := List.forall_mem_cons.mp hcs
      exact ⟨fun hseparator => by simp [hc] at hseparator,
        fun _ d hd => hcs d (List.mem_of_mem_head? hd), ih hcs⟩
  have hsolid : ∀ c ∈ k.toList, isSeparator c = false := by
    simp only [isSimpleKey, Bool.and_eq_true, Bool.not_eq_true', List.any_eq_false] at h
    exact fun c hc => Bool.eq_false_iff.mpr (h.1 c hc)
  exact refold_eq_self_iff.mpr ⟨fun hnext => (by cases hsolid _ hnext), hkept _ hsolid⟩

theorem keySigns?_of_simple {k : String} (h : isSimpleKey k = true) :
    keySigns? k = some [.key, .scalar .quoted k, .value] := by
  rw [keySigns?, refold_of_simple h, h]
  simp

private theorem exists_of_rereadItems? {v : Value} {vs ws : List Value}
    (h : Value.rereadItems? (v :: vs) = some ws) :
    ∃ w rest, ws = w :: rest ∧ v.reread? = some w ∧ Value.rereadItems? vs = some rest := by
  obtain ⟨w, hw, h⟩ := Option.bind_eq_some_iff.mp h
  obtain ⟨rest, hrest, heq⟩ := Option.bind_eq_some_iff.mp h
  cases heq
  exact ⟨w, rest, rfl, hw, hrest⟩

theorem exists_of_rereadMembers? {k : String} {v : Value} {ms ws : List (String × Value)}
    (h : Value.rereadMembers? ((k, v) :: ms) = some ws) :
    isSimpleKey k = true ∧ ∃ w rest, ws = (k, w) :: rest ∧ v.reread? = some w ∧
      Value.rereadMembers? ms = some rest := by
  rw [Value.rereadMembers?] at h
  split at h
  case isTrue hsimple =>
    obtain ⟨w, hw, h⟩ := Option.bind_eq_some_iff.mp h
    obtain ⟨rest, hrest, heq⟩ := Option.bind_eq_some_iff.mp h
    cases heq
    exact ⟨hsimple, w, rest, rfl, hw, hrest⟩
  case isFalse => cases h

private theorem concat?_some {a b : Option (List Sign)} (ha : ∃ x, a = some x) (hb : ∃ y, b = some y) :
    ∃ z, concat? a b = some z := by
  obtain ⟨x, rfl⟩ := ha
  obtain ⟨y, rfl⟩ := hb
  exact ⟨x ++ y, rfl⟩

mutual
theorem exists_signs : (v : Value) → {w : Value} → v.reread? = some w →
    ∃ signs, v.signs? = some signs
  | .null, _, _ | .bool _, _, _ | .number _, _, _ | .list [], _, _ | .object [], _, _ => ⟨_, rfl⟩
  | .text s, _, h => by
    obtain ⟨text, htext, -⟩ := Option.map_eq_some_iff.mp h
    rw [Value.signs?, htext]
    exact ⟨_, rfl⟩
  | .list (v :: vs), _, h => by
    obtain ⟨ws, hws, -⟩ := Option.map_eq_some_iff.mp h
    obtain ⟨w, rest, -, hw, hrest⟩ := exists_of_rereadItems? hws
    exact concat?_some ⟨_, rfl⟩ (concat?_some (exists_signs v hw) (exists_signsOfItems vs hrest))
  | .object ((k, v) :: ms), _, h => by
    obtain ⟨ws, hws, -⟩ := Option.map_eq_some_iff.mp h
    obtain ⟨hsimple, w, rest, -, hw, hrest⟩ := exists_of_rereadMembers? hws
    exact concat?_some ⟨_, rfl⟩ (concat?_some ⟨_, keySigns?_of_simple hsimple⟩
      (concat?_some (exists_signs v hw) (exists_signsOfMembers ms hrest)))

private theorem exists_signsOfItems : (vs : List Value) → {ws : List Value} →
    Value.rereadItems? vs = some ws → ∃ signs, Value.signsOfItems? vs = some signs
  | [], _, _ => ⟨_, rfl⟩
  | v :: vs, _, h => by
    obtain ⟨w, rest, -, hw, hrest⟩ := exists_of_rereadItems? h
    exact concat?_some ⟨_, rfl⟩ (concat?_some (exists_signs v hw) (exists_signsOfItems vs hrest))

private theorem exists_signsOfMembers : (ms : List (String × Value)) → {ws : List (String × Value)} →
    Value.rereadMembers? ms = some ws → ∃ signs, Value.signsOfMembers? ms = some signs
  | [], _, _ => ⟨_, rfl⟩
  | (k, v) :: ms, _, h => by
    obtain ⟨hsimple, w, rest, -, hw, hrest⟩ := exists_of_rereadMembers? h
    exact concat?_some ⟨_, rfl⟩ (concat?_some ⟨_, keySigns?_of_simple hsimple⟩
      (concat?_some (exists_signs v hw) (exists_signsOfMembers ms hrest)))
end

mutual
private theorem keeps_reread : (v : Value) → {w : Value} → v.reread? = some w →
    (v.IsCanonical → w.IsCanonical) ∧ (∀ P, v.AllNumbers P → w.AllNumbers P) ∧
      w.document.nesting = v.document.nesting
  | .null, _, h | .bool _, _, h | .number _, _, h => by
    cases h
    exact ⟨id, fun _ => id, rfl⟩
  | .text s, _, h => by
    obtain ⟨text, -, rfl⟩ := Option.map_eq_some_iff.mp h
    exact ⟨id, fun _ => id, rfl⟩
  | .list vs, _, h => by
    obtain ⟨ws, hws, rfl⟩ := Option.map_eq_some_iff.mp h
    obtain ⟨hcanonical, hnumbers, hnesting⟩ := keeps_rereadItems vs hws
    exact ⟨hcanonical, hnumbers, congrArg (· + 1) hnesting⟩
  | .object ms, _, h => by
    obtain ⟨ws, hws, rfl⟩ := Option.map_eq_some_iff.mp h
    obtain ⟨hkeys, hcanonical, hnumbers, hnesting⟩ := keeps_rereadMembers ms hws
    refine ⟨fun h => ⟨?_, hcanonical h.2⟩, hnumbers, congrArg (· + 1) hnesting⟩
    exact (List.pairwise_map (f := Prod.fst)).mp (hkeys ▸ List.pairwise_map.mpr h.1)

private theorem keeps_rereadItems : (vs : List Value) → {ws : List Value} →
    Value.rereadItems? vs = some ws →
    (Value.IsCanonicalIn vs → Value.IsCanonicalIn ws) ∧
      (∀ P, Value.AllNumbersIn P vs → Value.AllNumbersIn P ws) ∧
      Document.nestingOfItems (Value.documentsOfItems ws) =
        Document.nestingOfItems (Value.documentsOfItems vs)
  | [], _, h => by
    cases h
    exact ⟨id, fun _ => id, rfl⟩
  | v :: vs, _, h => by
    obtain ⟨w, ws, rfl, hw, hws⟩ := exists_of_rereadItems? h
    obtain ⟨hcanonical, hnumbers, hnesting⟩ := keeps_reread v hw
    obtain ⟨hcanonical', hnumbers', hnesting'⟩ := keeps_rereadItems vs hws
    exact ⟨fun h => ⟨hcanonical h.1, hcanonical' h.2⟩,
      fun P h => ⟨hnumbers P h.1, hnumbers' P h.2⟩, congrArg₂ max hnesting hnesting'⟩

theorem keeps_rereadMembers : (ms : List (String × Value)) → {ws : List (String × Value)} →
    Value.rereadMembers? ms = some ws →
    ws.map Prod.fst = ms.map Prod.fst ∧
      (Value.IsCanonicalAmong ms → Value.IsCanonicalAmong ws) ∧
      (∀ P, Value.AllNumbersAmong P ms → Value.AllNumbersAmong P ws) ∧
      Document.nestingOfMembers (Value.documentsOfMembers ws) =
        Document.nestingOfMembers (Value.documentsOfMembers ms)
  | [], _, h => by
    cases h
    exact ⟨rfl, id, fun _ => id, rfl⟩
  | (k, v) :: ms, _, h => by
    obtain ⟨-, w, ws, rfl, hw, hws⟩ := exists_of_rereadMembers? h
    obtain ⟨hcanonical, hnumbers, hnesting⟩ := keeps_reread v hw
    obtain ⟨hkeys, hcanonical', hnumbers', hnesting'⟩ := keeps_rereadMembers ms hws
    exact ⟨congrArg (k :: ·) hkeys, fun h => ⟨hcanonical h.1, hcanonical' h.2⟩,
      fun P h => ⟨hnumbers P h.1, hnumbers' P h.2⟩, congrArg₂ max hnesting hnesting'⟩
end

def IsKept (s : String) : Prop := '\u0085' ∉ s.toList ∧ Kept s.toList

mutual
/-- A value stays as it is if its keys are simple and its texts stay. -/
theorem reread?_eq_self_iff : (v : Value) → (v.reread? = some v ↔
    (∀ k ∈ v.keysWithin, isSimpleKey k = true) ∧ ∀ t ∈ v.textsWithin, IsKept t)
  | .null | .bool _ | .number _ => by
    simp [Value.reread?, Value.keysWithin, Value.textsWithin]
  | .text s => by
    have hfold : (Value.text s).reread? = some (.text s) ↔
        refold {} false s.toList = some s.toList := by
      constructor
      · intro h
        obtain ⟨text, htext, heq⟩ := Option.map_eq_some_iff.mp h
        rw [htext, ← Value.text.inj heq, String.toList_ofList]
      · intro h
        rw [Value.reread?, h, Option.map_some, String.ofList_toList]
    simp [hfold, refold_eq_self_iff, Value.keysWithin, Value.textsWithin, IsKept]
  | .list vs => by
    simp [Value.reread?, Value.keysWithin, Value.textsWithin, rereadItems?_eq_self_iff vs]
  | .object ms => by
    simp [Value.reread?, Value.keysWithin, Value.textsWithin, rereadMembers?_eq_self_iff ms]

private theorem rereadItems?_eq_self_iff : (vs : List Value) → (Value.rereadItems? vs = some vs ↔
    (∀ k ∈ Value.keysInItems vs, isSimpleKey k = true) ∧ ∀ t ∈ Value.textsInItems vs, IsKept t)
  | [] => by simp [Value.rereadItems?, Value.keysInItems, Value.textsInItems]
  | v :: vs => by
    have hsplit : Value.rereadItems? (v :: vs) = some (v :: vs) ↔
        v.reread? = some v ∧ Value.rereadItems? vs = some vs := by
      constructor
      · intro h
        obtain ⟨w, ws, heq, hw, hws⟩ := exists_of_rereadItems? h
        obtain ⟨rfl, rfl⟩ := List.cons.inj heq
        exact ⟨hw, hws⟩
      · rintro ⟨hw, hws⟩
        rw [Value.rereadItems?, hw, hws]
        rfl
    rw [hsplit, reread?_eq_self_iff v, rereadItems?_eq_self_iff vs, Value.keysInItems,
      Value.textsInItems, List.forall_mem_append, List.forall_mem_append]
    exact and_and_and_comm

private theorem rereadMembers?_eq_self_iff : (ms : List (String × Value)) →
    (Value.rereadMembers? ms = some ms ↔
      (∀ k ∈ Value.keysInMembers ms, isSimpleKey k = true) ∧
        ∀ t ∈ Value.textsInMembers ms, IsKept t)
  | [] => by simp [Value.rereadMembers?, Value.keysInMembers, Value.textsInMembers]
  | (k, v) :: ms => by
    have hsplit : Value.rereadMembers? ((k, v) :: ms) = some ((k, v) :: ms) ↔
        isSimpleKey k = true ∧ v.reread? = some v ∧ Value.rereadMembers? ms = some ms := by
      constructor
      · intro h
        obtain ⟨hsimple, w, ws, heq, hw, hws⟩ := exists_of_rereadMembers? h
        cases heq
        exact ⟨hsimple, hw, hws⟩
      · rintro ⟨hsimple, hw, hws⟩
        rw [Value.rereadMembers?, if_pos hsimple, hw, hws]
        rfl
    rw [hsplit, reread?_eq_self_iff v, rereadMembers?_eq_self_iff ms, Value.keysInMembers,
      Value.textsInMembers, List.forall_mem_cons, List.forall_mem_append, List.forall_mem_append,
      and_and_and_comm]
    exact and_assoc.symm
end

end Yaml
end CodeActions
