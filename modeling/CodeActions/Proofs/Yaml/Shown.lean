import CodeActions.Proofs.Yaml.Content
import CodeActions.Proofs.Yaml.Growing
/-!
# Reading shown values

A canonical value without doubles is read from every node that shows it (`readContent_of_shown`),
as long as it does not nest too deep.
-/
namespace CodeActions.Yaml
open Json

section
variable (env : Env) (depth : Nat) (path : Path) (m : Mark)

private theorem readContent_scalar {style : Style} {text : String} {found : Found}
    (h : resolve none style text = .ok found) (hwide : ∀ i, found ≠ .wide i) :
    readContent env depth path (.scalar m none none style text) = pure (.scalar found) := by
  have hfollow : env.follow (.scalar m none none style text) =
      pure (.scalar m none none style text) := rfl
  have htag : ¬isLocalTag none = true := Bool.false_ne_true
  rw [readContent.eq_def, hfollow, pure_bind]
  dsimp only
  rw [if_neg htag, h]
  cases found with
  | wide i => exact absurd rfl (hwide i)
  | _ => rfl

private theorem readContent_list (ns : List Node) :
    readContent env (depth + 1) path (.list m none none ns) =
      .list <$> eachItem (fun i n => readContent env depth (.index i :: path) n) 0 ns := by
  rw [readContent.eq_def]
  rfl

private theorem readContent_map (ns : List (Node × Node)) :
    readContent env (depth + 1) path (.map m none none ns) =
      .map <$> eachItem (fun _ n => do
        let key ← readContent env depth path n.1
        return (key, ← readContent env depth (path.member n.1) n.2)) 0 ns := by
  rw [readContent.eq_def]
  rfl

end

private theorem resolve_bare {v : Value} (hint : v.AllNumbers Number.IsInt)
    (hfits : v.AllNumbers Number.Fits) (hbare : v.IsBare) :
    ∃ found, resolve none .plain v.toText = .ok found ∧ (∀ i, found ≠ .wide i) ∧
      (Content.scalar found).toValue = .ok v := by
  match v, hint, hfits with
  | .null, _, _ => exact ⟨.null, rfl, by simp, rfl⟩
  | .bool true, _, _ => exact ⟨.bool true, rfl, by simp, rfl⟩
  | .bool false, _, _ => exact ⟨.bool false, rfl, by simp, rfl⟩
  | .number (.int i), _, hfits =>
    exact ⟨.int i, congrArg Except.ok (resolvePlain_intText hfits), by simp, rfl⟩

mutual
theorem readContent_of_shown (env : Env) : (v : Value) → {n : Node} → v.ShownBy n →
    v.AllNumbers Number.IsInt → v.AllNumbers Number.Fits → v.IsCanonical → {depth : Nat} →
    v.document.nesting ≤ depth →
    ∃ c, (∀ path, readContent env depth path n = pure c) ∧ c.toValue = .ok v
  | .null, _, ⟨m, hn⟩, hint, hfits, _, _, _ | .bool _, _, ⟨m, hn⟩, hint, hfits, _, _, _
  | .number _, _, ⟨m, hn⟩, hint, hfits, _, _, _ => by
    obtain ⟨found, hfound, hwide, hvalue⟩ := resolve_bare hint hfits trivial
    subst hn
    exact ⟨.scalar found, fun path => readContent_scalar env _ path m hfound hwide, hvalue⟩
  | .text s, _, ⟨m, hn⟩, _, _, _, _, _ => by
    subst hn
    exact ⟨.scalar (.text s), fun path => readContent_scalar env _ path m rfl (by simp), rfl⟩
  | .list vs, _, ⟨m, ns, hn, hns⟩, hint, hfits, hcanonical, depth, hdepth => by
    subst hn
    have hle : Document.nestingOfItems (Value.documentsOfItems vs) + 1 ≤ depth := hdepth
    obtain ⟨depth, rfl⟩ := Nat.exists_eq_add_of_le' (Nat.le_trans (Nat.le_add_left 1 _) hle)
    obtain ⟨cs, hcs, hvalues⟩ :=
      readItems_of_shown env vs hns hint hfits hcanonical (Nat.le_of_succ_le_succ hle)
    refine ⟨.list cs, fun path => ?_, ?_⟩
    · rw [readContent_list, hcs, map_pure]
    · rw [Content.toValue, hvalues]
      rfl
  | .object ms, _, ⟨m, ns, hn, hns⟩, hint, hfits, hcanonical, depth, hdepth => by
    subst hn
    have hle : Document.nestingOfMembers (Value.documentsOfMembers ms) + 1 ≤ depth := hdepth
    obtain ⟨depth, rfl⟩ := Nat.exists_eq_add_of_le' (Nat.le_trans (Nat.le_add_left 1 _) hle)
    obtain ⟨cs, hcs, hvalues⟩ :=
      readMembers_of_shown env ms hns hint hfits hcanonical.2 (Nat.le_of_succ_le_succ hle)
    refine ⟨.map cs, fun path => ?_, ?_⟩
    · rw [readContent_map, hcs, map_pure]
    · rw [Content.toValue, hvalues]
      exact congrArg (fun ms => Except.ok (Value.object ms)) (Value.sorted_of_byKey hcanonical.1)

private theorem readItems_of_shown (env : Env) : (vs : List Value) → {ns : List Node} →
    Value.ItemsShownBy vs ns → Value.AllNumbersIn Number.IsInt vs →
    Value.AllNumbersIn Number.Fits vs → Value.IsCanonicalIn vs → {depth : Nat} →
    Document.nestingOfItems (Value.documentsOfItems vs) ≤ depth →
    ∃ cs, (∀ path i, eachItem (fun i n => readContent env depth (.index i :: path) n) i ns =
        pure cs) ∧
      Content.toValues cs = .ok vs
  | [], _, hns, _, _, _, _, _ => by
    subst hns
    exact ⟨[], fun _ _ => rfl, rfl⟩
  | v :: vs, _, ⟨n, rest, hn, hv, hvs⟩, hint, hfits, hcanonical, depth, hdepth => by
    subst hn
    obtain ⟨hle, hle'⟩ := Nat.max_le.mp hdepth
    obtain ⟨c, hc, hvalue⟩ := readContent_of_shown env v hv hint.1 hfits.1 hcanonical.1 hle
    obtain ⟨cs, hcs, hvalues⟩ := readItems_of_shown env vs hvs hint.2 hfits.2 hcanonical.2 hle'
    refine ⟨c :: cs, fun path i => ?_, ?_⟩
    · rw [eachItem, hc, pure_bind, hcs, pure_bind]
    · rw [Content.toValues, hvalue, hvalues]
      rfl

private theorem readMembers_of_shown (env : Env) : (ms : List (String × Value)) →
    {ns : List (Node × Node)} → Value.MembersShownBy ms ns →
    Value.AllNumbersAmong Number.IsInt ms → Value.AllNumbersAmong Number.Fits ms →
    Value.IsCanonicalAmong ms → {depth : Nat} →
    Document.nestingOfMembers (Value.documentsOfMembers ms) ≤ depth →
    ∃ cs, (∀ path i, eachItem (fun _ n => do
        let key ← readContent env depth path n.1
        return (key, ← readContent env depth (path.member n.1) n.2)) i ns = pure cs) ∧
      ∀ isFirst, Content.toMembers isFirst cs = .ok ms
  | [], _, hns, _, _, _, _, _ => by
    subst hns
    exact ⟨[], fun _ _ => rfl, fun _ => rfl⟩
  | (k, v) :: ms, _, ⟨n, rest, hn, ⟨⟨m, hk⟩, hv⟩, hms⟩, hint, hfits, hcanonical, depth, hdepth => by
    subst hn
    obtain ⟨hle, hle'⟩ := Nat.max_le.mp hdepth
    have hkey (path : Path) : readContent env depth path n.1 = pure (.scalar (.text k)) :=
      hk ▸ readContent_scalar env depth path m rfl (by simp)
    obtain ⟨c, hc, hvalue⟩ := readContent_of_shown env v hv hint.1 hfits.1 hcanonical.1 hle
    obtain ⟨cs, hcs, hvalues⟩ := readMembers_of_shown env ms hms hint.2 hfits.2 hcanonical.2 hle'
    refine ⟨(.scalar (.text k), c) :: cs, fun path i => ?_, fun isFirst => ?_⟩
    · rw [eachItem, hkey, pure_bind, hc, pure_bind, pure_bind, hcs, pure_bind]
    · rw [Content.toMembers, hvalue]
      change (Content.toMembers false cs >>= _) = _
      rw [hvalues]
      rfl
end

end CodeActions.Yaml
