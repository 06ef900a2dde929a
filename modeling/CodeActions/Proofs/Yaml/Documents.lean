import CodeActions.Proofs.Yaml.Characters
import CodeActions.Proofs.Yaml.Growing
/-!
# Documents of JSON texts

The compact text of a JSON object without doubles is a YAML document that shows what the object
comes to in YAML, or is not whole (`ofText_toText`). Tokens without an end make no document
whole, because what growing leaves of tokens is among them.
-/
namespace CodeActions.Yaml
open Json

def Grown.Within {α : Type} (g : Grown α) (ts : List Token) : Prop :=
  ∀ r, g.rest = some r → r ⊆ ts

namespace Node
variable {handles : Handles}

private theorem properties_subset (ts : List Token) : (properties ts).2.2 ⊆ ts := by
  unfold properties
  split <;> simp

/-- Whether nothing that grows with so much fuel leaves other tokens. -/
structure AllWithin (handles : Handles) (fuel : Nat) : Prop where
  grow : ∀ place anchors ts, (grow handles place anchors fuel ts).Within ts
  growBlockList : ∀ anchors ts, (growBlockList handles anchors fuel ts).Within ts
  growUnless : ∀ place p m anchors ts, (growUnless handles place p m anchors fuel ts).Within ts
  growLooseList : ∀ anchors ts, (growLooseList handles anchors fuel ts).Within ts
  growBlockMap : ∀ anchors ts, (growBlockMap handles anchors fuel ts).Within ts
  growFlowList : ∀ isFirst anchors ts, (growFlowList handles isFirst anchors fuel ts).Within ts
  growPair : ∀ m anchors ts, (growPair handles m anchors fuel ts).Within ts
  growFlowMap : ∀ isFirst anchors ts, (growFlowMap handles isFirst anchors fuel ts).Within ts

section step
variable {fuel : Nat} (h : AllWithin handles fuel)
include h

private theorem within_grow (place : Place) (anchors : Anchors) (ts : List Token) :
    (Node.grow handles place anchors (fuel + 1) ts).Within ts := by
  intro r hr
  have hlooseList := h.growLooseList
  have hflowList := h.growFlowList
  have hflowMap := h.growFlowMap
  have hblockList := h.growBlockList
  have hblockMap := h.growBlockMap
  have hproperties := properties_subset
  unfold Node.grow at hr
  grind [Grown.Within, cutAt, growEmpty]

private theorem within_growBlockList (anchors : Anchors) (ts : List Token) :
    (Node.growBlockList handles anchors (fuel + 1) ts).Within ts := by
  intro r hr
  have hitem := h.growUnless
  have hmore := h.growBlockList
  unfold Node.growBlockList at hr
  grind [Grown.Within, cutAt]

private theorem within_growUnless (place : Place) (p : Sign → Bool) (m : Mark) (anchors : Anchors)
    (ts : List Token) : (Node.growUnless handles place p m anchors (fuel + 1) ts).Within ts := by
  intro r hr
  have hnode := h.grow
  unfold Node.growUnless at hr
  grind [Grown.Within, cutAt]

private theorem within_growLooseList (anchors : Anchors) (ts : List Token) :
    (Node.growLooseList handles anchors (fuel + 1) ts).Within ts := by
  intro r hr
  have hitem := h.growUnless
  have hmore := h.growLooseList
  unfold Node.growLooseList at hr
  grind [Grown.Within, cutAt]

private theorem within_growBlockMap (anchors : Anchors) (ts : List Token) :
    (Node.growBlockMap handles anchors (fuel + 1) ts).Within ts := by
  intro r hr
  have hpart := h.growUnless
  have hmore := h.growBlockMap
  unfold Node.growBlockMap at hr
  grind [Grown.Within, cutAt]

private theorem within_growFlowList (isFirst : Bool) (anchors : Anchors) (ts : List Token) :
    (Node.growFlowList handles isFirst anchors (fuel + 1) ts).Within ts := by
  intro r hr
  have hitem := h.grow
  have hpair := h.growPair
  have hmore := h.growFlowList
  unfold Node.growFlowList at hr
  grind [Grown.Within, cutAt]

private theorem within_growPair (m : Mark) (anchors : Anchors) (ts : List Token) :
    (Node.growPair handles m anchors (fuel + 1) ts).Within ts := by
  intro r hr
  have hkey := h.grow
  have hvalue := h.growUnless
  unfold Node.growPair at hr
  grind [Grown.Within, cutAt]

private theorem within_growFlowMap (isFirst : Bool) (anchors : Anchors) (ts : List Token) :
    (Node.growFlowMap handles isFirst anchors (fuel + 1) ts).Within ts := by
  have hmember (ts : List Token) :
      (Node.growFlowMap handles true anchors (fuel + 1) ts).Within ts := by
    intro r hr
    have hgrow := h.grow
    have hunless := h.growUnless
    unfold Node.growFlowMap at hr
    dsimp only at hr
    split at hr
    case h_1 => grind
    split at hr
    case h_1 => grind
    split at hr
    case h_1 => cases hr
    case h_2 k hk =>
      have hsub : k ⊆ ts := by split at hk <;> grind [Grown.Within]
      split at hr
      case h_1 => cases hr
      case h_2 v hv =>
        have hsub' : v ⊆ k := by split at hv <;> grind [Grown.Within, cutAt]
        exact List.Subset.trans (List.Subset.trans (h.growFlowMap _ _ _ _ hr) hsub') hsub
  cases isFirst with
  | true => exact hmember ts
  | false =>
    match ts with
    | [] => exact fun r hr => by cases hr
    | ⟨sign, m⟩ :: ts =>
      intro r hr
      cases sign
      case comma =>
        rw [growFlowMap_comma] at hr
        exact List.Subset.trans (hmember ts r hr) (List.subset_cons_self ..)
      case flowMapEnd =>
        cases hr
        exact List.subset_cons_self ..
      all_goals cases hr

end step

private theorem allWithin (handles : Handles) (fuel : Nat) : AllWithin handles fuel := by
  induction fuel with
  | zero =>
    have hcut {α : Type} {ts : List Token} {part : α} {anchors : Anchors} :
        (cutAt part anchors).Within ts := fun r hr => by cases hr
    exact ⟨fun _ _ _ => hcut, fun _ _ => hcut, fun _ _ _ _ _ => hcut, fun _ _ => hcut,
      fun _ _ => hcut, fun _ _ _ => hcut, fun _ _ _ => hcut, fun _ _ _ => hcut⟩
  | succ fuel ih =>
    exact ⟨within_grow ih, within_growBlockList ih, within_growUnless ih, within_growLooseList ih,
      within_growBlockMap ih, within_growFlowList ih, within_growPair ih, within_growFlowMap ih⟩

end Node

private theorem exists_end_of_endsWell {ts : List Token} (h : endsWell ts = true) :
    ∃ t ∈ ts, t.sign = .streamEnd := by
  induction ts with
  | nil => cases h
  | cons t ts ih =>
    unfold endsWell at h
    split at h
    case h_1 heq =>
      obtain ⟨rfl, rfl⟩ := List.cons.inj heq
      obtain ⟨u, hu, hsign⟩ := ih h
      exact ⟨u, List.mem_cons_of_mem _ hu, hsign⟩
    case h_2 heq =>
      obtain ⟨rfl, rfl⟩ := List.cons.inj heq
      exact ⟨_, List.mem_cons_self, rfl⟩
    case h_3 => cases h

private theorem directives_subset {ts rest : List Token} {version : Bool} {handles handles' : Handles}
    (h : directives version handles ts = some (handles', rest)) : rest ⊆ ts := by
  induction ts generalizing version handles with
  | nil =>
    cases h
    exact List.Subset.refl _
  | cons t ts ih =>
    unfold directives at h
    split at h
    case h_1 heq =>
      obtain ⟨rfl, rfl⟩ := List.cons.inj heq
      split at h
      · cases h
      · exact List.Subset.trans (ih h) (List.subset_cons_self ..)
    case h_2 heq =>
      obtain ⟨rfl, rfl⟩ := List.cons.inj heq
      split at h
      · cases h
      · exact List.Subset.trans (ih h) (List.subset_cons_self ..)
    case h_3 =>
      cases h
      exact List.Subset.refl _

namespace Document

private theorem ofTokens_of_unended {ts : List Token} (h : ∀ t ∈ ts, t.sign ≠ .streamEnd) :
    ∃ n, ofTokens ts = .root n false := by
  have hends {r : List Token} (hr : r ⊆ ts) : endsWell r = false := by
    refine Bool.eq_false_iff.mpr fun hends => ?_
    obtain ⟨t, ht, hsign⟩ := exists_end_of_endsWell hends
    exact h t (hr ht) hsign
  have hgrown (handles : Handles) (fuel : Nat) {r : List Token} (hr : r ⊆ ts) :
      ∃ n, ofGrown (Node.grow handles .block [] fuel r) = .root n false := by
    refine ⟨_, congrArg (Document.root _) ?_⟩
    cases hrest : (Node.grow handles .block [] fuel r).rest with
    | none => rfl
    | some left =>
      have hwithin := (Node.allWithin handles fuel).grow .block [] r left hrest
      exact hends (List.Subset.trans hwithin hr)
  unfold ofTokens
  dsimp only
  split
  case h_1 m => exact absurd rfl (h ⟨.streamEnd, m⟩ List.mem_cons_self)
  case h_2 => exact ⟨.cut, rfl⟩
  case h_3 t rest _ =>
    split
    case h_1 handles m rest' hdirectives =>
      have hrest : rest' ⊆ t :: rest :=
        List.Subset.trans (List.subset_cons_self ..) (directives_subset hdirectives)
      split
      case h_6 => exact hgrown _ _ hrest
      all_goals exact ⟨_, congrArg (Document.root _) (hends hrest)⟩
    case h_2 handles rest' _ hdirectives =>
      split
      case h_3 => exact hgrown _ _ (directives_subset hdirectives)
      all_goals exact ⟨.cut, rfl⟩
    case h_3 => exact ⟨.cut, rfl⟩

private theorem ofTokens_of_startsValue {t : Token} (h : Node.startsValue t.sign = true) (ts : List Token) :
    ofTokens (t :: ts) = ofGrown (Node.grow [("!", "!"), ("!!", "tag:yaml.org,2002:")] .block []
      (4 * (t :: ts).length + 8) (t :: ts)) := by
  obtain ⟨sign, m⟩ := t
  cases sign <;> first | rfl | cases h

end Document

private theorem return_not_mem_render {v : Value} (hv : v.AllNumbers Number.IsInt) : '\r' ∉ v.render := by
  have hvisible (c : Char) (hlow : 0x20 ≤ c.toNat) (_ : c.toNat < 0x7F) : c ≠ '\r' := by
    rintro rfl
    exact absurd hlow (by decide)
  have hbeyond (s : String) : Value.Beyond (· ≠ '\r') s := by
    rintro c - hhigh rfl
    exact absurd hhigh (by decide)
  have hall := (Value.forall_render_iff hvisible v hv).mpr
    ⟨fun k _ => hbeyond k, fun t _ => hbeyond t⟩
  exact fun hmem => hall _ hmem rfl

/-- The tokens of the text of an object are the signs of the object and an end, or have no end. -/
private theorem tokens?_toText {ms : List (String × Value)} (hms : Value.AllNumbersAmong Number.IsInt ms)
    (hallowed : (Value.object ms).render.all isAllowed = true) :
    ∃ ts, tokens? (Value.object ms).toText = some ts ∧
      match (Value.object ms).signs? with
      | some signs => ts.map (·.sign) = signs ++ [.streamEnd]
      | none => ∀ t ∈ ts, t.sign ≠ .streamEnd := by
  obtain ⟨cs, hcs⟩ : ∃ cs, (Value.object ms).render = '\x7b' :: cs := by
    match ms with
    | [] => exact ⟨_, rfl⟩
    | (k, v) :: ms => exact ⟨_, rfl⟩
  have hreturn := return_not_mem_render (v := .object ms) hms
  let text := (Value.object ms).render.map unified
  let start : Scanner := { rest := placed ⟨0, 0⟩ text, finish := endMark ⟨0, 0⟩ text }
  refine ⟨Scanner.run (text.length + 1) start, ?_, ?_⟩
  · rw [tokens?, Value.toText, String.toList_ofList, if_pos hallowed, unifyBreaks_eq_map hreturn]
    simp only [start, text, hcs]
    rfl
  · have hstart : start.At 0 true [] ⟨0, 0⟩ (text ++ []) := by
      rw [List.append_nil]
      exact ⟨rfl, rfl, rfl, rfl, rfl, rfl, List.not_mem_nil, by simp [start]⟩
    have hleads := Scanner.At.leads (.object ms) hms (fun h => h.elim) hstart
    have hlength : start.rest.length = text.length := Scanner.length_placed _ _
    cases hsigns : (Value.object ms).signs? with
    | none =>
      rw [hsigns] at hleads
      exact hleads _ (by omega)
    | some signs =>
      rw [hsigns] at hleads
      obtain ⟨t, m, ⟨steps, hsteps, hrun⟩, hat⟩ := hleads
      obtain ⟨fuel, hfuel⟩ := Nat.exists_eq_add_of_le' (show steps ≤ text.length by omega)
      have hsplit : text.length + 1 = fuel + 1 + steps := by omega
      rw [hsplit, hrun]
      exact hat.finished fuel

namespace Document

/-- The text of an object is a document that shows what the object comes to, or is not whole. -/
theorem ofText_toText {ms : List (String × Value)} (hms : Value.AllNumbersAmong Number.IsInt ms) :
    ∃ n isWhole, ofText (Value.object ms).toText = .root n isWhole ∧
      ((∃ w, (Value.object ms).inYaml? = some w ∧ isWhole = true ∧ w.ShownBy n) ∨
        (Value.object ms).inYaml? = none ∧ isWhole = false) := by
  rw [Value.inYaml?]
  cases hallowed : (Value.object ms).render.all isAllowed with
  | false =>
    refine ⟨.cut, false, ?_, .inr ⟨rfl, rfl⟩⟩
    rw [ofText, tokens?, Value.toText, String.toList_ofList, hallowed]
    rfl
  | true =>
    obtain ⟨ts, htokens, hsigns⟩ := tokens?_toText hms hallowed
    rw [ofText, htokens, if_pos rfl]
    cases hv : (Value.object ms).signs? with
    | none =>
      rw [hv] at hsigns
      obtain ⟨n, hn⟩ := ofTokens_of_unended hsigns
      refine ⟨n, false, hn, ?_⟩
      cases hw : (Value.object ms).reread? with
      | none => exact .inr ⟨rfl, rfl⟩
      | some w =>
        obtain ⟨signs, hsome⟩ := exists_signs _ hw
        rw [hv] at hsome
        cases hsome
    | some signs =>
      rw [hv] at hsigns
      obtain ⟨pre, last, rfl, rfl, hlast⟩ := List.map_eq_append_iff.mp hsigns
      have hend : Spans last (some [.streamEnd]) [] :=
        ⟨last, (List.append_nil _).symm, congrArg some hlast.symm⟩
      obtain ⟨m, rfl⟩ := spans_singleton_iff.mp hend
      have hspans : Spans (pre ++ [⟨.streamEnd, m⟩]) (Value.object ms).signs? [⟨.streamEnd, m⟩] :=
        ⟨pre, rfl, hv⟩
      obtain ⟨t, tail, htail, hstart⟩ := exists_startsValue hspans
      rw [htail] at hspans ⊢
      let g := Node.grow [("!", "!"), ("!!", "tag:yaml.org,2002:")] .block []
        (4 * (t :: tail).length + 8) (t :: tail)
      have hgives : g.Gives [] [⟨.streamEnd, m⟩] ((Value.object ms).reread?.map Value.ShownBy) :=
        gives_grow _ hspans (by omega)
      refine ⟨g.part, g.rest.any endsWell, ofTokens_of_startsValue hstart tail, ?_⟩
      cases hw : (Value.object ms).reread? with
      | none =>
        rw [hw] at hgives
        have hrest : g.rest = none := hgives
        rw [hrest]
        exact .inr ⟨rfl, rfl⟩
      | some w =>
        rw [hw] at hgives
        obtain ⟨-, hrest, hshown⟩ := hgives
        rw [hrest]
        exact .inl ⟨w, rfl, rfl, hshown⟩

end Document

end CodeActions.Yaml
