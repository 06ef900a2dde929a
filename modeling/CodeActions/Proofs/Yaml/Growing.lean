import CodeActions.Proofs.Yaml.Reread
/-!
# Growing JSON documents

The node that grows from the signs of a value shows what is reread of it, and no node is whole if
nothing is (`gives_grow`): a value without the sign of a key in front of it ends a document.
-/
namespace CodeActions
open Json Text

namespace Json.Value
open Yaml

def IsQuoted (s : String) (n : Node) : Prop := ∃ m, n = .scalar m none none .quoted s

mutual
def ShownBy : Value → Node → Prop
  | .text s, n => IsQuoted s n
  | .list vs, n => ∃ m ns, n = .list m none none ns ∧ ItemsShownBy vs ns
  | .object ms, n => ∃ m ns, n = .map m none none ns ∧ MembersShownBy ms ns
  | v, n => ∃ m, n = .scalar m none none .plain v.toText

def ItemsShownBy : List Value → List Node → Prop
  | [], ns => ns = []
  | v :: vs, ns => ∃ n rest, ns = n :: rest ∧ v.ShownBy n ∧ ItemsShownBy vs rest

def MembersShownBy : List (String × Value) → List (Node × Node) → Prop
  | [], ns => ns = []
  | (k, v) :: ms, ns => ∃ n rest, ns = n :: rest ∧ (IsQuoted k n.1 ∧ v.ShownBy n.2) ∧
      MembersShownBy ms rest
end

end Json.Value

namespace Yaml

/-- Whether tokens start with ones of these signs, and `rest` is left. -/
def Spans (ts : List Token) (signs : Option (List Sign)) (rest : List Token) : Prop :=
  ∃ pre, ts = pre ++ rest ∧ signs = some (pre.map (·.sign))

private theorem spans_concat_iff {ts rest : List Token} {a b : Option (List Sign)} :
    Spans ts (concat? a b) rest ↔ ∃ mid, Spans ts a mid ∧ Spans mid b rest := by
  constructor
  · rintro ⟨pre, rfl, h⟩
    obtain ⟨x, hx, h⟩ := Option.bind_eq_some_iff.mp h
    obtain ⟨y, hy, heq⟩ := Option.map_eq_some_iff.mp h
    obtain ⟨first, second, rfl, rfl, rfl⟩ := List.map_eq_append_iff.mp heq.symm
    exact ⟨second ++ rest, ⟨first, List.append_assoc .., hx⟩, second, rfl, hy⟩
  · rintro ⟨mid, ⟨first, rfl, rfl⟩, second, rfl, rfl⟩
    exact ⟨first ++ second, (List.append_assoc ..).symm, by simp [concat?]⟩

private theorem spans_cons_iff {ts rest : List Token} {sign : Sign} {signs : List Sign} :
    Spans ts (some (sign :: signs)) rest ↔ ∃ m mid, ts = ⟨sign, m⟩ :: mid ∧
      Spans mid (some signs) rest := by
  constructor
  · rintro ⟨pre, rfl, h⟩
    obtain ⟨t, pre, rfl, rfl, htail⟩ := List.map_eq_cons_iff.mp (Option.some_inj.mp h).symm
    exact ⟨t.mark, pre ++ rest, rfl, pre, rfl, congrArg some htail.symm⟩
  · rintro ⟨m, mid, rfl, pre, rfl, h⟩
    exact ⟨⟨sign, m⟩ :: pre, rfl, by simpa using h⟩

private theorem spans_nil_iff {ts rest : List Token} : Spans ts (some []) rest ↔ ts = rest := by
  constructor
  · rintro ⟨pre, rfl, h⟩
    obtain rfl := List.map_eq_nil_iff.mp (Option.some_inj.mp h).symm
    rfl
  · rintro rfl
    exact ⟨[], rfl, rfl⟩

theorem spans_singleton_iff {ts rest : List Token} {sign : Sign} :
    Spans ts (some [sign]) rest ↔ ∃ m, ts = ⟨sign, m⟩ :: rest := by
  simp [spans_cons_iff, spans_nil_iff]

private theorem Spans.length_le {ts rest : List Token} {signs : Option (List Sign)}
    (h : Spans ts signs rest) : rest.length ≤ ts.length := by
  obtain ⟨pre, rfl, -⟩ := h
  simp

def Grown.followedBy {α : Type} (g : Grown α) (more : Anchors → List Token → Grown (List α)) :
    Grown (List α) :=
  match g.rest with
  | none => Node.cutAt [g.part] g.anchors
  | some ts => { more g.anchors ts with part := g.part :: (more g.anchors ts).part }

/-- Whether what has grown is whole and leaves `rest`, or is cut. -/
def Grown.Gives {α : Type} (g : Grown α) (anchors : Anchors) (rest : List Token) :
    Option (α → Prop) → Prop
  | some P => g.anchors = anchors ∧ g.rest = some rest ∧ P g.part
  | none => g.rest = none

def cons? {α : Type} (P : Option (α → Prop)) (Q : Option (List α → Prop)) :
    Option (List α → Prop) :=
  P.bind fun P => Q.map fun Q as => ∃ a rest, as = a :: rest ∧ P a ∧ Q rest

private theorem Grown.Gives.followedBy {α : Type} {g : Grown α} {anchors : Anchors} {mid rest : List Token}
    {P : Option (α → Prop)} {Q : Option (List α → Prop)}
    {more : Anchors → List Token → Grown (List α)} (hg : g.Gives anchors mid P)
    (hmore : (more anchors mid).Gives anchors rest Q) :
    (g.followedBy more).Gives anchors rest (cons? P Q) := by
  rw [Grown.followedBy]
  cases P with
  | none =>
    rw [show g.rest = none from hg]
    rfl
  | some P =>
    obtain ⟨rfl, hrest, hP⟩ := hg
    rw [hrest]
    cases Q with
    | none => exact hmore
    | some Q =>
      obtain ⟨hanchors, hrest', hQ⟩ := hmore
      exact ⟨hanchors, hrest', _, _, rfl, hP, hQ⟩

theorem Grown.Gives.map {α β γ : Type} {g : Grown α} {anchors : Anchors} {rest : List Token}
    {shown : Option γ} {P : γ → α → Prop} {Q : γ → β → Prop} {f : α → β}
    (hg : g.Gives anchors rest (shown.map P)) (hf : ∀ c a, P c a → Q c (f a)) :
    Grown.Gives ⟨f g.part, g.anchors, g.rest⟩ anchors rest (shown.map Q) := by
  cases shown with
  | none => exact hg
  | some c => exact ⟨hg.1, hg.2.1, hf c g.part hg.2.2⟩

namespace Node

def startsValue : Sign → Bool
  | .scalar _ _ | .flowListStart | .flowMapStart => true
  | _ => false

variable (handles : Handles) (place : Place) (anchors : Anchors) (fuel : Nat) (m m' m'' : Mark)
  (ts : List Token)

private theorem grow_list :
    grow handles place anchors (fuel + 1) (⟨.flowListStart, m⟩ :: ts) =
      let g := growFlowList handles true anchors fuel ts
      ⟨.list m none none g.part, g.anchors, g.rest⟩ := rfl

private theorem grow_map :
    grow handles place anchors (fuel + 1) (⟨.flowMapStart, m⟩ :: ts) =
      let g := growFlowMap handles true anchors fuel ts
      ⟨.map m none none g.part, g.anchors, g.rest⟩ := rfl

private theorem growFlowList_comma :
    growFlowList handles false anchors (fuel + 1) (⟨.comma, m⟩ :: ts) =
      growFlowList handles true anchors (fuel + 1) ts := by
  match ts with
  | [] => rfl
  | ⟨sign, m⟩ :: ts => cases sign <;> rfl

theorem growFlowMap_comma :
    growFlowMap handles false anchors (fuel + 1) (⟨.comma, m⟩ :: ts) =
      growFlowMap handles true anchors (fuel + 1) ts := by
  match ts with
  | [] => rfl
  | ⟨sign, m⟩ :: ts => cases sign <;> rfl

private theorem growFlowList_item {t : Token} (h : startsValue t.sign = true) :
    growFlowList handles true anchors (fuel + 1) (t :: ts) =
      (grow handles .flow anchors fuel (t :: ts)).followedBy
        fun anchors ts => growFlowList handles false anchors fuel ts := by
  obtain ⟨sign, m⟩ := t
  cases sign <;> first | rfl | cases h

private theorem growFlowMap_member {t : Token} (h : startsValue t.sign = true) (k : String) :
    growFlowMap handles true anchors (fuel + 3)
        (⟨.key, m⟩ :: ⟨.scalar .quoted k, m'⟩ :: ⟨.value, m''⟩ :: t :: ts) =
      let v := grow handles .flow anchors (fuel + 1) (t :: ts)
      Grown.followedBy ⟨(.scalar m' none none .quoted k, v.part), v.anchors, v.rest⟩
        fun anchors ts => growFlowMap handles false anchors (fuel + 2) ts := by
  obtain ⟨sign, m⟩ := t
  cases sign <;> first | rfl | cases h

private theorem growFlowMap_cut (text : String) :
    (growFlowMap handles true anchors (fuel + 2)
      (⟨.scalar .quoted text, m⟩ :: ⟨.value, m'⟩ :: ts)).rest = none := rfl

end Node

theorem exists_startsValue {v : Value} {ts rest : List Token} (h : Spans ts v.signs? rest) :
    ∃ t tail, ts = t :: tail ∧ Node.startsValue t.sign = true := by
  have hhead {sign : Sign} {signs : Option (List Sign)} (hsign : Node.startsValue sign = true)
      (h : Spans ts (concat? (some [sign]) signs) rest) :
      ∃ t tail, ts = t :: tail ∧ Node.startsValue t.sign = true := by
    obtain ⟨mid, hfirst, -⟩ := spans_concat_iff.mp h
    obtain ⟨m, rfl⟩ := spans_singleton_iff.mp hfirst
    exact ⟨_, _, rfl, hsign⟩
  have hscalar {style : Style} {text : String} (h : Spans ts (some [.scalar style text]) rest) :
      ∃ t tail, ts = t :: tail ∧ Node.startsValue t.sign = true := by
    obtain ⟨m, rfl⟩ := spans_singleton_iff.mp h
    exact ⟨_, _, rfl, rfl⟩
  match v, h with
  | .null, h | .bool _, h | .number _, h => exact hscalar h
  | .text s, h =>
    rw [Value.signs?] at h
    cases hfold : refold {} false s.toList with
    | none =>
      rw [hfold] at h
      obtain ⟨pre, -, hnone⟩ := h
      cases hnone
    | some text =>
      rw [hfold] at h
      exact hscalar h
  | .list [], h =>
    change Spans ts (concat? (some [.flowListStart]) (some [.flowListEnd])) rest at h
    exact hhead rfl h
  | .list (v :: vs), h => exact hhead rfl h
  | .object [], h =>
    change Spans ts (concat? (some [.flowMapStart]) (some [.flowMapEnd])) rest at h
    exact hhead rfl h
  | .object ((k, v) :: ms), h => exact hhead rfl h

private theorem reread?_items (v : Value) (vs : List Value) :
    (Value.rereadItems? (v :: vs)).map Value.ItemsShownBy =
      cons? (v.reread?.map Value.ShownBy) ((Value.rereadItems? vs).map Value.ItemsShownBy) := by
  rw [Value.rereadItems?]
  cases v.reread? <;> cases Value.rereadItems? vs <;> rfl

private theorem reread?_members {k : String} (hsimple : isSimpleKey k = true) (v : Value)
    (ms : List (String × Value)) :
    (Value.rereadMembers? ((k, v) :: ms)).map Value.MembersShownBy =
      cons? (v.reread?.map fun w n => Value.IsQuoted k n.1 ∧ w.ShownBy n.2)
        ((Value.rereadMembers? ms).map Value.MembersShownBy) := by
  rw [Value.rereadMembers?, if_pos hsimple]
  cases v.reread? <;> cases Value.rereadMembers? ms <;> rfl

variable {handles : Handles} {anchors : Anchors}

private theorem gives_item {v : Value} {vs : List Value} {fuel : Nat} {ts mid rest : List Token}
    (hspans : Spans ts v.signs? mid)
    (hv : (Node.grow handles .flow anchors fuel ts).Gives anchors mid
      (v.reread?.map Value.ShownBy))
    (hvs : (Node.growFlowList handles false anchors fuel mid).Gives anchors rest
      ((Value.rereadItems? vs).map Value.ItemsShownBy)) :
    (Node.growFlowList handles true anchors (fuel + 1) ts).Gives anchors rest
      ((Value.rereadItems? (v :: vs)).map Value.ItemsShownBy) := by
  obtain ⟨t, tail, rfl, hstart⟩ := exists_startsValue hspans
  rw [Node.growFlowList_item _ _ _ _ hstart, reread?_items]
  exact hv.followedBy hvs

private theorem gives_member {k : String} {v : Value} {ms : List (String × Value)} {fuel : Nat}
    {ts mid mid' rest : List Token} (hkey : Spans ts (keySigns? k) mid)
    (hspans : Spans mid v.signs? mid')
    (hv : (Node.grow handles .flow anchors (fuel + 1) mid).Gives anchors mid'
      (v.reread?.map Value.ShownBy))
    (hms : (Node.growFlowMap handles false anchors (fuel + 2) mid').Gives anchors rest
      ((Value.rereadMembers? ms).map Value.MembersShownBy)) :
    (Node.growFlowMap handles true anchors (fuel + 3) ts).Gives anchors rest
      ((Value.rereadMembers? ((k, v) :: ms)).map Value.MembersShownBy) := by
  obtain ⟨t, tail, rfl, hstart⟩ := exists_startsValue hspans
  cases hsimple : isSimpleKey k with
  | true =>
    rw [keySigns?_of_simple hsimple, spans_cons_iff] at hkey
    obtain ⟨m, _, rfl, hkey⟩ := hkey
    obtain ⟨m', _, rfl, hvalue⟩ := spans_cons_iff.mp hkey
    obtain ⟨m'', rfl⟩ := spans_singleton_iff.mp hvalue
    rw [Node.growFlowMap_member _ _ _ _ _ _ _ hstart, reread?_members hsimple]
    refine Grown.Gives.followedBy ?_ hms
    exact hv.map (f := fun n => (Node.scalar m' none none .quoted k, n)) fun w n hw =>
      ⟨⟨m', rfl⟩, hw⟩
  | false =>
    have hnone : Value.rereadMembers? ((k, v) :: ms) = none := by
      rw [Value.rereadMembers?, hsimple]
      rfl
    rw [keySigns?, hsimple] at hkey
    cases hfold : refold {} false k.toList with
    | none =>
      rw [hfold] at hkey
      obtain ⟨pre, -, hsigns⟩ := hkey
      cases hsigns
    | some text =>
      rw [hfold] at hkey
      obtain ⟨m, _, rfl, hvalue⟩ := spans_cons_iff.mp hkey
      obtain ⟨m', rfl⟩ := spans_singleton_iff.mp hvalue
      rw [hnone]
      exact Node.growFlowMap_cut ..

private theorem length_of_key {k : String} {ts rest : List Token} (h : Spans ts (keySigns? k) rest) :
    rest.length + 2 ≤ ts.length := by
  obtain ⟨pre, rfl, hsigns⟩ := h
  obtain ⟨text, -, hpre⟩ := Option.map_eq_some_iff.mp hsigns
  have hlength := congrArg List.length hpre
  rw [List.length_append, List.length_map] at hlength
  simp only [List.length_append, List.length_cons, List.length_nil] at hlength ⊢
  omega

-- No token before `rest` takes more than two calls, so this much fuel is enough.
mutual
/-- What grows from the signs of a value shows what is reread of it, or is cut. -/
theorem gives_grow : (v : Value) → {place : Node.Place} → {fuel : Nat} → {ts rest : List Token} →
    Spans ts v.signs? rest → 2 * ts.length ≤ fuel + 2 * rest.length →
    (Node.grow handles place anchors fuel ts).Gives anchors rest (v.reread?.map Value.ShownBy)
  | .null, _, fuel, _, _, hspans, hfuel | .bool _, _, fuel, _, _, hspans, hfuel
  | .number _, _, fuel, _, _, hspans, hfuel => by
    obtain ⟨m, rfl⟩ := spans_singleton_iff.mp hspans
    rw [List.length_cons] at hfuel
    obtain ⟨fuel, rfl⟩ := Nat.exists_eq_add_of_le' (show 1 ≤ fuel by omega)
    exact ⟨rfl, rfl, m, rfl⟩
  | .text s, _, fuel, _, _, hspans, hfuel => by
    rw [Value.signs?] at hspans
    rw [Value.reread?]
    cases hfold : refold {} false s.toList with
    | none =>
      rw [hfold] at hspans
      obtain ⟨pre, -, hnone⟩ := hspans
      cases hnone
    | some text =>
      rw [hfold] at hspans
      obtain ⟨m, rfl⟩ := spans_singleton_iff.mp hspans
      rw [List.length_cons] at hfuel
      obtain ⟨fuel, rfl⟩ := Nat.exists_eq_add_of_le' (show 1 ≤ fuel by omega)
      exact ⟨rfl, rfl, m, rfl⟩
  | .list [], _, fuel, _, _, hspans, hfuel => by
    obtain ⟨m, _, rfl, hend⟩ := spans_cons_iff.mp hspans
    obtain ⟨m', rfl⟩ := spans_singleton_iff.mp hend
    simp only [List.length_cons] at hfuel
    obtain ⟨fuel, rfl⟩ := Nat.exists_eq_add_of_le' (show 2 ≤ fuel by omega)
    exact ⟨rfl, rfl, m, [], rfl, rfl⟩
  | .list (v :: vs), _, fuel, _, _, hspans, hfuel => by
    obtain ⟨_, hstart, hitems⟩ := spans_concat_iff.mp hspans
    obtain ⟨m, rfl⟩ := spans_singleton_iff.mp hstart
    obtain ⟨mid, hv, hvs⟩ := spans_concat_iff.mp hitems
    have hle := hv.length_le
    have hle' := hvs.length_le
    rw [List.length_cons] at hfuel
    obtain ⟨fuel, rfl⟩ := Nat.exists_eq_add_of_le' (show 2 ≤ fuel by omega)
    have hitem : (Node.grow handles .flow anchors fuel _).Gives anchors mid _ :=
      gives_grow v hv (by omega)
    have hitems := gives_item hv hitem (gives_growFlowList vs hvs (by omega))
    rw [Node.grow_list, Value.reread?, Option.map_eq_map, Option.map_map]
    exact hitems.map fun ws ns hws => ⟨m, ns, rfl, hws⟩
  | .object [], _, fuel, _, _, hspans, hfuel => by
    obtain ⟨m, _, rfl, hend⟩ := spans_cons_iff.mp hspans
    obtain ⟨m', rfl⟩ := spans_singleton_iff.mp hend
    simp only [List.length_cons] at hfuel
    obtain ⟨fuel, rfl⟩ := Nat.exists_eq_add_of_le' (show 2 ≤ fuel by omega)
    exact ⟨rfl, rfl, m, [], rfl, rfl⟩
  | .object ((k, v) :: ms), _, fuel, _, _, hspans, hfuel => by
    obtain ⟨_, hstart, hmembers⟩ := spans_concat_iff.mp hspans
    obtain ⟨m, rfl⟩ := spans_singleton_iff.mp hstart
    obtain ⟨mid, hkey, hmembers⟩ := spans_concat_iff.mp hmembers
    obtain ⟨mid', hv, hms⟩ := spans_concat_iff.mp hmembers
    have hlength := length_of_key hkey
    have hle := hv.length_le
    have hle' := hms.length_le
    rw [List.length_cons] at hfuel
    obtain ⟨fuel, rfl⟩ := Nat.exists_eq_add_of_le' (show 4 ≤ fuel by omega)
    have hmember : (Node.grow handles .flow anchors (fuel + 1) _).Gives anchors mid' _ :=
      gives_grow v hv (by omega)
    have hmembers := gives_member hkey hv hmember (gives_growFlowMap ms hms (by omega))
    rw [Node.grow_map, Value.reread?, Option.map_eq_map, Option.map_map]
    exact hmembers.map fun ws ns hws => ⟨m, ns, rfl, hws⟩

private theorem gives_growFlowList : (vs : List Value) → {fuel : Nat} → {ts rest : List Token} →
    Spans ts (Value.signsOfItems? vs) rest → 2 * ts.length ≤ fuel + 2 * rest.length →
    (Node.growFlowList handles false anchors fuel ts).Gives anchors rest
      ((Value.rereadItems? vs).map Value.ItemsShownBy)
  | [], fuel, _, _, hspans, hfuel => by
    obtain ⟨m, rfl⟩ := spans_singleton_iff.mp hspans
    rw [List.length_cons] at hfuel
    obtain ⟨fuel, rfl⟩ := Nat.exists_eq_add_of_le' (show 1 ≤ fuel by omega)
    exact ⟨rfl, rfl, rfl⟩
  | v :: vs, fuel, _, _, hspans, hfuel => by
    obtain ⟨_, hcomma, hitems⟩ := spans_concat_iff.mp hspans
    obtain ⟨m, rfl⟩ := spans_singleton_iff.mp hcomma
    obtain ⟨mid, hv, hvs⟩ := spans_concat_iff.mp hitems
    have hle := hv.length_le
    have hle' := hvs.length_le
    rw [List.length_cons] at hfuel
    obtain ⟨fuel, rfl⟩ := Nat.exists_eq_add_of_le' (show 1 ≤ fuel by omega)
    rw [Node.growFlowList_comma]
    exact gives_item hv (gives_grow v hv (by omega)) (gives_growFlowList vs hvs (by omega))

private theorem gives_growFlowMap : (ms : List (String × Value)) → {fuel : Nat} → {ts rest : List Token} →
    Spans ts (Value.signsOfMembers? ms) rest → 2 * ts.length ≤ fuel + 2 * rest.length →
    (Node.growFlowMap handles false anchors fuel ts).Gives anchors rest
      ((Value.rereadMembers? ms).map Value.MembersShownBy)
  | [], fuel, _, _, hspans, hfuel => by
    obtain ⟨m, rfl⟩ := spans_singleton_iff.mp hspans
    rw [List.length_cons] at hfuel
    obtain ⟨fuel, rfl⟩ := Nat.exists_eq_add_of_le' (show 1 ≤ fuel by omega)
    exact ⟨rfl, rfl, rfl⟩
  | (k, v) :: ms, fuel, _, _, hspans, hfuel => by
    obtain ⟨_, hcomma, hmembers⟩ := spans_concat_iff.mp hspans
    obtain ⟨m, rfl⟩ := spans_singleton_iff.mp hcomma
    obtain ⟨mid, hkey, hmembers⟩ := spans_concat_iff.mp hmembers
    obtain ⟨mid', hv, hms⟩ := spans_concat_iff.mp hmembers
    have hlength := length_of_key hkey
    have hle := hv.length_le
    have hle' := hms.length_le
    rw [List.length_cons] at hfuel
    obtain ⟨fuel, rfl⟩ := Nat.exists_eq_add_of_le' (show 3 ≤ fuel by omega)
    rw [Node.growFlowMap_comma]
    exact gives_member hkey hv (gives_grow v hv (by omega)) (gives_growFlowMap ms hms (by omega))
end

end Yaml
end CodeActions
