import CodeActions.Proofs.Json.Numbers
import CodeActions.Yaml.Content
/-!
# Contents of nodes

What is read of a node has integers of 64 bits only, wider ones being refused, and so has the
canonical value that it becomes.
-/
namespace CodeActions
open Json

def Found.Fits : Found → Prop
  | .int i => Literal.InRange i
  | .wide _ => False
  | _ => True

namespace Yaml

inductive Content.Fits : Content → Prop
  | scalar {f : Found} (h : f.Fits) : Fits (.scalar f)
  | list {cs : List Content} (h : ∀ c ∈ cs, Fits c) : Fits (.list cs)
  | map {ms : List (Content × Content)} (h : ∀ m ∈ ms, Fits m.2) : Fits (.map ms)

/-! What holds of the results of reading. -/

def Decode.Gives {α : Type} (m : Decode α) (Q : α → Prop) : Prop :=
  ∀ n a n', m n = .ok (a, n') → Q a

namespace Decode
variable {α β : Type} {Q : α → Prop} {R : β → Prop}

theorem gives_pure {a : α} (h : Q a) : Gives (pure a) Q := by
  intro n b n' hb
  cases hb
  exact h

theorem gives_throw (e : Fault) : Gives (throw e) Q := by
  intro n b n' hb
  cases hb

theorem gives_throw_bind (e : Fault) (f : α → Decode β) : Gives (throw e >>= f) R := by
  intro n b n' hb
  cases hb

theorem gives_complain (path : Path) (mark : Mark) (m : Mismatch) :
    Gives (complain path mark m) Q := gives_throw _

theorem gives_any (m : Decode α) : Gives m fun _ => True := fun _ _ _ _ => trivial

theorem Gives.bind {m : Decode α} {f : α → Decode β} (hm : Gives m Q)
    (hf : ∀ a, Q a → Gives (f a) R) : Gives (m >>= f) R := by
  intro n b n' hb
  obtain ⟨⟨a, k⟩, ha, hb⟩ := exists_of_bind (show m n >>= (fun r => f r.1 r.2) = _ from hb)
  exact hf a (hm n a k ha) k b n' hb

theorem Gives.map {m : Decode α} {f : α → β} (hm : Gives m Q) (hf : ∀ a, Q a → R (f a)) :
    Gives (f <$> m) R := by
  exact hm.bind fun a ha => gives_pure (hf a ha)

private theorem gives_eachItem {f : Nat → α → Decode β} {as : List α}
    (h : ∀ i, ∀ a ∈ as, Gives (f i a) R) (i : Nat) :
    Gives (eachItem f i as) fun bs => ∀ b ∈ bs, R b := by
  induction as generalizing i with
  | nil => exact gives_pure (List.forall_mem_nil _)
  | cons a as ih =>
    rw [eachItem]
    refine (h i a List.mem_cons_self).bind fun b hb => ?_
    refine (ih (fun j c hc => h j c (List.mem_cons_of_mem _ hc)) (i + 1)).bind fun bs hbs => ?_
    exact gives_pure (List.forall_mem_cons.mpr ⟨hb, hbs⟩)

end Decode

private theorem inRange_of_intFound? {cs : List Char} {i : Int} (h : intFound? cs = some (.int i)) :
    Literal.InRange i := by
  have hword : Nat.pow 2 64 = 2 ^ 64 := rfl
  unfold intFound? at h
  unfold Literal.InRange
  split at h
  case h_1 n hn =>
    split at h
    case isTrue hlt =>
      obtain rfl : (n : Int) = i := by simpa using h
      omega
    case isFalse => split at h <;> cases h
  case h_2 n hn =>
    split at h
    case isTrue hle =>
      obtain rfl : -(n : Int) = i := by simpa using h
      omega
    case isFalse => split at h <;> cases h
  case h_3 => cases h

private theorem inRange_of_resolvePlain {s : String} {i : Int} (h : resolvePlain s = .int i) :
    Literal.InRange i := by
  unfold resolvePlain at h
  dsimp only at h
  split at h
  · cases h
  · split at h
    · cases h
    · split at h
      case h_1 found hfound => exact inRange_of_intFound? (h ▸ hfound)
      case h_2 =>
        split at h
        · cases h
        · split at h <;> cases h

private theorem eq_some_of_insist {found : Option Found} {mismatch : Mismatch} {f : Found}
    (h : (match found with
      | some g => Except.ok g
      | none => .error mismatch) = .ok f) : found = some f := by
  cases found with
  | none => cases h
  | some g => exact congrArg some (Except.ok.inj h)

private theorem inRange_of_resolve {tag : Option String} {style : Style} {s : String} {i : Int}
    (h : resolve tag style s = .ok (.int i)) : Literal.InRange i := by
  unfold resolve at h
  dsimp only at h
  split at h
  · split at h
    · exact inRange_of_resolvePlain (Except.ok.inj h)
    · cases h
  split at h
  · simpa using eq_some_of_insist h
  split at h
  · exact inRange_of_intFound? (eq_some_of_insist h)
  split at h
  · simpa using eq_some_of_insist h
  split at h
  · have hnull := eq_some_of_insist h
    split at hnull <;> cases hnull
  split at h
  · exact inRange_of_resolvePlain (Except.ok.inj h)
  · cases h

private theorem gives_scalar (path : Path) (mark : Mark) (tag : Option String) (style : Style)
    (text : String) :
    Decode.Gives (do
      if isLocalTag tag then throw .malformed
      match resolve tag style text with
      | .ok (.wide i) => complain path mark (.wrongType (.wide i) "any value")
      | .ok found => return Content.scalar found
      | .error mismatch => complain path mark mismatch) Content.Fits := by
  dsimp only
  split
  · exact Decode.gives_throw_bind _ _
  · split
    · exact Decode.gives_complain _ _ _
    case h_2 found hwide hfound =>
      refine Decode.gives_pure (.scalar ?_)
      match found with
      | .int i => exact inRange_of_resolve hfound
      | .wide i => exact hwide i rfl
      | .null | .bool _ | .float _ | .text _ | .list | .map => trivial
    · exact Decode.gives_complain _ _ _

theorem gives_readContent (env : Env) (depth : Nat) (path : Path) (node : Node) :
    (readContent env depth path node).Gives Content.Fits := by
  induction depth generalizing path node with
  | zero =>
    rw [readContent.eq_def]
    refine (Decode.gives_any _).bind fun n _ => ?_
    match n with
    | .cut | .alias _ _ | .list _ _ _ _ | .map _ _ _ _ => exact Decode.gives_throw _
    | .scalar m a tag style text => exact gives_scalar path m tag style text
  | succ depth ih =>
    rw [readContent.eq_def]
    refine (Decode.gives_any _).bind fun n _ => ?_
    match n with
    | .cut | .alias _ _ => exact Decode.gives_throw _
    | .scalar m a tag style text => exact gives_scalar path m tag style text
    | .list m a tag items =>
      dsimp only
      split
      · exact Decode.gives_throw_bind _ _
      · have hitems := Decode.gives_eachItem (fun i n (_ : n ∈ items) => ih (.index i :: path) n) 0
        exact hitems.map fun _ h => .list h
    | .map m a tag members =>
      dsimp only
      split
      · exact Decode.gives_throw_bind _ _
      · refine Decode.Gives.map (Q := fun ms => ∀ m ∈ ms, m.2.Fits) ?_ fun _ h => .map h
        refine Decode.gives_eachItem (fun i m _ => ?_) 0
        refine (Decode.gives_any _).bind fun key _ => ?_
        exact (ih (path.member m.1) m.2).bind fun c hc => Decode.gives_pure hc

namespace Content

private theorem fits_scalarValue : (f : Found) → f.Fits → (scalarValue f).AllNumbers Number.Fits
  | .null, _ | .bool _, _ | .text _, _ | .list, _ | .map, _ => trivial
  | .int _, h => h
  | .float f, _ => by
    rw [scalarValue]
    split <;> trivial

private theorem isCanonical_scalarValue (f : Found) : (scalarValue f).IsCanonical := by
  unfold scalarValue
  split <;> (try split) <;> trivial

mutual
theorem of_toValue : (c : Content) → c.Fits → {v : Value} → c.toValue = .ok v →
    v.IsCanonical ∧ v.AllNumbers Number.Fits
  | .scalar f, .scalar hf, _, hv => by
    cases hv
    exact ⟨isCanonical_scalarValue f, fits_scalarValue f hf⟩
  | .list cs, .list hcs, _, hv => by
    obtain ⟨vs, hvs, rfl⟩ := exists_of_map hv
    have hall := of_toValues cs hcs hvs
    exact ⟨Value.isCanonicalIn_iff.mpr fun v hv => (hall v hv).1,
      Value.allNumbersIn_iff.mpr fun v hv => (hall v hv).2⟩
  | .map ms, .map hms, _, hv => by
    obtain ⟨ns, hns, rfl⟩ := exists_of_map hv
    have hall := of_toMembers true ms hms hns
    exact ⟨⟨Value.byKey_sorted ns, Value.isCanonicalAmong_iff.mpr fun n hn =>
        (hall n (Value.mem_of_mem_sorted hn)).1⟩,
      Value.allNumbersAmong_iff.mpr fun n hn => (hall n (Value.mem_of_mem_sorted hn)).2⟩

private theorem of_toValues : (cs : List Content) → (∀ c ∈ cs, c.Fits) → {vs : List Value} →
    toValues cs = .ok vs → ∀ v ∈ vs, v.IsCanonical ∧ v.AllNumbers Number.Fits
  | [], _, _, hvs => by
    cases hvs
    exact List.forall_mem_nil _
  | c :: cs, hcs, _, hvs => by
    obtain ⟨v, hv, hvs⟩ := exists_of_bind hvs
    obtain ⟨vs, hrest, heq⟩ := exists_of_bind hvs
    cases heq
    obtain ⟨hc, hcs⟩ := List.forall_mem_cons.mp hcs
    exact List.forall_mem_cons.mpr ⟨of_toValue c hc hv, of_toValues cs hcs hrest⟩

private theorem of_toMembers (isFirst : Bool) : (ms : List (Content × Content)) →
    (∀ m ∈ ms, m.2.Fits) → {ns : List (String × Value)} → toMembers isFirst ms = .ok ns →
    ∀ n ∈ ns, n.2.IsCanonical ∧ n.2.AllNumbers Number.Fits
  | [], _, _, hns => by
    cases hns
    exact List.forall_mem_nil _
  | (k, c) :: ms, hms, _, hns => by
    obtain ⟨hc, htail⟩ := List.forall_mem_cons.mp hms
    match k, hns with
    | .scalar (.text k), hns =>
      obtain ⟨v, hv, hns⟩ := exists_of_bind hns
      obtain ⟨ns, hrest, heq⟩ := exists_of_bind hns
      cases heq
      exact List.forall_mem_cons.mpr ⟨of_toValue c hc hv, of_toMembers false ms htail hrest⟩
    | .scalar .null, hns | .scalar (.bool _), hns | .scalar (.int _), hns
    | .scalar (.wide _), hns | .scalar (.float _), hns | .scalar .list, hns | .scalar .map, hns
    | .list _, hns | .map _, hns => cases hns
end

end Content
end Yaml
end CodeActions
