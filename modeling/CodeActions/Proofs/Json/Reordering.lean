import CodeActions.Proofs.Json.KeyOrder
import Mathlib.Order.Lattice
/-!
# Documents with their members in another order

Documents that differ in the order of members only, at any depth (`Reordered`), have the same
canonical value as long as no object repeats a key (`Reordered.canonical?_eq`).
-/
namespace CodeActions.Json.Document

def keys (ms : List (List Piece × Document)) : List String := ms.filterMap fun m => Piece.text? m.1

mutual
def NoRepeats : Document → Prop
  | .list ds => NoRepeatsIn ds
  | .object ms => (keys ms).Nodup ∧ NoRepeatsAmong ms
  | _ => True

def NoRepeatsIn : List Document → Prop
  | [] => True
  | d :: ds => d.NoRepeats ∧ NoRepeatsIn ds

def NoRepeatsAmong : List (List Piece × Document) → Prop
  | [] => True
  | (_, d) :: ms => d.NoRepeats ∧ NoRepeatsAmong ms
end

/-- Documents that differ only in the order of members within objects, at any depth. -/
inductive Reordered : Document → Document → Prop
  | refl (d : Document) : Reordered d d
  | symm {d e : Document} (h : Reordered d e) : Reordered e d
  | trans {d e f : Document} (h : Reordered d e) (h' : Reordered e f) : Reordered d f
  | item {d e : Document} (pre post : List Document) (h : Reordered d e) :
      Reordered (.list (pre ++ d :: post)) (.list (pre ++ e :: post))
  | member {d e : Document} (k : List Piece) (pre post : List (List Piece × Document))
      (h : Reordered d e) :
      Reordered (.object (pre ++ (k, d) :: post)) (.object (pre ++ (k, e) :: post))
  | order {ms ns : List (List Piece × Document)} (h : ms.Perm ns) :
      Reordered (.object ms) (.object ns)

theorem noRepeatsIn_iff {ds : List Document} : NoRepeatsIn ds ↔ ∀ d ∈ ds, d.NoRepeats := by
  induction ds with
  | nil => simp [NoRepeatsIn]
  | cons d ds ih => simp [NoRepeatsIn, ih]

theorem noRepeatsAmong_iff {ms : List (List Piece × Document)} :
    NoRepeatsAmong ms ↔ ∀ m ∈ ms, m.2.NoRepeats := by
  induction ms with
  | nil => simp [NoRepeatsAmong]
  | cons m ms ih => simp [NoRepeatsAmong, ih]

private theorem keys_replace (k : List Piece) (d e : Document) (pre post : List (List Piece × Document)) :
    keys (pre ++ (k, d) :: post) = keys (pre ++ (k, e) :: post) := by
  simp only [keys, List.filterMap_append, List.filterMap_cons]

def canonical? (d : Document) : Option Value := d.value?.map Value.canonical

def member? (m : List Piece × Document) : Option (String × Value) :=
  (Piece.text? m.1).bind fun name => m.2.canonical?.map (name, ·)

def members? (ms : List (List Piece × Document)) : Option (List (String × Value)) :=
  (valuesOfMembers? ms).map Value.canonicalMembers

section
variable {ms ns : List (List Piece × Document)} {vs : List (String × Value)}

private theorem members?_cons (m : List Piece × Document) (ms : List (List Piece × Document)) :
    members? (m :: ms) = (member? m).bind fun v => (members? ms).map (v :: ·) := by
  obtain ⟨k, d⟩ := m
  rw [members?, members?, member?, canonical?, valuesOfMembers?]
  cases Piece.text? k <;> cases d.value? <;> cases valuesOfMembers? ms <;> rfl

theorem members?_eq (ms : List (List Piece × Document)) :
    members? ms = if ms.all fun m => (member? m).isSome then some (ms.filterMap member?)
      else none := by
  induction ms with
  | nil => rfl
  | cons m ms ih =>
    rw [members?_cons, ih, List.all_cons, List.filterMap_cons]
    cases member? m with
    | none => rfl
    | some v => cases ms.all fun m => (member? m).isSome <;> rfl

private theorem members?_perm (h : ms.Perm ns) :
    members? ms = none ∧ members? ns = none ∨
      ∃ vs ws, members? ms = some vs ∧ members? ns = some ws ∧ vs.Perm ws := by
  have hall : (ms.all fun m => (member? m).isSome) = ns.all fun m => (member? m).isSome := by
    rw [Bool.eq_iff_iff]
    simp only [List.all_eq_true]
    exact forall_congr' fun m => by rw [h.mem_iff]
  rw [members?_eq, members?_eq, hall]
  split
  case isTrue => exact .inr ⟨_, _, rfl, rfl, h.filterMap _⟩
  case isFalse => exact .inl ⟨rfl, rfl⟩

private theorem keys_of_members? (h : members? ms = some vs) : vs.map Prod.fst = keys ms := by
  induction ms generalizing vs with
  | nil =>
    cases h
    rfl
  | cons m ms ih =>
    rw [members?_cons] at h
    obtain ⟨v, hv, h⟩ := Option.bind_eq_some_iff.mp h
    obtain ⟨rest, hrest, rfl⟩ := Option.map_eq_some_iff.mp h
    obtain ⟨name, hname, hv⟩ := Option.bind_eq_some_iff.mp hv
    obtain ⟨w, -, rfl⟩ := Option.map_eq_some_iff.mp hv
    rw [keys, List.filterMap_cons, hname, List.map_cons, ih hrest, keys]

theorem sorted_members?_perm (h : ms.Perm ns) (hnodup : (keys ms).Nodup) :
    (members? ms).map Value.sorted = (members? ns).map Value.sorted := by
  rcases members?_perm h with ⟨hms, hns⟩ | ⟨vs, ws, hms, hns, hperm⟩
  · rw [hms, hns]
  · rw [hms, hns, Option.map_some, Option.map_some,
      Value.sorted_perm hperm (keys_of_members? hms ▸ hnodup)]

theorem members?_replace {d e : Document} (h : d.canonical? = e.canonical?) (k : List Piece)
    (pre post : List (List Piece × Document)) :
    members? (pre ++ (k, d) :: post) = members? (pre ++ (k, e) :: post) := by
  have hmember : member? (k, d) = member? (k, e) := by rw [member?, member?, h]
  simp only [members?_eq, List.all_append, List.all_cons, List.filterMap_append,
    List.filterMap_cons, hmember]

end

private theorem canonical?_object (ms : List (List Piece × Document)) :
    (object ms).canonical? = ((members? ms).map Value.sorted).map Value.object := by
  rw [canonical?, value?, members?]
  cases valuesOfMembers? ms <;> rfl

private theorem canonical?_list (ds : List Document) :
    (list ds).canonical? = (ds.mapM canonical?).map Value.list := by
  have hitems : (valuesOfItems? ds).map Value.canonicalItems = ds.mapM canonical? := by
    induction ds with
    | nil => rfl
    | cons d ds ih =>
      rw [List.mapM_cons, ← ih, valuesOfItems?, canonical?]
      cases d.value? <;> cases valuesOfItems? ds <;> rfl
  rw [← hitems, canonical?, value?]
  cases valuesOfItems? ds <;> rfl

private theorem nestingOfItems_le_iff {ds : List Document} {n : Nat} :
    nestingOfItems ds ≤ n ↔ ∀ d ∈ ds, d.nesting ≤ n := by
  induction ds with
  | nil => simp [nestingOfItems]
  | cons d ds ih => rw [nestingOfItems, Nat.max_le, ih, List.forall_mem_cons]

private theorem nestingOfMembers_le_iff {ms : List (List Piece × Document)} {n : Nat} :
    nestingOfMembers ms ≤ n ↔ ∀ m ∈ ms, m.2.nesting ≤ n := by
  induction ms with
  | nil => simp [nestingOfMembers]
  | cons m ms ih => rw [nestingOfMembers, Nat.max_le, ih, List.forall_mem_cons]

namespace Reordered
variable {d e : Document}

theorem noRepeats_iff (h : Reordered d e) : d.NoRepeats ↔ e.NoRepeats := by
  induction h with
  | refl d => exact Iff.rfl
  | symm h ih => exact ih.symm
  | trans h h' ih ih' => exact ih.trans ih'
  | item pre post h ih =>
    simp only [NoRepeats, noRepeatsIn_iff, List.forall_mem_append, List.forall_mem_cons, ih]
  | @member d e k pre post h ih =>
    simp only [NoRepeats, noRepeatsAmong_iff, List.forall_mem_append, List.forall_mem_cons, ih,
      keys_replace k d e]
  | order h =>
    simp only [NoRepeats, noRepeatsAmong_iff, keys, (h.filterMap _).nodup_iff, h.mem_iff]

theorem nesting_eq (h : Reordered d e) : d.nesting = e.nesting := by
  induction h with
  | refl d => rfl
  | symm h ih => exact ih.symm
  | trans h h' ih ih' => exact ih.trans ih'
  | item pre post h ih =>
    refine congrArg (· + 1) (eq_of_forall_ge_iff fun n => ?_)
    simp only [nestingOfItems_le_iff, List.forall_mem_append, List.forall_mem_cons, ih]
  | member k pre post h ih =>
    refine congrArg (· + 1) (eq_of_forall_ge_iff fun n => ?_)
    simp only [nestingOfMembers_le_iff, List.forall_mem_append, List.forall_mem_cons, ih]
  | order h =>
    refine congrArg (· + 1) (eq_of_forall_ge_iff fun n => ?_)
    simp only [nestingOfMembers_le_iff, h.mem_iff]

theorem eq_of_flat (h : Reordered d e) (hflat : d.nesting = 0) : d = e := by
  induction h with
  | refl d => rfl
  | symm h ih => exact (ih (h.nesting_eq.trans hflat)).symm
  | trans h h' ih ih' => exact (ih hflat).trans (ih' (h.nesting_eq.symm.trans hflat))
  | item | member | order => exact absurd hflat (Nat.succ_ne_zero _)

/-- The order of members makes no difference to the canonical value if no key is repeated. -/
theorem canonical?_eq (h : Reordered d e) (hd : d.NoRepeats) : d.canonical? = e.canonical? := by
  induction h with
  | refl d => rfl
  | symm h ih => exact (ih (h.noRepeats_iff.mpr hd)).symm
  | trans h h' ih ih' => exact (ih hd).trans (ih' (h.noRepeats_iff.mp hd))
  | @item d e pre post h ih =>
    have hitem := ih (noRepeatsIn_iff.mp hd d (List.mem_append_right _ List.mem_cons_self))
    rw [canonical?_list, canonical?_list, List.mapM_append, List.mapM_append, List.mapM_cons,
      List.mapM_cons, hitem]
  | @member d e k pre post h ih =>
    have hvalue :=
      ih (noRepeatsAmong_iff.mp hd.2 (k, d) (List.mem_append_right _ List.mem_cons_self))
    rw [canonical?_object, canonical?_object, members?_replace hvalue]
  | order h => rw [canonical?_object, canonical?_object, sorted_members?_perm h hd.1]

end Reordered
end CodeActions.Json.Document
