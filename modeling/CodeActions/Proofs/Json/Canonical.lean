import CodeActions.Proofs.Json.Printing
import Mathlib.Data.List.Induction
/-!
# Canonical values

In a canonical value the members of every object stand in the strict order of their keys, so that
no key is repeated. `canonical` makes every value canonical and leaves canonical values alone.
-/
namespace CodeActions.Json.Value

def ByKey {α : Type} (ms : List (String × α)) : Prop := ms.Pairwise fun m n => m.1 < n.1

section sorted
variable {α : Type} {k : String} {v : α} {ms : List (String × α)}

private theorem mem_insert {m : String × α} (h : m ∈ insert k v ms) : m = (k, v) ∨ m ∈ ms := by
  induction ms with
  | nil => exact .inl (List.mem_singleton.mp h)
  | cons n ms ih =>
    obtain ⟨j, w⟩ := n
    rw [insert] at h
    split at h
    case isTrue => exact List.mem_cons.mp h
    split at h
    case isTrue => exact (List.mem_cons.mp h).imp_right (List.mem_cons_of_mem _)
    case isFalse =>
      rcases List.mem_cons.mp h with rfl | h
      · exact .inr List.mem_cons_self
      · exact (ih h).imp_right (List.mem_cons_of_mem _)

private theorem byKey_insert (k : String) (v : α) (h : ByKey ms) : ByKey (insert k v ms) := by
  induction ms with
  | nil => exact List.pairwise_singleton _ _
  | cons n ms ih =>
    obtain ⟨j, w⟩ := n
    obtain ⟨hfirst, hrest⟩ := List.pairwise_cons.mp h
    rw [insert]
    split
    case isTrue hlt =>
      refine List.pairwise_cons.mpr ⟨fun m hm => ?_, h⟩
      rcases List.mem_cons.mp hm with rfl | hm
      · exact hlt
      · exact String.lt_trans hlt (hfirst m hm)
    case isFalse hge =>
      split
      case isTrue heq => exact List.pairwise_cons.mpr ⟨fun m hm => heq ▸ hfirst m hm, hrest⟩
      case isFalse hne =>
        have hlt : j < k :=
          String.not_le.mp fun hle => hne (String.le_antisymm hle (String.not_lt.mp hge))
        refine List.pairwise_cons.mpr ⟨fun m hm => ?_, ih hrest⟩
        rcases mem_insert hm with rfl | hm
        · exact hlt
        · exact hfirst m hm

private theorem insert_of_lt (h : ∀ m ∈ ms, m.1 < k) : insert k v ms = ms ++ [(k, v)] := by
  induction ms with
  | nil => rfl
  | cons n ms ih =>
    obtain ⟨j, w⟩ := n
    obtain ⟨hjk, hrest⟩ := List.forall_mem_cons.mp h
    have hkj : ¬k < j := String.lt_asymm hjk
    have hne : k ≠ j := fun he => String.lt_irrefl k (he ▸ hjk)
    rw [insert, if_neg hkj, if_neg hne, ih hrest]
    rfl

end sorted

section
variable {α : Type}

theorem sorted_append_singleton (ms : List (String × α)) (m : String × α) :
    sorted (ms ++ [m]) = insert m.1 m.2 (sorted ms) := by
  rw [sorted, List.foldl_append]
  rfl

theorem byKey_sorted (ms : List (String × α)) : ByKey (sorted ms) := by
  induction ms using List.reverseRecOn with
  | nil => exact .nil
  | append_singleton ms m ih =>
    rw [sorted_append_singleton]
    exact byKey_insert m.1 m.2 ih

theorem mem_of_mem_sorted {ms : List (String × α)} {m : String × α} (h : m ∈ sorted ms) :
    m ∈ ms := by
  induction ms using List.reverseRecOn with
  | nil => exact h
  | append_singleton ms n ih =>
    rw [sorted_append_singleton] at h
    rcases mem_insert h with rfl | h
    · exact List.mem_append_right _ List.mem_cons_self
    · exact List.mem_append_left _ (ih h)

theorem sorted_of_byKey {ms : List (String × α)} (h : ByKey ms) : sorted ms = ms := by
  induction ms using List.reverseRecOn with
  | nil => rfl
  | append_singleton ms m ih =>
    obtain ⟨hms, -, hlast⟩ := List.pairwise_append.mp h
    rw [sorted_append_singleton, ih hms]
    exact insert_of_lt fun n hn => hlast n hn m List.mem_cons_self

end

mutual
def IsCanonical : Value → Prop
  | .list vs => IsCanonicalIn vs
  | .object ms => ByKey ms ∧ IsCanonicalAmong ms
  | _ => True

def IsCanonicalIn : List Value → Prop
  | [] => True
  | v :: vs => v.IsCanonical ∧ IsCanonicalIn vs

def IsCanonicalAmong : List (String × Value) → Prop
  | [] => True
  | (_, v) :: ms => v.IsCanonical ∧ IsCanonicalAmong ms
end

theorem isCanonicalIn_iff {vs : List Value} : IsCanonicalIn vs ↔ ∀ v ∈ vs, v.IsCanonical := by
  induction vs with
  | nil => simp [IsCanonicalIn]
  | cons v vs ih => simp [IsCanonicalIn, ih]

theorem isCanonicalAmong_iff {ms : List (String × Value)} :
    IsCanonicalAmong ms ↔ ∀ m ∈ ms, m.2.IsCanonical := by
  induction ms with
  | nil => simp [IsCanonicalAmong]
  | cons m ms ih => simp [IsCanonicalAmong, ih]

theorem allNumbersIn_iff {P : Number → Prop} {vs : List Value} :
    AllNumbersIn P vs ↔ ∀ v ∈ vs, v.AllNumbers P := by
  induction vs with
  | nil => simp [AllNumbersIn]
  | cons v vs ih => simp [AllNumbersIn, ih]

theorem allNumbersAmong_iff {P : Number → Prop} {ms : List (String × Value)} :
    AllNumbersAmong P ms ↔ ∀ m ∈ ms, m.2.AllNumbers P := by
  induction ms with
  | nil => simp [AllNumbersAmong]
  | cons m ms ih => simp [AllNumbersAmong, ih]

mutual
theorem isCanonical_canonical : (v : Value) → v.canonical.IsCanonical
  | .null | .bool _ | .number _ | .text _ => trivial
  | .list vs => isCanonicalIn_canonicalItems vs
  | .object ms =>
    ⟨byKey_sorted _, isCanonicalAmong_iff.mpr fun m hm =>
      isCanonicalAmong_iff.mp (isCanonicalAmong_canonicalMembers ms) m (mem_of_mem_sorted hm)⟩

private theorem isCanonicalIn_canonicalItems : (vs : List Value) → IsCanonicalIn (canonicalItems vs)
  | [] => trivial
  | v :: vs => ⟨isCanonical_canonical v, isCanonicalIn_canonicalItems vs⟩

private theorem isCanonicalAmong_canonicalMembers :
    (ms : List (String × Value)) → IsCanonicalAmong (canonicalMembers ms)
  | [] => trivial
  | (_, v) :: ms => ⟨isCanonical_canonical v, isCanonicalAmong_canonicalMembers ms⟩
end

mutual
private theorem canonical_of_isCanonical : (v : Value) → v.IsCanonical → v.canonical = v
  | .null, _ | .bool _, _ | .number _, _ | .text _, _ => rfl
  | .list vs, h => congrArg Value.list (canonicalItems_of_isCanonical vs h)
  | .object ms, h => by
    rw [canonical, canonicalMembers_of_isCanonical ms h.2, sorted_of_byKey h.1]

private theorem canonicalItems_of_isCanonical : (vs : List Value) → IsCanonicalIn vs →
    canonicalItems vs = vs
  | [], _ => rfl
  | v :: vs, h => by
    rw [canonicalItems, canonical_of_isCanonical v h.1, canonicalItems_of_isCanonical vs h.2]

theorem canonicalMembers_of_isCanonical : (ms : List (String × Value)) → IsCanonicalAmong ms →
    canonicalMembers ms = ms
  | [], _ => rfl
  | (k, v) :: ms, h => by
    rw [canonicalMembers, canonical_of_isCanonical v h.1, canonicalMembers_of_isCanonical ms h.2]
end

section
variable {P : Number → Prop}

mutual
theorem allNumbers_canonical : (v : Value) → v.AllNumbers P → v.canonical.AllNumbers P
  | .null, h | .bool _, h | .number _, h | .text _, h => h
  | .list vs, h => allNumbersIn_canonicalItems vs h
  | .object ms, h => allNumbersAmong_iff.mpr fun m hm =>
      allNumbersAmong_iff.mp (allNumbersAmong_canonicalMembers ms h) m (mem_of_mem_sorted hm)

private theorem allNumbersIn_canonicalItems : (vs : List Value) → AllNumbersIn P vs →
    AllNumbersIn P (canonicalItems vs)
  | [], _ => trivial
  | v :: vs, h => ⟨allNumbers_canonical v h.1, allNumbersIn_canonicalItems vs h.2⟩

private theorem allNumbersAmong_canonicalMembers : (ms : List (String × Value)) → AllNumbersAmong P ms →
    AllNumbersAmong P (canonicalMembers ms)
  | [], _ => trivial
  | (_, v) :: ms, h => ⟨allNumbers_canonical v h.1, allNumbersAmong_canonicalMembers ms h.2⟩
end

end

mutual
def NoRepeats : Value → Prop
  | .list vs => NoRepeatsIn vs
  | .object ms => (ms.map Prod.fst).Nodup ∧ NoRepeatsAmong ms
  | _ => True

def NoRepeatsIn : List Value → Prop
  | [] => True
  | v :: vs => v.NoRepeats ∧ NoRepeatsIn vs

def NoRepeatsAmong : List (String × Value) → Prop
  | [] => True
  | (_, v) :: ms => v.NoRepeats ∧ NoRepeatsAmong ms
end

theorem noRepeatsIn_iff {vs : List Value} : NoRepeatsIn vs ↔ ∀ v ∈ vs, v.NoRepeats := by
  induction vs with
  | nil => simp [NoRepeatsIn]
  | cons v vs ih => simp [NoRepeatsIn, ih]

theorem noRepeatsAmong_iff {ms : List (String × Value)} :
    NoRepeatsAmong ms ↔ ∀ m ∈ ms, m.2.NoRepeats := by
  induction ms with
  | nil => simp [NoRepeatsAmong]
  | cons m ms ih => simp [NoRepeatsAmong, ih]

theorem nodup_of_byKey {ms : List (String × Value)} (h : ByKey ms) :
    (ms.map Prod.fst).Nodup := by
  refine List.pairwise_map.mpr (h.imp fun hlt heq => ?_)
  exact String.lt_irrefl _ (heq ▸ hlt)

mutual
theorem noRepeats_of_isCanonical : (v : Value) → v.IsCanonical → v.NoRepeats
  | .null, _ | .bool _, _ | .number _, _ | .text _, _ => trivial
  | .list vs, h => noRepeatsIn_of_isCanonical vs h
  | .object ms, h => ⟨nodup_of_byKey h.1, noRepeatsAmong_of_isCanonical ms h.2⟩

private theorem noRepeatsIn_of_isCanonical : (vs : List Value) → IsCanonicalIn vs → NoRepeatsIn vs
  | [], _ => trivial
  | v :: vs, h => ⟨noRepeats_of_isCanonical v h.1, noRepeatsIn_of_isCanonical vs h.2⟩

private theorem noRepeatsAmong_of_isCanonical : (ms : List (String × Value)) → IsCanonicalAmong ms →
    NoRepeatsAmong ms
  | [], _ => trivial
  | (_, v) :: ms, h => ⟨noRepeats_of_isCanonical v h.1, noRepeatsAmong_of_isCanonical ms h.2⟩
end

end CodeActions.Json.Value
