import CodeActions.Proofs.Json.RoundTrip
/-!
# How deep values nest

A value that is read nests no deeper than its reader allows (`nesting_of_readValue`): reading counts
the containers of the tree, and the canonical value has no others.
-/
namespace CodeActions.Json

namespace Value

private theorem nesting_items_le_iff {vs : List Value} {n : Nat} :
    Document.nestingOfItems (documentsOfItems vs) ≤ n ↔ ∀ v ∈ vs, v.document.nesting ≤ n := by
  induction vs with
  | nil => simp [documentsOfItems, Document.nestingOfItems]
  | cons v vs ih =>
    rw [documentsOfItems, Document.nestingOfItems, Nat.max_le, ih, List.forall_mem_cons]

mutual
private theorem nesting_canonical_le : (v : Value) → {n : Nat} → v.document.nesting ≤ n →
    v.canonical.document.nesting ≤ n
  | .null, _, h | .bool _, _, h | .number _, _, h | .text _, _, h => h
  | .list _, 0, h | .object _, 0, h => absurd h (Nat.not_succ_le_zero _)
  | .list vs, n + 1, h => by
    have hvs := nesting_items_le_iff.mp (Nat.le_of_succ_le_succ h)
    exact Nat.succ_le_succ (nesting_items_le_iff.mpr (nesting_canonicalItems_le vs hvs))
  | .object ms, n + 1, h => by
    have hms := Fields.nesting_documents_le_iff.mp (Nat.le_of_succ_le_succ h)
    refine Nat.succ_le_succ (Fields.nesting_documents_le_iff.mpr fun m hm => ?_)
    exact nesting_canonicalMembers_le ms hms m (mem_of_mem_sorted hm)

private theorem nesting_canonicalItems_le : (vs : List Value) → {n : Nat} →
    (∀ v ∈ vs, v.document.nesting ≤ n) → ∀ v ∈ canonicalItems vs, v.document.nesting ≤ n
  | [], _, _ => List.forall_mem_nil _
  | v :: vs, _, h => by
    obtain ⟨hv, hvs⟩ := List.forall_mem_cons.mp h
    exact List.forall_mem_cons.mpr ⟨nesting_canonical_le v hv, nesting_canonicalItems_le vs hvs⟩

private theorem nesting_canonicalMembers_le : (ms : List (String × Value)) → {n : Nat} →
    (∀ m ∈ ms, m.2.document.nesting ≤ n) → ∀ m ∈ canonicalMembers ms, m.2.document.nesting ≤ n
  | [], _, _ => List.forall_mem_nil _
  | (k, v) :: ms, _, h => by
    obtain ⟨hv, hms⟩ := List.forall_mem_cons.mp h
    exact List.forall_mem_cons.mpr ⟨nesting_canonical_le v hv, nesting_canonicalMembers_le ms hms⟩
end

end Value

namespace Tree

mutual
private theorem nesting_of_readDocument : (t : Tree) → {depth : Nat} → {v : Value} →
    t.readDocument depth = .ok v → v.document.nesting ≤ depth
  | .broken _ _ _, _, _, h => by cases h
  | .scalar _ _ .null, _, _, h => by cases h; exact Nat.zero_le _
  | .scalar _ _ (.bool _), _, _, h => by cases h; exact Nat.zero_le _
  | .scalar _ _ (.number n), _, _, h => by
    obtain ⟨n, rfl, rfl⟩ := exists_of_map h
    cases n <;> exact Nat.zero_le _
  | .scalar _ _ (.text s), _, _, h => by
    obtain ⟨s, rfl, rfl⟩ := exists_of_map h
    exact Nat.zero_le _
  | .list _ _ _, 0, _, h => by cases h
  | .list _ ts _, depth + 1, _, h => by
    obtain ⟨vs, hvs, h⟩ := exists_of_bind h
    obtain ⟨_, -, h⟩ := exists_of_bind h
    cases h
    exact Nat.succ_le_succ (Value.nesting_items_le_iff.mpr (nesting_of_readItems ts hvs))
  | .object _ _ _, 0, _, h => by cases h
  | .object _ ms _, depth + 1, _, h => by
    obtain ⟨ns, hns, h⟩ := exists_of_bind h
    obtain ⟨_, -, h⟩ := exists_of_bind h
    cases h
    exact Nat.succ_le_succ (Fields.nesting_documents_le_iff.mpr (nesting_of_readMembers ms hns))

private theorem nesting_of_readItems : (ts : List Tree) → {depth : Nat} → {vs : List Value} →
    readItems depth ts = .ok vs → ∀ v ∈ vs, v.document.nesting ≤ depth
  | [], _, _, h => by
    cases h
    exact List.forall_mem_nil _
  | t :: ts, depth, _, h => by
    obtain ⟨v, hv, h⟩ := exists_of_bind h
    obtain ⟨vs, hvs, h⟩ := exists_of_bind h
    cases h
    exact List.forall_mem_cons.mpr ⟨nesting_of_readDocument t hv, nesting_of_readItems ts hvs⟩

private theorem nesting_of_readMembers : (ms : List (Key × Tree)) → {depth : Nat} →
    {ns : List (String × Value)} → readMembers depth ms = .ok ns →
    ∀ n ∈ ns, n.2.document.nesting ≤ depth
  | [], _, _, h => by
    cases h
    exact List.forall_mem_nil _
  | (_, t) :: ms, depth, _, h => by
    obtain ⟨k, -, h⟩ := exists_of_bind h
    obtain ⟨v, hv, h⟩ := exists_of_bind h
    obtain ⟨ns, hns, h⟩ := exists_of_bind h
    cases h
    exact List.forall_mem_cons.mpr ⟨nesting_of_readDocument t hv, nesting_of_readMembers ms hns⟩
end

theorem nesting_of_readValue {t : Tree} {depth : Nat} {v : Value}
    (h : t.readValue depth = .ok v) : v.document.nesting ≤ depth := by
  obtain ⟨w, hw, rfl⟩ := exists_of_map h
  exact Value.nesting_canonical_le w (nesting_of_readDocument t hw)

end Tree
end CodeActions.Json
