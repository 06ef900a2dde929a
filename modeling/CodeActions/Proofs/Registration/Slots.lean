import CodeActions.Proofs.Registration.Sessions
import Mathlib.Data.List.Basic
/-!
# Slots

A registry is a row of slots, each with a name of its own. To file something under a name is to fill
the slot of that name (`toList_insert_of_taken`) or to open one at the end
(`toList_insert_of_free`), and the row is what is found under its names (`toList_eq_filterMap`).
-/
namespace CodeActions

namespace Registry
variable {π : Type} {r : Registry π} {name : String}

private theorem put_of_free {entries : List (String × π)} (p : π)
    (hfree : name ∉ entries.map (·.1)) : put name p entries = entries ++ [(name, p)] := by
  induction entries with
  | nil => simp [put]
  | cons e entries ih =>
    obtain ⟨n, q⟩ := e
    simp only [List.map_cons, List.mem_cons, not_or] at hfree
    simp [put, Ne.symm hfree.1, ih hfree.2]

private theorem put_of_taken {before : List (String × π)} (p q : π)
    (hbefore : name ∉ before.map (·.1)) (later : List (String × π)) :
    put name p (before ++ (name, q) :: later) = before ++ (name, p) :: later := by
  induction before with
  | nil => simp [put]
  | cons e before ih =>
    obtain ⟨n, q'⟩ := e
    simp only [List.map_cons, List.mem_cons, not_or] at hbefore
    simp [put, Ne.symm hbefore.1, ih hbefore.2]

theorem mem_put {p : π} {entries : List (String × π)} {e : String × π}
    (he : e ∈ put name p entries) : e = (name, p) ∨ e ∈ entries := by
  induction entries with
  | nil => exact .inl (List.mem_singleton.mp he)
  | cons head entries ih =>
    obtain ⟨n, q⟩ := head
    unfold put at he
    split at he
    case isTrue hn =>
      rcases List.mem_cons.mp he with rfl | hrest
      · exact .inl (by rw [hn])
      · exact .inr (List.mem_cons_of_mem _ hrest)
    case isFalse =>
      rcases List.mem_cons.mp he with rfl | hrest
      · exact .inr List.mem_cons_self
      · exact (ih hrest).imp_right (List.mem_cons_of_mem _)

theorem mem_toList_insert {p q : π} (hq : q ∈ (r.insert name p).toList) :
    q = p ∨ q ∈ r.toList := by
  obtain ⟨e, he, rfl⟩ := List.mem_map.mp hq
  rcases mem_put he with rfl | he
  · exact .inl rfl
  · exact .inr (List.mem_map_of_mem he)

theorem toList_insert_of_free (p : π) (hfree : name ∉ r.names) :
    (r.insert name p).toList = r.toList ++ [p] := by
  simp only [toList, insert, put_of_free p hfree, List.map_append, List.map_singleton]

theorem toList_insert_of_taken {q : π} (hq : r.find? name = some q) (p : π) :
    let i := r.names.idxOf name
    r.toList = r.toList.take i ++ q :: r.toList.drop (i + 1) ∧
      (r.insert name p).toList = r.toList.take i ++ p :: r.toList.drop (i + 1) := by
  obtain ⟨before, later, hentries, hbefore⟩ := List.lookup_eq_some_iff.mp hq
  have hfree : name ∉ before.map (·.1) := by
    intro hmem
    obtain ⟨e, he, hname⟩ := List.mem_map.mp hmem
    simpa [hname] using hbefore e he
  intro i
  have hi : i = (before.map (·.2)).length := by
    simp [i, names, hentries, List.idxOf_append_of_notMem hfree]
  have hlist : r.toList = before.map (·.2) ++ q :: later.map (·.2) := by
    simp [toList, hentries]
  have htake : r.toList.take i = before.map (·.2) := by
    rw [hlist, hi, List.take_left]
  have hdrop : r.toList.drop (i + 1) = later.map (·.2) := by
    rw [hlist, hi, List.drop_append]
    simp
  rw [htake, hdrop]
  refine ⟨hlist, ?_⟩
  simp [toList, insert, hentries, put_of_taken p q hfree]

/-- An entry is found under its name, which no other entry has. -/
theorem find?_of_mem (hnodup : r.names.Nodup) {p : π} (hmem : (name, p) ∈ r.entries) :
    r.find? name = some p := by
  obtain ⟨before, later, hentries⟩ := List.append_of_mem hmem
  refine List.lookup_eq_some_iff.mpr ⟨before, later, hentries, fun e he => ?_⟩
  rw [names, hentries, List.map_append, List.nodup_append] at hnodup
  have hne := hnodup.2.2 e.1 (List.mem_map_of_mem he) name List.mem_cons_self
  simpa using Ne.symm hne

theorem toList_eq_filterMap (hnodup : r.names.Nodup) : r.toList = r.names.filterMap r.find? := by
  have hfound : ∀ e ∈ r.entries, (r.find? ∘ (·.1)) e = some e.2 :=
    fun _ he => find?_of_mem hnodup he
  rw [names, List.filterMap_map]
  exact (List.filterMap_eq_map_iff_forall_eq_some.mpr hfound).symm

def namesOf [DecidableEq π] (r : Registry π) (p : π) : List String :=
  r.names.filter fun n => r.find? n = some p

theorem count_toList [DecidableEq π] (hnodup : r.names.Nodup) (p : π) :
    r.toList.count p = (r.namesOf p).length := by
  rw [toList_eq_filterMap hnodup, List.count, List.countP_filterMap, namesOf,
    ← List.countP_eq_length_filter]
  apply List.countP_congr
  intro n _
  cases r.find? n <;> simp

end Registry

namespace Session

theorem step_register (s : Session) (h p : Handle) :
    (s.step (.register h p)).2 =
      s.withRegistry h ((s.registries h).insert (s.providers p).name p) := rfl

end Session
end CodeActions
