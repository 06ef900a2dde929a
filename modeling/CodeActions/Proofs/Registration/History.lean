import CodeActions.Session
/-!
# Registration histories

A registry is what the registrations made in it amount to. A history lists them with the names that
the providers had at the time; the registry's names are its names without repetitions
(`Follows.names_eq`), and the provider under a name is the last to have been registered over the
first, or else the first (`Follows.find?_eq`).
-/
namespace CodeActions

/-- A registration under the name that the provider had. A strict one gives way to any other. -/
structure Registration where
  name : String
  provider : Handle
  isStrict : Bool

namespace Registration

def now (ps : Providers) (isStrict : Bool) (p : Handle) : Registration :=
  ⟨(ps p).name, p, isStrict⟩

/-- Whom a history leaves under a name: the last of the registrations after the first that are not
strict, or else the first. -/
def holder? (history : List Registration) (name : String) : Option Handle :=
  match history.filter fun e => e.name = name with
  | [] => none
  | first :: later => some ((later.filter fun e => !e.isStrict).getLast?.getD first).provider

theorem holder?_eq_none_iff (history : List Registration) (name : String) :
    holder? history name = none ↔ ∀ e ∈ history, e.name ≠ name := by
  unfold holder?
  cases hfilter : history.filter fun e => e.name = name with
  | nil => simpa using List.filter_eq_nil_iff.mp hfilter
  | cons first later =>
    have hfirst : first ∈ history.filter fun e => e.name = name := by simp [hfilter]
    obtain ⟨hmem, hname⟩ := List.mem_filter.mp hfirst
    constructor
    · intro hnone
      cases hnone
    · intro hfree
      exact absurd (of_decide_eq_true hname) (hfree first hmem)

theorem exists_of_holder? {history : List Registration} {name : String} {p : Handle}
    (hholder : holder? history name = some p) :
    ∃ e ∈ history, e.name = name ∧ e.provider = p := by
  unfold holder? at hholder
  split at hholder
  case h_1 => cases hholder
  case h_2 first later hfilter =>
    have hmem : (later.filter fun e => !e.isStrict).getLast?.getD first ∈
        history.filter fun e => e.name = name := by
      rw [hfilter]
      cases hlast : (later.filter fun e => !e.isStrict).getLast? with
      | none => simp
      | some e => simp [(List.mem_filter.mp (List.mem_of_getLast? hlast)).1]
    obtain ⟨hmem, hname⟩ := List.mem_filter.mp hmem
    exact ⟨_, hmem, of_decide_eq_true hname, Option.some.inj hholder⟩

private theorem holder?_append_of_ne (history : List Registration) {e : Registration} {name : String}
    (hne : e.name ≠ name) : holder? (history ++ [e]) name = holder? history name := by
  simp [holder?, List.filter_append, hne]

private theorem holder?_append_of_free {history : List Registration} {e : Registration}
    (hfree : holder? history e.name = none) :
    holder? (history ++ [e]) e.name = some e.provider := by
  have hnil : history.filter (fun f => f.name = e.name) = [] := by
    simpa using (holder?_eq_none_iff history e.name).mp hfree
  simp [holder?, List.filter_append, hnil]

private theorem holder?_append_of_taken {history : List Registration} {e : Registration} {p : Handle}
    (htaken : holder? history e.name = some p) :
    holder? (history ++ [e]) e.name = some (if e.isStrict then p else e.provider) := by
  unfold holder? at htaken ⊢
  rw [List.filter_append]
  cases hfilter : history.filter fun f => f.name = e.name with
  | nil =>
    rw [hfilter] at htaken
    cases htaken
  | cons first later =>
    rw [hfilter] at htaken
    cases hstrict : e.isStrict with
    | true => simpa [List.filter_append, hstrict] using htaken
    | false => simp [List.filter_append, hstrict]

end Registration

/-- A registry is what a history of registrations amounts to. -/
structure Registry.Follows (r : Registry Handle) (history : List Registration) : Prop where
  names_eq : r.names = (history.map Registration.name).eraseDups
  nodup : r.names.Nodup
  find?_eq : ∀ name, r.find? name = Registration.holder? history name

namespace Registry.Follows
open Registration

theorem empty : ({} : Registry Handle).Follows [] where
  names_eq := rfl
  nodup := List.nodup_nil
  find?_eq _ := rfl

variable {r : Registry Handle} {history : List Registration}

theorem find?_eq_none_iff (h : r.Follows history) (name : String) :
    r.find? name = none ↔ ∀ e ∈ history, e.name ≠ name := by
  rw [h.find?_eq, holder?_eq_none_iff]

private theorem eraseDups_append_of_mem {l : List String} {a : String} (ha : a ∈ l) :
    (l ++ [a]).eraseDups = l.eraseDups := by
  simp [List.eraseDups_append, List.removeAll, ha]

private theorem eraseDups_append_of_not_mem {l : List String} {a : String} (ha : a ∉ l) :
    (l ++ [a]).eraseDups = l.eraseDups ++ [a] := by
  simp [List.eraseDups_append, List.removeAll, List.eraseDups_cons, ha]

theorem insert (h : r.Follows history) (e : Registration)
    (hstrict : e.isStrict = true → e.name ∉ r.names) :
    (r.insert e.name e.provider).Follows (history ++ [e]) := by
  have hmem : e.name ∈ r.names ↔ e.name ∈ history.map Registration.name := by
    rw [h.names_eq, List.mem_eraseDups]
  refine ⟨?_, ?_, ?_⟩
  · rw [names_insert, List.map_append, List.map_singleton, h.names_eq]
    rw [h.names_eq] at hmem
    by_cases htaken : e.name ∈ history.map Registration.name
    · rw [if_pos (hmem.mpr htaken), eraseDups_append_of_mem htaken]
    · rw [if_neg (fun hn => htaken (hmem.mp hn)), eraseDups_append_of_not_mem htaken]
  · rw [names_insert]
    by_cases htaken : e.name ∈ r.names
    · rw [if_pos htaken]
      exact h.nodup
    · rw [if_neg htaken, List.nodup_append]
      refine ⟨h.nodup, by simp, ?_⟩
      intro a ha b hb hab
      rw [List.mem_singleton] at hb
      subst hb hab
      exact htaken ha
  · intro name
    rw [find?_insert]
    by_cases hname : name = e.name
    · subst hname
      rw [if_pos rfl]
      cases hfind : r.find? e.name with
      | none => rw [holder?_append_of_free (by rw [← h.find?_eq, hfind])]
      | some p =>
        have htaken : e.name ∈ r.names := (r.mem_names_iff_find? e.name).mpr ⟨p, hfind⟩
        have hloose : e.isStrict = false := by
          cases hs : e.isStrict with
          | false => rfl
          | true => exact absurd htaken (hstrict hs)
        rw [holder?_append_of_taken (by rw [← h.find?_eq, hfind]), hloose]
        rfl
    · rw [if_neg hname, holder?_append_of_ne _ (Ne.symm hname), h.find?_eq]

theorem refuse (h : r.Follows history) {e : Registration} (hstrict : e.isStrict = true)
    (htaken : e.name ∈ r.names) : r.Follows (history ++ [e]) := by
  refine ⟨?_, h.nodup, ?_⟩
  · have hmem : e.name ∈ history.map Registration.name := by
      rwa [h.names_eq, List.mem_eraseDups] at htaken
    rw [List.map_append, List.map_singleton, eraseDups_append_of_mem hmem, h.names_eq]
  · intro name
    by_cases hname : name = e.name
    · subst hname
      obtain ⟨p, hp⟩ := (r.mem_names_iff_find? e.name).mp htaken
      rw [holder?_append_of_taken (by rw [← h.find?_eq, hp]), hstrict, hp]
      rfl
    · rw [holder?_append_of_ne _ (Ne.symm hname), h.find?_eq]

end Registry.Follows
end CodeActions
