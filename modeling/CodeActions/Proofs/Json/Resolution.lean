import CodeActions.Proofs.Json.Canonical
import Mathlib.Data.List.Forall2
/-!
# Repeated keys

Of the members with one key the last one counts, in every object and at any depth.
`Document.Resolves` says so apart from any reader. A document resolves to its canonical value
(`resolves_canonical`), and it has one unless a string escapes half of a surrogate pair or a number
is beyond all doubles (`exists_value?_iff`).
-/
namespace CodeActions.Json

namespace Value
variable {α : Type}

private theorem mem_insert_iff {k : String} {v : α} {ms : List (String × α)} (h : ByKey ms)
    {m : String × α} : m ∈ insert k v ms ↔ m = (k, v) ∨ m.1 ≠ k ∧ m ∈ ms := by
  induction ms with
  | nil => simp [insert]
  | cons n ms ih =>
    obtain ⟨j, w⟩ := n
    obtain ⟨hfirst, hrest⟩ := List.pairwise_cons.mp h
    rw [insert]
    split
    case isTrue hlt =>
      have hne : m ∈ (j, w) :: ms → m.1 ≠ k := by
        rintro hm rfl
        rcases List.mem_cons.mp hm with rfl | hm
        · exact String.lt_irrefl _ hlt
        · exact String.lt_irrefl _ (String.lt_trans hlt (hfirst m hm))
      rw [List.mem_cons, and_iff_right_of_imp hne]
    case isFalse =>
      split
      case isTrue heq =>
        subst heq
        have hne : m ∈ ms → m.1 ≠ k := by
          rintro hm rfl
          exact String.lt_irrefl _ (hfirst m hm)
        have hhead : m = (k, w) → ¬m.1 ≠ k := fun hm hk => hk (congrArg Prod.fst hm)
        rw [List.mem_cons, List.mem_cons]
        constructor
        · exact Or.imp_right fun hm => ⟨hne hm, .inr hm⟩
        · rintro (hm | ⟨hk, hm⟩)
          · exact .inl hm
          · exact .inr (hm.resolve_left fun heq => hhead heq hk)
      case isFalse hne =>
        have hhead : m = (j, w) → m.1 ≠ k := by
          rintro rfl heq
          exact hne heq.symm
        rw [List.mem_cons, List.mem_cons, ih hrest]
        constructor
        · rintro (hm | hm | ⟨hk, hm⟩)
          · exact .inr ⟨hhead hm, .inl hm⟩
          · exact .inl hm
          · exact .inr ⟨hk, .inr hm⟩
        · rintro (hm | ⟨hk, hm | hm⟩)
          · exact .inr (.inl hm)
          · exact .inl hm
          · exact .inr (.inr ⟨hk, hm⟩)

theorem mem_sorted_iff {ms : List (String × α)} {m : String × α} :
    m ∈ sorted ms ↔ (ms.filter fun n => n.1 = m.1).getLast? = some m := by
  induction ms using List.reverseRecOn with
  | nil => simp [sorted]
  | append_singleton ms n ih =>
    have hlast : m = (n.1, n.2) ↔ n = m := eq_comm
    rw [sorted_append_singleton, mem_insert_iff (byKey_sorted ms), ih, List.filter_append, hlast]
    by_cases hn : n.1 = m.1
    · simp [hn]
    · have hne : n ≠ m := fun heq => hn (congrArg Prod.fst heq)
      simp [hn, hne, Ne.symm hn]

private theorem canonicalMembers_eq_map (ms : List (String × Value)) :
    canonicalMembers ms = ms.map fun m => (m.1, m.2.canonical) := by
  induction ms with
  | nil => rfl
  | cons m ms ih => rw [canonicalMembers, ih, List.map_cons]

end Value

namespace Document

mutual
/-- Whether all number literals and all strings of a document, its keys among them, have these
properties. -/
def Every (P : Literal → Prop) (Q : List Piece → Prop) : Document → Prop
  | .null | .bool _ => True
  | .number l => P l
  | .text ps => Q ps
  | .list ds => EveryIn P Q ds
  | .object ms => EveryAmong P Q ms

def EveryIn (P : Literal → Prop) (Q : List Piece → Prop) : List Document → Prop
  | [] => True
  | d :: ds => d.Every P Q ∧ EveryIn P Q ds

def EveryAmong (P : Literal → Prop) (Q : List Piece → Prop) : List (List Piece × Document) → Prop
  | [] => True
  | (k, d) :: ms => (Q k ∧ d.Every P Q) ∧ EveryAmong P Q ms
end

/-- No number is beyond all doubles. -/
def IsFinite (d : Document) : Prop := d.Every (fun l => ∃ n, l.number? = some n) fun _ => True

/-- No string, key or value, escapes half of a surrogate pair. -/
def IsPaired (d : Document) : Prop := d.Every (fun _ => True) fun ps => ∃ s, Piece.text? ps = some s

theorem everyAmong_iff {P : Literal → Prop} {Q : List Piece → Prop}
    {ms : List (List Piece × Document)} :
    EveryAmong P Q ms ↔ ∀ m ∈ ms, Q m.1 ∧ m.2.Every P Q := by
  induction ms with
  | nil => simp [EveryAmong]
  | cons m ms ih => simp [EveryAmong, ih]

theorem exists_valuesOfMembers?_iff {ms : List (List Piece × Document)} :
    (∃ ns, valuesOfMembers? ms = some ns) ↔
      ∀ m ∈ ms, (∃ s, Piece.text? m.1 = some s) ∧ ∃ v, m.2.value? = some v := by
  induction ms with
  | nil => simp [valuesOfMembers?]
  | cons m ms ih =>
    obtain ⟨k, d⟩ := m
    rw [List.forall_mem_cons, ← ih, valuesOfMembers?]
    cases Piece.text? k <;> cases d.value? <;> cases valuesOfMembers? ms <;> simp

private theorem exists_valuesOfItems?_cons {d : Document} {ds : List Document} :
    (∃ vs, valuesOfItems? (d :: ds) = some vs) ↔
      (∃ v, d.value? = some v) ∧ ∃ vs, valuesOfItems? ds = some vs := by
  rw [valuesOfItems?]
  cases d.value? <;> cases valuesOfItems? ds <;> simp

mutual
/-- A document is a value if all its numbers and strings come to something. -/
theorem exists_value?_iff : (d : Document) →
    ((∃ v, d.value? = some v) ↔ d.IsFinite ∧ d.IsPaired)
  | .null | .bool _ => by simp [value?, IsFinite, IsPaired, Every]
  | .number l => by
    cases hl : l.number? <;> simp [value?, IsFinite, IsPaired, Every, hl]
  | .text ps => by
    cases hps : Piece.text? ps <;> simp [value?, IsFinite, IsPaired, Every, hps]
  | .list ds => by
    have hds := exists_valuesOfItems?_iff ds
    rw [value?, IsFinite, IsPaired, Every, Every, ← hds]
    cases valuesOfItems? ds <;> simp
  | .object ms => by
    have hms := forall_exists_value?_iff ms
    rw [value?, IsFinite, IsPaired, Every, Every, everyAmong_iff, everyAmong_iff]
    have hiff : (∃ v, Value.object <$> valuesOfMembers? ms = some v) ↔
        ∃ ns, valuesOfMembers? ms = some ns := by
      cases valuesOfMembers? ms <;> simp
    rw [hiff, exists_valuesOfMembers?_iff]
    constructor
    · intro h
      exact ⟨fun m hm => ⟨trivial, ((hms m hm).mp (h m hm).2).1⟩,
        fun m hm => ⟨(h m hm).1, ((hms m hm).mp (h m hm).2).2⟩⟩
    · rintro ⟨hfinite, hpaired⟩ m hm
      exact ⟨(hpaired m hm).1, (hms m hm).mpr ⟨(hfinite m hm).2, (hpaired m hm).2⟩⟩

private theorem exists_valuesOfItems?_iff : (ds : List Document) →
    ((∃ vs, valuesOfItems? ds = some vs) ↔
      EveryIn (fun l => ∃ n, l.number? = some n) (fun _ => True) ds ∧
        EveryIn (fun _ => True) (fun ps => ∃ s, Piece.text? ps = some s) ds)
  | [] => by simp [valuesOfItems?, EveryIn]
  | d :: ds => by
    rw [exists_valuesOfItems?_cons, exists_value?_iff d, exists_valuesOfItems?_iff ds, IsFinite,
      IsPaired, EveryIn, EveryIn, and_and_and_comm]

private theorem forall_exists_value?_iff : (ms : List (List Piece × Document)) →
    ∀ m ∈ ms, ((∃ v, m.2.value? = some v) ↔ m.2.IsFinite ∧ m.2.IsPaired)
  | [] => List.forall_mem_nil _
  | (_, d) :: ms => List.forall_mem_cons.mpr ⟨exists_value?_iff d, forall_exists_value?_iff ms⟩
end

/-- What a document comes to if of the members with one key the last one counts. -/
inductive Resolves : Document → Value → Prop
  | null : Resolves .null .null
  | bool (b : Bool) : Resolves (.bool b) (.bool b)
  | number {l : Literal} {n : Number} (h : l.number? = some n) : Resolves (.number l) (.number n)
  | text {ps : List Piece} {s : String} (h : Piece.text? ps = some s) :
      Resolves (.text ps) (.text s)
  | list {ds : List Document} {vs : List Value} (h : List.Forall₂ Resolves ds vs) :
      Resolves (.list ds) (.list vs)
  /-- Every key stands once, in the order of the keys, with what its last member comes to. -/
  | object {ms : List (List Piece × Document)} {ns : List (String × Value)}
      (hkeys : ∀ name, name ∈ ns.map Prod.fst ↔ named name ms ≠ []) (hsorted : Value.ByKey ns)
      (hlast : ∀ name d v, (named name ms).getLast? = some d → (name, v) ∈ ns → Resolves d v) :
      Resolves (.object ms) (.object ns)

section
variable {ms : List (List Piece × Document)} {ns : List (String × Value)}

private theorem map_value?_named (h : valuesOfMembers? ms = some ns) (name : String) :
    (named name ms).map value? = (ns.filter fun n => n.1 = name).map fun n => some n.2 := by
  induction ms generalizing ns with
  | nil =>
    cases h
    rfl
  | cons m ms ih =>
    obtain ⟨k, d⟩ := m
    rw [valuesOfMembers?] at h
    obtain ⟨key, hk, h⟩ := Option.bind_eq_some_iff.mp h
    obtain ⟨v, hv, h⟩ := Option.bind_eq_some_iff.mp h
    obtain ⟨rest, hrest, h⟩ := Option.bind_eq_some_iff.mp h
    cases h
    have htail := ih hrest
    by_cases hname : key = name
    · subst hname
      simpa [named, hk, hv] using htail
    · simpa [named, hk, hname] using htail

theorem mem_sorted_canonicalMembers_iff (h : valuesOfMembers? ms = some ns)
    {m : String × Value} :
    m ∈ Value.sorted (Value.canonicalMembers ns) ↔
      ∃ d v, (named m.1 ms).getLast? = some d ∧ d.value? = some v ∧ v.canonical = m.2 := by
  have hlast := congrArg List.getLast? (map_value?_named h m.1)
  rw [List.getLast?_map, List.getLast?_map] at hlast
  have hfilter : (Value.canonicalMembers ns).filter (fun n => n.1 = m.1) =
      (ns.filter fun n => n.1 = m.1).map fun n => (n.1, n.2.canonical) := by
    rw [Value.canonicalMembers_eq_map, List.filter_map]
    rfl
  rw [Value.mem_sorted_iff, hfilter, List.getLast?_map]
  cases hn : (ns.filter fun n => n.1 = m.1).getLast? with
  | none =>
    rw [hn] at hlast
    simp [Option.map_eq_none_iff.mp hlast]
  | some n =>
    rw [hn] at hlast
    obtain ⟨d, hd, hvalue⟩ := Option.map_eq_some_iff.mp hlast
    have hkey : n.1 = m.1 := by simpa using (List.mem_filter.mp (List.mem_of_getLast? hn)).2
    constructor
    · intro hm
      have hm := Option.some.inj hm
      exact ⟨d, n.2, hd, hvalue, congrArg Prod.snd hm⟩
    · rintro ⟨e, v, he, hv, hm⟩
      obtain rfl : e = d := Option.some.inj (he.symm.trans hd)
      obtain rfl : v = n.2 := Option.some.inj (hv.symm.trans hvalue)
      exact congrArg some (Prod.ext hkey hm)

theorem mem_keys_sorted_iff (h : valuesOfMembers? ms = some ns) (name : String) :
    name ∈ (Value.sorted (Value.canonicalMembers ns)).map Prod.fst ↔ named name ms ≠ [] := by
  rw [List.mem_map]
  constructor
  · rintro ⟨m, hm, rfl⟩ hnil
    obtain ⟨d, v, hd, -, -⟩ := (mem_sorted_canonicalMembers_iff h).mp hm
    rw [hnil] at hd
    cases hd
  · intro hne
    obtain ⟨d, hd⟩ := Option.isSome_iff_exists.mp (List.getLast?_isSome.mpr hne)
    have hmem : d.value? ∈ (named name ms).map value? :=
      List.mem_map_of_mem (List.mem_of_getLast? hd)
    rw [map_value?_named h] at hmem
    obtain ⟨n, -, hn⟩ := List.mem_map.mp hmem
    exact ⟨(name, n.2.canonical),
      (mem_sorted_canonicalMembers_iff h).mpr ⟨d, n.2, hd, hn.symm, rfl⟩, rfl⟩

end

private theorem exists_of_mem_named {name : String} {ms : List (List Piece × Document)} {d : Document}
    (h : d ∈ named name ms) : ∃ m ∈ ms, Piece.text? m.1 = some name ∧ m.2 = d := by
  obtain ⟨m, hm, hd⟩ := List.mem_filterMap.mp h
  dsimp only at hd
  split at hd
  case isTrue hk => exact ⟨m, hm, hk, Option.some.inj hd⟩
  case isFalse => cases hd

mutual
theorem resolves_canonical : (d : Document) → {v : Value} → d.value? = some v →
    d.Resolves v.canonical
  | .null, _, h => by cases h; exact .null
  | .bool b, _, h => by cases h; exact .bool b
  | .number l, _, h => by
    obtain ⟨n, hn, rfl⟩ := Option.map_eq_some_iff.mp h
    exact .number hn
  | .text ps, _, h => by
    obtain ⟨s, hs, rfl⟩ := Option.map_eq_some_iff.mp h
    exact .text hs
  | .list ds, _, h => by
    obtain ⟨vs, hvs, rfl⟩ := Option.map_eq_some_iff.mp h
    exact .list (resolvesItems_canonical ds hvs)
  | .object ms, _, h => by
    obtain ⟨ns, hns, rfl⟩ := Option.map_eq_some_iff.mp h
    refine .object (mem_keys_sorted_iff hns) (Value.byKey_sorted _) fun name d v hd hv => ?_
    obtain ⟨e, w, he, hw, rfl⟩ := (mem_sorted_canonicalMembers_iff hns).mp hv
    obtain rfl : e = d := Option.some.inj (he.symm.trans hd)
    obtain ⟨m, hm, -, rfl⟩ := exists_of_mem_named (List.mem_of_getLast? hd)
    exact forall_resolves_canonical ms m hm hw

private theorem resolvesItems_canonical : (ds : List Document) → {vs : List Value} →
    valuesOfItems? ds = some vs → List.Forall₂ Resolves ds (Value.canonicalItems vs)
  | [], _, h => by cases h; exact .nil
  | d :: ds, _, h => by
    obtain ⟨v, hv, h⟩ := Option.bind_eq_some_iff.mp h
    obtain ⟨vs, hvs, h⟩ := Option.bind_eq_some_iff.mp h
    cases h
    exact .cons (resolves_canonical d hv) (resolvesItems_canonical ds hvs)

private theorem forall_resolves_canonical : (ms : List (List Piece × Document)) →
    ∀ m ∈ ms, ∀ {v : Value}, m.2.value? = some v → m.2.Resolves v.canonical
  | [] => List.forall_mem_nil _
  | (_, d) :: ms => List.forall_mem_cons.mpr
    ⟨fun hv => resolves_canonical d hv, forall_resolves_canonical ms⟩
end

end Document
end CodeActions.Json
