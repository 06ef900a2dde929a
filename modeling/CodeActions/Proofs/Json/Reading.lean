import CodeActions.Proofs.Json.Parsing
/-!
# Reading written documents

What readers make of the tree of a document, as far as they accept it. Skipping accepts every
document; reading any value accepts those that do not nest too deep and in which every string and
number comes to something (`readDocument_of_shows`).
-/
namespace CodeActions.Json

theorem toOption_bind {ε α β : Type} (r : Except ε α) (f : α → Except ε β) :
    (r >>= f).toOption = r.toOption.bind fun a => (f a).toOption := by
  cases r <;> rfl

theorem exists_of_bind {ε α β : Type} {r : Except ε α} {f : α → Except ε β} {b : β}
    (h : r >>= f = .ok b) : ∃ a, r = .ok a ∧ f a = .ok b := by
  cases r with
  | ok a => exact ⟨a, rfl, h⟩
  | error e => cases h

theorem exists_of_map {ε α β : Type} {f : α → β} {r : Except ε α} {b : β}
    (h : f <$> r = .ok b) : ∃ a, r = .ok a ∧ f a = b := by
  cases r with
  | ok a => exact ⟨a, rfl, Except.ok.inj h⟩
  | error e => cases h

theorem toOption_eq_some_iff {ε α : Type} {r : Except ε α} {a : α} :
    r.toOption = some a ↔ r = .ok a := by
  cases r with
  | ok b => simp [Except.toOption]
  | error e => simp [Except.toOption]

theorem reader_of_read {α : Type} {reader : Reader α} {text : String} {a : α}
    (h : read reader text = .ok a) : reader depthLimit (parse text).tree = .ok a := by
  unfold read at h
  dsimp only at h
  split at h
  · cases h
  · exact h

namespace Document

/-! The tree of a document has the form of the document. -/

theorem Shows.null {t : Tree} (h : null.Shows t) :
    ∃ start stop, t = .scalar start stop .null := by
  cases t with
  | scalar start stop s =>
    cases s with
    | null => exact ⟨start, stop, rfl⟩
    | _ => exact False.elim h
  | _ => exact False.elim h

theorem Shows.bool {b : Bool} {t : Tree} (h : (bool b).Shows t) :
    ∃ start stop, t = .scalar start stop (.bool b) := by
  cases t with
  | scalar start stop s =>
    cases s with
    | bool c =>
      obtain rfl : c = b := h
      exact ⟨start, stop, rfl⟩
    | _ => exact False.elim h
  | _ => exact False.elim h

theorem Shows.number {l : Literal} {t : Tree} (h : (number l).Shows t) :
    ∃ start stop n, t = .scalar start stop (.number n) ∧ n.toOption = l.number? := by
  cases t with
  | scalar start stop s =>
    cases s with
    | number n => exact ⟨start, stop, n, rfl, h⟩
    | _ => exact False.elim h
  | _ => exact False.elim h

theorem Shows.text {ps : List Piece} {t : Tree} (h : (text ps).Shows t) :
    ∃ start stop s, t = .scalar start stop (.text s) ∧ s.toOption = Piece.text? ps := by
  cases t with
  | scalar start stop s =>
    cases s with
    | text s => exact ⟨start, stop, s, rfl, h⟩
    | _ => exact False.elim h
  | _ => exact False.elim h

theorem Shows.list {ds : List Document} {t : Tree} (h : (list ds).Shows t) :
    ∃ start ts stop, t = .list start ts (.closed stop) ∧ ShowsItems ds ts := by
  cases t with
  | list start ts ending =>
    cases ending with
    | closed stop => exact ⟨start, ts, stop, rfl, h⟩
    | unfinished read skip => exact False.elim h
  | _ => exact False.elim h

theorem Shows.object {ms : List (List Piece × Document)} {t : Tree} (h : (object ms).Shows t) :
    ∃ start ts stop, t = .object start ts (.closed stop) ∧ ShowsMembers ms ts := by
  cases t with
  | object start ts ending =>
    cases ending with
    | closed stop => exact ⟨start, ts, stop, rfl, h⟩
    | unfinished read skip => exact False.elim h
  | _ => exact False.elim h

theorem ShowsItems.nil {ts : List Tree} (h : ShowsItems [] ts) : ts = [] := by
  cases ts with
  | nil => rfl
  | cons t ts => cases h

theorem ShowsItems.cons {d : Document} {ds : List Document} {ts : List Tree}
    (h : ShowsItems (d :: ds) ts) : ∃ t us, ts = t :: us ∧ d.Shows t ∧ ShowsItems ds us := by
  cases ts with
  | nil => cases h
  | cons t us => exact ⟨t, us, rfl, h⟩

theorem ShowsMembers.nil {ts : List (Key × Tree)} (h : ShowsMembers [] ts) : ts = [] := by
  cases ts with
  | nil => rfl
  | cons t ts => cases h

theorem ShowsMembers.cons {k : List Piece} {d : Document} {ms : List (List Piece × Document)}
    {ts : List (Key × Tree)} (h : ShowsMembers ((k, d) :: ms) ts) :
    ∃ key t us, ts = (key, t) :: us ∧ key.name.toOption = Piece.text? k ∧ d.Shows t ∧
      ShowsMembers ms us := by
  cases ts with
  | nil => cases h
  | cons m us =>
    obtain ⟨key, t⟩ := m
    exact ⟨key, t, us, rfl, h⟩

end Document

namespace Tree
open Document

mutual
theorem skipFault?_of_shows : (d : Document) → {t : Tree} → d.Shows t → t.skipFault? = none
  | .null, t, h => by
    obtain ⟨start, stop, rfl⟩ := h.null
    rfl
  | .bool b, t, h => by
    obtain ⟨start, stop, rfl⟩ := h.bool
    rfl
  | .number l, t, h => by
    obtain ⟨start, stop, n, rfl, -⟩ := h.number
    rfl
  | .text ps, t, h => by
    obtain ⟨start, stop, s, rfl, -⟩ := h.text
    rfl
  | .list ds, t, h => by
    obtain ⟨start, ts, stop, rfl, hts⟩ := h.list
    rw [skipFault?, skipFaultIn?_of_shows ds hts]
    rfl
  | .object ms, t, h => by
    obtain ⟨start, ts, stop, rfl, hts⟩ := h.object
    rw [skipFault?, skipFaultAmong?_of_shows ms hts]
    rfl

private theorem skipFaultIn?_of_shows : (ds : List Document) → {ts : List Tree} → ShowsItems ds ts →
    skipFaultIn? ts = none
  | [], ts, h => by
    rw [h.nil]
    rfl
  | d :: ds, ts, h => by
    obtain ⟨t, us, rfl, ht, hus⟩ := h.cons
    rw [skipFaultIn?, skipFault?_of_shows d ht, skipFaultIn?_of_shows ds hus]
    rfl

private theorem skipFaultAmong?_of_shows : (ms : List (List Piece × Document)) →
    {ts : List (Key × Tree)} → ShowsMembers ms ts → skipFaultAmong? ts = none
  | [], ts, h => by
    rw [h.nil]
    rfl
  | (k, d) :: ms, ts, h => by
    obtain ⟨key, t, us, rfl, -, ht, hus⟩ := h.cons
    rw [skipFaultAmong?, skipFault?_of_shows d ht, skipFaultAmong?_of_shows ms hus]
    rfl
end

mutual
theorem readDocument_of_shows : (d : Document) → {t : Tree} → d.Shows t → {depth : Nat} →
    d.nesting ≤ depth → (t.readDocument depth).toOption = d.value?
  | .null, t, h, depth, _ => by
    obtain ⟨start, stop, rfl⟩ := h.null
    rfl
  | .bool b, t, h, depth, _ => by
    obtain ⟨start, stop, rfl⟩ := h.bool
    rfl
  | .number l, t, h, depth, _ => by
    obtain ⟨start, stop, n, rfl, hn⟩ := h.number
    rw [readDocument, readScalar, toOption_map, hn, value?]
  | .text ps, t, h, depth, _ => by
    obtain ⟨start, stop, s, rfl, hs⟩ := h.text
    rw [readDocument, readScalar, toOption_map, hs, value?]
  | .list ds, t, h, 0, hdepth => by simp [nesting] at hdepth
  | .list ds, t, h, depth + 1, hdepth => by
    obtain ⟨start, ts, stop, rfl, hts⟩ := h.list
    have hitems := readItems_of_shows ds hts (Nat.le_of_succ_le_succ hdepth)
    simp only [readDocument, toOption_bind, hitems, value?]
    cases valuesOfItems? ds <;> rfl
  | .object ms, t, h, 0, hdepth => by simp [nesting] at hdepth
  | .object ms, t, h, depth + 1, hdepth => by
    obtain ⟨start, ts, stop, rfl, hts⟩ := h.object
    have hmembers := readMembers_of_shows ms hts (Nat.le_of_succ_le_succ hdepth)
    simp only [readDocument, toOption_bind, hmembers, value?]
    cases valuesOfMembers? ms <;> rfl

theorem readItems_of_shows : (ds : List Document) → {ts : List Tree} → ShowsItems ds ts →
    {depth : Nat} → nestingOfItems ds ≤ depth →
    (readItems depth ts).toOption = valuesOfItems? ds
  | [], ts, h, depth, _ => by
    rw [h.nil]
    rfl
  | d :: ds, ts, h, depth, hdepth => by
    obtain ⟨t, us, rfl, ht, hus⟩ := h.cons
    obtain ⟨hd, hds⟩ := Nat.max_le.mp hdepth
    have hhead := readDocument_of_shows d ht hd
    have htail := readItems_of_shows ds hus hds
    simp only [readItems, toOption_bind, hhead, htail, valuesOfItems?]
    cases d.value? <;> rfl

private theorem readMembers_of_shows : (ms : List (List Piece × Document)) → {ts : List (Key × Tree)} →
    ShowsMembers ms ts → {depth : Nat} → nestingOfMembers ms ≤ depth →
    (readMembers depth ts).toOption = valuesOfMembers? ms
  | [], ts, h, depth, _ => by
    rw [h.nil]
    rfl
  | (k, d) :: ms, ts, h, depth, hdepth => by
    obtain ⟨key, t, us, rfl, hk, ht, hus⟩ := h.cons
    obtain ⟨hd, hms⟩ := Nat.max_le.mp hdepth
    have hhead := readDocument_of_shows d ht hd
    have htail := readMembers_of_shows ms hus hms
    simp only [readMembers, toOption_bind, hk, hhead, htail, valuesOfMembers?]
    cases Piece.text? k <;> cases d.value? <;> rfl
end

theorem readValue_of_shows {d : Document} {t : Tree} (h : d.Shows t) {depth : Nat}
    (hdepth : d.nesting ≤ depth) :
    (t.readValue depth).toOption = Value.canonical <$> d.value? := by
  rw [readValue, toOption_map, readDocument_of_shows d h hdepth]

end Tree
end CodeActions.Json
