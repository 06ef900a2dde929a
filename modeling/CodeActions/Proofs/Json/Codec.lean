import CodeActions.Proofs.Json.Integer
import CodeActions.Proofs.Json.Record
/-!
# Codecs and their shapes

A reader reads as a shape says (`Reads`) when it makes of every document just what the shape makes
of it. The readers of texts, flags, numbers, optional values, lists and records do, each as soon as
the readers inside it do.
-/
namespace CodeActions.Json
open Document

/-- Whether a reader makes of a document what `meaning` says, if that does not nest too deep. -/
def Reads {α : Type} (read : Reader α) (meaning : Document → Option α) : Prop :=
  ∀ ⦃d : Document⦄ ⦃t : Tree⦄ ⦃depth : Nat⦄, d.Shows t → d.nesting ≤ depth →
    (read depth t).toOption = meaning d

namespace Tree

private theorem reads_text : Reads readText text? := by
  intro d t depth h _
  cases d with
  | null => obtain ⟨start, stop, rfl⟩ := h.null; rfl
  | bool b => obtain ⟨start, stop, rfl⟩ := h.bool; rfl
  | number l => obtain ⟨start, stop, n, rfl, -⟩ := h.number; rfl
  | text ps => obtain ⟨start, stop, s, rfl, hs⟩ := h.text; exact hs
  | list ds => obtain ⟨start, ts, stop, rfl, -⟩ := h.list; rfl
  | object ms => obtain ⟨start, ts, stop, rfl, -⟩ := h.object; rfl

private theorem reads_flag : Reads readFlag flag? := by
  intro d t depth h _
  cases d with
  | null => obtain ⟨start, stop, rfl⟩ := h.null; rfl
  | bool b => obtain ⟨start, stop, rfl⟩ := h.bool; rfl
  | number l => obtain ⟨start, stop, n, rfl, -⟩ := h.number; rfl
  | text ps => obtain ⟨start, stop, s, rfl, -⟩ := h.text; rfl
  | list ds => obtain ⟨start, ts, stop, rfl, -⟩ := h.list; rfl
  | object ms => obtain ⟨start, ts, stop, rfl, -⟩ := h.object; rfl

private theorem reads_nat {bound : Nat} (hbound : bound ≤ UInt64.size) (expected : String) :
    Reads (readNat bound expected) (natural? bound) := by
  intro d t depth h _
  cases d with
  | null => obtain ⟨start, stop, rfl⟩ := h.null; rfl
  | bool b => obtain ⟨start, stop, rfl⟩ := h.bool; rfl
  | number l =>
    obtain ⟨start, stop, n, rfl, hn⟩ := h.number
    rw [natural?, Literal.natural?_eq_natOf? hbound, ← hn]
    match n with
    | .error fault => rfl
    | .ok (.float f) => rfl
    | .ok (.int i) =>
      by_cases hi : 0 ≤ i ∧ i < bound <;>
        simp [readNat, Codec.natOf?, Except.toOption, hi]
  | text ps => obtain ⟨start, stop, s, rfl, -⟩ := h.text; rfl
  | list ds => obtain ⟨start, ts, stop, rfl, -⟩ := h.list; rfl
  | object ms => obtain ⟨start, ts, stop, rfl, -⟩ := h.object; rfl

private theorem ne_null_of_shows {d : Document} {t : Tree} (h : d.Shows t) (hd : d ≠ .null)
    (start stop : Nat) : t ≠ .scalar start stop .null := by
  rintro rfl
  cases d with
  | null => exact hd rfl
  | bool b => obtain ⟨_, _, ht⟩ := h.bool; cases ht
  | number l => obtain ⟨_, _, _, ht, -⟩ := h.number; cases ht
  | text ps => obtain ⟨_, _, _, ht, -⟩ := h.text; cases ht
  | list ds => obtain ⟨_, _, _, ht, -⟩ := h.list; cases ht
  | object ms => obtain ⟨_, _, _, ht, -⟩ := h.object; cases ht

variable {α : Type} {read : Reader α} {meaning : Document → Option α}

private theorem reads_optional (hread : Reads read meaning) :
    Reads (readOptional read) (optional? meaning) := by
  intro d t depth h hdepth
  by_cases hd : d = .null
  · subst hd
    obtain ⟨start, stop, rfl⟩ := h.null
    rfl
  · have ht := ne_null_of_shows h hd
    rw [readOptional, toOption_map, hread h hdepth, optional?]
    · exact hd
    · exact fun start stop => ht start stop

private theorem readAll_of_shows (hread : Reads read meaning) {ds : List Document} {ts : List Tree}
    (h : ShowsItems ds ts) {depth : Nat} (hdepth : nestingOfItems ds ≤ depth) :
    (readAll read depth ts).toOption = ds.mapM meaning := by
  induction ds generalizing ts with
  | nil =>
    rw [h.nil]
    rfl
  | cons d ds ih =>
    obtain ⟨t, us, rfl, ht, hus⟩ := h.cons
    obtain ⟨hd, hds⟩ := Nat.max_le.mp hdepth
    have htail := ih hus hds
    unfold readAll at htail ⊢
    rw [List.mapM_cons, List.mapM_cons, toOption_bind, hread ht hd, ← htail]
    cases meaning d with
    | none => rfl
    | some a => cases us.mapM (read depth) <;> rfl

private theorem reads_list {s : Shape α} (hread : Reads read s.meaning) :
    Reads (readList read) s.list.meaning := by
  intro d t depth h hdepth
  cases d with
  | null => obtain ⟨start, stop, rfl⟩ := h.null; cases depth <;> rfl
  | bool b => obtain ⟨start, stop, rfl⟩ := h.bool; cases depth <;> rfl
  | number l => obtain ⟨start, stop, n, rfl, -⟩ := h.number; cases depth <;> rfl
  | text ps => obtain ⟨start, stop, s, rfl, -⟩ := h.text; cases depth <;> rfl
  | list ds =>
    obtain ⟨start, ts, stop, rfl, hts⟩ := h.list
    cases depth with
    | zero => simp [nesting] at hdepth
    | succ depth =>
      have hitems := readAll_of_shows hread hts (Nat.le_of_succ_le_succ hdepth)
      rw [Shape.meaning, ← hitems, readList]
      cases readAll read depth ts <;> rfl
  | object ms => obtain ⟨start, ts, stop, rfl, -⟩ := h.object; cases depth <;> rfl

end Tree

namespace Fields

/-- Fields that follow the entries of a shape, with codecs and shapes related by `R`. -/
inductive Follow (R : ∀ ⦃α : Type⦄, Codec α → Shape α → Prop) :
    {αs : List Type} → Fields αs → Entries αs → Prop
  | nil : Follow R .nil .nil
  | required {α : Type} {αs : List Type} (name : String) {c : Codec α} {s : Shape α}
      {fs : Fields αs} {es : Entries αs} (hc : R c s) (hrest : Follow R fs es) :
      Follow R (.cons (.required name c) fs) (.required name s es)
  | optional {α : Type} {αs : List Type} (name : String) {c : Codec α} {s : Shape α}
      {fs : Fields αs} {es : Entries αs} (hc : R c s) (hrest : Follow R fs es) :
      Follow R (.cons (.optional name c) fs) (.optional name s es)

end Fields

/-- Whether a codec reads as a shape says. -/
def Codec.ReadsAs ⦃α : Type⦄ (c : Codec α) (s : Shape α) : Prop := Reads c.read s.meaning

namespace Fields
variable {αs : List Type} {fs : Fields αs} {es : Entries αs}

theorem Follow.names_eq {R : ∀ ⦃α : Type⦄, Codec α → Shape α → Prop} (h : Follow R fs es) :
    fs.names = es.names := by
  induction h with
  | nil => rfl
  | required name hc hrest ih => exact congrArg (name :: ·) ih
  | optional name hc hrest ih => exact congrArg (name :: ·) ih

private theorem showsItems_named (name : String) {ms : List (List Piece × Document)}
    {ts : List (Key × Tree)} (h : ShowsMembers ms ts) :
    ShowsItems (Document.named name ms) (named name ts) := by
  induction ms generalizing ts with
  | nil =>
    rw [h.nil]
    trivial
  | cons m ms ih =>
    obtain ⟨k, d⟩ := m
    obtain ⟨key, t, us, rfl, hk, ht, hus⟩ := h.cons
    have htail := ih hus
    by_cases hname : Piece.text? k = some name
    · simpa [Document.named, named, hk, hname] using ⟨ht, htail⟩
    · simpa [Document.named, named, hk, hname] using htail

private theorem nestingOfItems_named (name : String) (ms : List (List Piece × Document)) :
    nestingOfItems (Document.named name ms) ≤ nestingOfMembers ms := by
  induction ms with
  | nil => exact Nat.le_refl 0
  | cons m ms ih =>
    obtain ⟨k, d⟩ := m
    by_cases hname : Piece.text? k = some name
    · simp only [Document.named, List.filterMap_cons, hname, if_true, nestingOfItems,
        nestingOfMembers]
      exact Nat.max_le.mpr
        ⟨Nat.le_max_left _ _, Nat.le_trans ih (Nat.le_max_right _ _)⟩
    · simp only [Document.named, List.filterMap_cons, hname, if_false, nestingOfMembers]
      exact Nat.le_trans ih (Nat.le_max_right _ _)

private theorem settle_of_shows {α : Type} {f : Field α} {meaning : Document → Option α}
    (hread : Reads f.read meaning) {ds : List Document} {ts : List Tree} (h : ShowsItems ds ts)
    {depth : Nat} (hdepth : nestingOfItems ds ≤ depth) :
    f.settle depth none ts = once f.absent meaning ds := by
  match ds with
  | [] =>
    rw [h.nil]
    rfl
  | [d] =>
    obtain ⟨t, us, rfl, ht, hus⟩ := h.cons
    rw [hus.nil]
    exact hread ht (Nat.max_le.mp hdepth).1
  | d :: e :: ds =>
    obtain ⟨t, us, rfl, -, hus⟩ := h.cons
    obtain ⟨u, vs, rfl, -, -⟩ := hus.cons
    rfl

theorem gather_of_shows (hfs : Follow Codec.ReadsAs fs es) {ms : List (List Piece × Document)}
    {ts : List (Key × Tree)} (h : ShowsMembers ms ts) {depth : Nat}
    (hdepth : nestingOfMembers ms ≤ depth) :
    fs.gather depth ts fs.empty = es.ofMembers ms := by
  induction hfs with
  | nil => rfl
  | @required α αs name c s fs es hc hrest ih =>
    have hsettle := settle_of_shows (f := .required name c) hc (showsItems_named name h)
      (Nat.le_trans (nestingOfItems_named name ms) hdepth)
    rw [Entries.ofMembers, ← ih]
    exact congrArg (Option.bind · fun a =>
      (fs.gather depth ts fs.empty).bind fun row => some (Row.cons a row)) hsettle
  | @optional α αs name c s fs es hc hrest ih =>
    have hsettle := settle_of_shows (f := .optional name c) (Tree.reads_optional hc)
      (showsItems_named name h) (Nat.le_trans (nestingOfItems_named name ms) hdepth)
    rw [Entries.ofMembers, ← ih]
    exact congrArg (Option.bind · fun a =>
      (fs.gather depth ts fs.empty).bind fun row => some (Row.cons a row)) hsettle

private theorem foundIn_skipOther (depth : Nat) (names : List String) {ms : List (List Piece × Document)}
    {ts : List (Key × Tree)} (h : ShowsMembers ms ts) :
    foundIn skipOther depth names ts = if namesAll ms then some [] else none := by
  induction ms generalizing ts with
  | nil =>
    rw [h.nil]
    rfl
  | cons m ms ih =>
    obtain ⟨k, d⟩ := m
    obtain ⟨key, t, us, rfl, hk, ht, hus⟩ := h.cons
    rw [foundIn, hk, ih hus]
    cases hname : Piece.text? k with
    | none => simp [namesAll, hname]
    | some name =>
      rw [namesAll_cons hname]
      by_cases hknown : name ∈ names
      · simp [hknown]
      · have hskip : (skipOther name depth t).toOption = some [] := by
          rw [skipOther, Tree.skipFault?_of_shows d ht]
          rfl
        by_cases hms : namesAll ms <;> simp [hknown, hskip, hms]

theorem readItems_of_shows (hfs : Follow Codec.ReadsAs fs es) {ds : List Document}
    {ts : List Tree} (h : ShowsItems ds ts) {depth : Nat} (hdepth : nestingOfItems ds ≤ depth)
    (expected : String) (n stop : Nat) :
    (fs.readItems expected (.closed stop) depth n ts).toOption = es.ofItems ds := by
  induction hfs generalizing ds ts n with
  | nil =>
    cases ds with
    | nil => rw [h.nil]; rfl
    | cons d ds => obtain ⟨t, us, rfl, -, -⟩ := h.cons; rfl
  | @required α αs name c s fs es hc hrest ih =>
    cases ds with
    | nil => rw [h.nil]; rfl
    | cons d ds =>
      obtain ⟨t, us, rfl, ht, hus⟩ := h.cons
      obtain ⟨hd, hds⟩ := Nat.max_le.mp hdepth
      have htail := ih hus hds (n + 1)
      have hhead : ((Field.required name c).read depth t).toOption = s.meaning d := hc ht hd
      rw [readItems_cons, toOption_bind, hhead, Entries.ofItems, ← htail]
      simp only [toOption_bind]
      rfl
  | @optional α αs name c s fs es hc hrest ih =>
    cases ds with
    | nil => rw [h.nil]; rfl
    | cons d ds =>
      obtain ⟨t, us, rfl, ht, hus⟩ := h.cons
      obtain ⟨hd, hds⟩ := Nat.max_le.mp hdepth
      have htail := ih hus hds (n + 1)
      have hhead : ((Field.optional name c).read depth t).toOption = optional? s.meaning d :=
        Tree.reads_optional hc ht hd
      rw [readItems_cons, toOption_bind, hhead, Entries.ofItems, ← htail]
      simp only [toOption_bind]
      rfl

/-- Other members are kept as canonical values, in their order. -/
theorem foundIn_readValue (es : Entries αs) {depth : Nat} {ms : List (List Piece × Document)}
    {ts : List (Key × Tree)} (h : ShowsMembers ms ts) (hdepth : nestingOfMembers ms ≤ depth) :
    foundIn (fun name depth t => (fun v => [(name, v)]) <$> t.readValue depth) depth es.names ts =
      Value.canonicalMembers <$> valuesOfMembers? (ms.filter fun m => !es.knows m.1) := by
  induction ms generalizing ts with
  | nil =>
    rw [h.nil]
    rfl
  | cons m ms ih =>
    obtain ⟨k, d⟩ := m
    obtain ⟨key, t, us, rfl, hk, ht, hus⟩ := h.cons
    obtain ⟨hd, hms⟩ := Nat.max_le.mp hdepth
    rw [foundIn, hk, ih hus hms]
    cases hname : Piece.text? k with
    | none => simp [Entries.knows, hname, valuesOfMembers?]
    | some name =>
      by_cases hknown : name ∈ es.names
      · simp [hknown, Entries.knows, hname]
      · have hother := Tree.readValue_of_shows ht hd
        have hunknown : es.knows k = false := by simpa [Entries.knows, hname] using hknown
        rw [List.filter_cons_of_pos (by simp [hunknown]), valuesOfMembers?]
        simp only [toOption_map, hother, hname]
        cases d.value? with
        | none => simp [hknown]
        | some v =>
          cases valuesOfMembers? (ms.filter fun m => !es.knows m.1) <;>
            simp [hknown, Value.canonicalMembers]

end Fields

namespace Codec
variable {ρ : Type} {αs : List Type} {fs : Fields αs} {es : Entries αs}

theorem readsAs_record (es : Entries αs) (hfs : fs.Follow ReadsAs es)
    (hnodup : es.names.Nodup) (title : String) (make : Row αs → ρ) (row : ρ → Row αs) :
    (Codec.record title fs make row).ReadsAs (.record es make) := by
  intro d t depth h hdepth
  cases d with
  | null => obtain ⟨start, stop, rfl⟩ := h.null; cases depth <;> rfl
  | bool b => obtain ⟨start, stop, rfl⟩ := h.bool; cases depth <;> rfl
  | number l => obtain ⟨start, stop, n, rfl, -⟩ := h.number; cases depth <;> rfl
  | text ps => obtain ⟨start, stop, s, rfl, -⟩ := h.text; cases depth <;> rfl
  | list ds =>
    obtain ⟨start, ts, stop, rfl, hts⟩ := h.list
    cases depth with
    | zero => simp [nesting] at hdepth
    | succ depth =>
      have hitems := Fields.readItems_of_shows hfs hts (Nat.le_of_succ_le_succ hdepth)
      simp only [record, toOption_map, hitems, Shape.meaning]
  | object ms =>
    obtain ⟨start, ts, stop, rfl, hts⟩ := h.object
    cases depth with
    | zero => simp [nesting] at hdepth
    | succ depth =>
      have hrow := Fields.gather_of_shows hfs hts (Nat.le_of_succ_le_succ hdepth)
      simp only [record, toOption_map, Shape.meaning]
      rw [Fields.readObject_eq_gather _ _ _ (hfs.names_eq ▸ hnodup), hrow,
        Fields.foundIn_skipOther depth _ hts]
      cases namesAll ms <;> cases es.ofMembers ms <;> rfl

theorem readsAs_text : text.ReadsAs .text := Tree.reads_text

theorem readsAs_flag : flag.ReadsAs .flag := Tree.reads_flag

theorem readsAs_word : word.ReadsAs (.natural UInt32.size UInt32.ofNat) := by
  intro d t depth h hdepth
  have hbound : UInt32.size ≤ UInt64.size := by decide
  have hn := Tree.reads_nat hbound "u32" h hdepth
  rw [Shape.meaning, ← hn]
  exact toOption_map _ _

theorem readsAs_position : position.ReadsAs (.natural UInt64.size UInt64.ofNat) := by
  intro d t depth h hdepth
  have hn := Tree.reads_nat (Nat.le_refl UInt64.size) "usize" h hdepth
  rw [Shape.meaning, ← hn]
  exact toOption_map _ _

theorem readsAs_list {α : Type} {c : Codec α} {s : Shape α} (h : c.ReadsAs s) :
    c.list.ReadsAs s.list := Tree.reads_list h

/-- A text that spells a document is read as the value that the document gives, if any. -/
theorem ReadsAs.read_iff {α : Type} {c : Codec α} {s : Shape α} (h : c.ReadsAs s) {d : Document}
    {text : String} (hd : d.Spells text) (hdepth : d.nesting ≤ depthLimit) (a : α) :
    Json.read c.read text = .ok a ↔ s.meaning d = some a := by
  obtain ⟨t, ht, hread⟩ := read_of_spells c.read hd
  rw [hread, ← toOption_eq_some_iff, h ht hdepth]

end Codec
end CodeActions.Json
