import CodeActions.Json.Reading
import CodeActions.Proofs.Json.Lexing
/-!
# The tree of a written document

A text that spells a document has that document's tree, and nothing after it (`parse_of_spells`).
-/
namespace CodeActions.Json

namespace Document

mutual
/-- The trees of a document, which differ in the places they tell. -/
def Shows : Document → Tree → Prop
  | .null, .scalar _ _ .null => True
  | .bool b, .scalar _ _ (.bool c) => c = b
  | .number l, .scalar _ _ (.number n) => n.toOption = l.number?
  | .text ps, .scalar _ _ (.text s) => s.toOption = Piece.text? ps
  | .list ds, .list _ ts (.closed _) => ShowsItems ds ts
  | .object ms, .object _ ts (.closed _) => ShowsMembers ms ts
  | _, _ => False

def ShowsItems : List Document → List Tree → Prop
  | [], [] => True
  | d :: ds, t :: ts => d.Shows t ∧ ShowsItems ds ts
  | _, _ => False

def ShowsMembers : List (List Piece × Document) → List (Key × Tree) → Prop
  | [], [] => True
  | (k, d) :: ms, (key, t) :: ts =>
      key.name.toOption = Piece.text? k ∧ d.Shows t ∧ ShowsMembers ms ts
  | _, _ => False
end

end Document

namespace Tree

def Move.resume (stop : Nat) (ts : List Located) : Move → Parsed
  | .go spot fs => build stop spot fs ts
  | .stop p => p

@[simp] theorem Move.resume_go (stop : Nat) (spot : Spot) (fs : List Frame)
    (ts : List Located) : (Move.go spot fs).resume stop ts = build stop spot fs ts := rfl

@[simp] theorem attach_list (t : Tree) (start : Nat) (items : List Tree) (fs : List Frame) :
    attach t (.list start items :: fs) = .go .next (.list start (t :: items) :: fs) := rfl

@[simp] theorem attach_member (t : Tree) (start : Nat) (members : List (Key × Tree)) (key : Key)
    (fs : List Frame) :
    attach t (.member start members key :: fs) =
      .go .next (.object start ((key, t) :: members) :: fs) := rfl

private theorem build_cons (stop : Nat) (spot : Spot) (fs : List Frame) (t : Located)
    (ts : List Located) : build stop spot fs (t :: ts) = (step spot fs t).resume stop ts := by
  rw [build]
  cases step spot fs t <;> rfl

section Steps
variable {t : Located} (start : Nat) (items : List Tree) (members : List (Key × Tree))
  (fs : List Frame) {name : Except Fault String}

private theorem step_item (h : t.token ≠ .closeList) : step .item fs t = onValue fs t := by
  obtain ⟨token, start, stop⟩ := t
  cases token
  case closeList => exact absurd rfl h
  all_goals rfl

private theorem step_itemOrClose (h : t.token ≠ .closeList) :
    step .itemOrClose (.list start items :: fs) t = onValue (.list start items :: fs) t := by
  obtain ⟨token, start, stop⟩ := t
  cases token
  case closeList => exact absurd rfl h
  all_goals rfl

private theorem step_itemOrClose_of_close (h : t.token = .closeList) :
    step .itemOrClose (.list start items :: fs) t =
      attach (.list start items.reverse (.closed t.stop)) fs := by
  obtain ⟨token, start, stop⟩ := t
  cases h
  rfl

private theorem step_keyOrClose_of_close (h : t.token = .closeObject) :
    step .keyOrClose (.object start members :: fs) t =
      attach (.object start members.reverse (.closed t.stop)) fs := by
  obtain ⟨token, start, stop⟩ := t
  cases h
  rfl

private theorem step_key {spot : Spot} (hspot : spot = .key ∨ spot = .keyOrClose)
    (h : t.token = .scalar (.text name)) :
    step spot (.object start members :: fs) t =
      .go (.colon name) (.object start members :: fs) := by
  obtain ⟨token, start, stop⟩ := t
  cases h
  rcases hspot with rfl | rfl <;> rfl

private theorem step_colon (h : t.token = .colon) :
    step (.colon name) (.object start members :: fs) t =
      .go .value (.member start members ⟨name, t.start⟩ :: fs) := by
  obtain ⟨token, start, stop⟩ := t
  cases h
  rfl

private theorem step_next_list :
    step .next (.list start items :: fs) t = afterItem t start items fs := rfl

private theorem step_next_object :
    step .next (.object start members :: fs) t = afterMember t start members fs := rfl

end Steps

abbrev Matches : List Located → List Lexeme → Prop :=
  List.Forall₂ fun t x => t.token.Is x

private theorem Matches.of_append {ts : List Located} {xs ys : List Lexeme} (h : Matches ts (xs ++ ys)) :
    ∃ us vs, ts = us ++ vs ∧ Matches us xs ∧ Matches vs ys := by
  induction xs generalizing ts with
  | nil => exact ⟨[], ts, rfl, .nil, h⟩
  | cons x xs ih =>
    cases h with
    | @cons t _ ts _ hhead htail =>
      obtain ⟨us, vs, rfl, hus, hvs⟩ := ih htail
      exact ⟨t :: us, vs, rfl, .cons hhead hus, hvs⟩

/-- The tokens of a value become its tree, whatever is open around it. -/
def Yields (ts : List Located) (t : Tree) : Prop :=
  ∃ first rest, ts = first :: rest ∧ first.token ≠ .closeList ∧
    ∀ stop fs more, (onValue fs first).resume stop (rest ++ more) =
      (attach t fs).resume stop more

private theorem Yields.build_value {ts : List Located} {t : Tree} (h : Yields ts t) (stop : Nat)
    (fs : List Frame) (more : List Located) :
    build stop .value fs (ts ++ more) = (attach t fs).resume stop more := by
  obtain ⟨first, rest, rfl, -, h⟩ := h
  rw [List.cons_append, build_cons]
  exact h stop fs more

private theorem Yields.build_item {ts : List Located} {t : Tree} (h : Yields ts t) (stop : Nat)
    (fs : List Frame) (more : List Located) :
    build stop .item fs (ts ++ more) = (attach t fs).resume stop more := by
  obtain ⟨first, rest, rfl, hfirst, h⟩ := h
  rw [List.cons_append, build_cons, step_item fs hfirst]
  exact h stop fs more

private theorem Yields.build_itemOrClose {ts : List Located} {t : Tree} (h : Yields ts t) (stop start : Nat)
    (fs : List Frame) (more : List Located) :
    build stop .itemOrClose (.list start [] :: fs) (ts ++ more) =
      build stop .next (.list start [t] :: fs) more := by
  obtain ⟨first, rest, rfl, hfirst, h⟩ := h
  rw [List.cons_append, build_cons, step_itemOrClose start [] fs hfirst]
  exact h stop _ more

def YieldsItems (ts : List Located) (trees : List Tree) : Prop :=
  ∃ e, ∀ stop start items fs more,
    build stop .next (.list start items :: fs) (ts ++ more) =
      (attach (.list start (items.reverse ++ trees) (.closed e)) fs).resume stop more

def YieldsMembers (ts : List Located) (trees : List (Key × Tree)) : Prop :=
  ∃ e, ∀ stop start members fs more,
    build stop .next (.object start members :: fs) (ts ++ more) =
      (attach (.object start (members.reverse ++ trees) (.closed e)) fs).resume stop more

private theorem yields_scalar {first : Located} {s : Scalar} (h : first.token = .scalar s) :
    Yields [first] (.scalar first.start first.stop s) := by
  refine ⟨first, [], rfl, by rw [h]; simp, fun stop fs more => ?_⟩
  simp only [onValue, h, List.nil_append]

private theorem yieldsItems_nil {first : Located} (h : first.token = .closeList) :
    YieldsItems [first] [] := by
  refine ⟨first.stop, fun stop start items fs more => ?_⟩
  rw [List.singleton_append, build_cons, List.append_nil]
  simp only [step_next_list, afterItem, h]

private theorem yieldsMembers_nil {first : Located} (h : first.token = .closeObject) :
    YieldsMembers [first] [] := by
  refine ⟨first.stop, fun stop start members fs more => ?_⟩
  rw [List.singleton_append, build_cons, List.append_nil]
  simp only [step_next_object, afterMember, h]

theorem YieldsItems.cons {comma : Located} {ts us : List Located} {t : Tree} {trees : List Tree}
    (hcomma : comma.token = .comma) (ht : Yields ts t) (hrest : YieldsItems us trees) :
    YieldsItems (comma :: (ts ++ us)) (t :: trees) := by
  obtain ⟨e, hrest⟩ := hrest
  refine ⟨e, fun stop start items fs more => ?_⟩
  rw [List.cons_append, build_cons]
  simp only [step_next_list, afterItem, hcomma, Move.resume_go]
  rw [List.append_assoc, ht.build_item]
  rw [attach_list, Move.resume_go, hrest]
  simp

private theorem build_key {key colon : Located} {name : Except Fault String}
    (hkey : key.token = .scalar (.text name)) (hcolon : colon.token = .colon)
    {spot : Spot} (hspot : spot = .key ∨ spot = .keyOrClose) {ts : List Located} {t : Tree}
    (ht : Yields ts t) (stop start : Nat) (members : List (Key × Tree)) (fs : List Frame)
    (more : List Located) :
    build stop spot (.object start members :: fs) (key :: colon :: (ts ++ more)) =
      build stop .next (.object start ((⟨name, colon.start⟩, t) :: members) :: fs) more := by
  rw [build_cons, step_key start members fs hspot hkey, Move.resume_go, build_cons,
    step_colon start members fs hcolon, Move.resume_go, ht.build_value]
  simp

theorem YieldsMembers.cons {comma key colon : Located} {name : Except Fault String}
    {ts us : List Located} {t : Tree} {trees : List (Key × Tree)}
    (hcomma : comma.token = .comma) (hkey : key.token = .scalar (.text name))
    (hcolon : colon.token = .colon) (ht : Yields ts t) (hrest : YieldsMembers us trees) :
    YieldsMembers (comma :: key :: colon :: (ts ++ us)) ((⟨name, colon.start⟩, t) :: trees) := by
  obtain ⟨e, hrest⟩ := hrest
  refine ⟨e, fun stop start members fs more => ?_⟩
  rw [List.cons_append, build_cons]
  simp only [step_next_object, afterMember, hcomma, Move.resume_go, List.cons_append,
    List.append_assoc]
  rw [build_key hkey hcolon (.inl rfl) ht, hrest]
  simp

private theorem yields_emptyList {first last : Located} (h : first.token = .openList)
    (hlast : last.token = .closeList) :
    Yields [first, last] (.list first.start [] (.closed last.stop)) := by
  refine ⟨first, [last], rfl, by rw [h]; simp, fun stop fs more => ?_⟩
  simp only [onValue, h, Move.resume_go]
  rw [List.singleton_append, build_cons, step_itemOrClose_of_close first.start [] fs hlast,
    List.reverse_nil]

private theorem yields_emptyObject {first last : Located} (h : first.token = .openObject)
    (hlast : last.token = .closeObject) :
    Yields [first, last] (.object first.start [] (.closed last.stop)) := by
  refine ⟨first, [last], rfl, by rw [h]; simp, fun stop fs more => ?_⟩
  simp only [onValue, h, Move.resume_go]
  rw [List.singleton_append, build_cons, step_keyOrClose_of_close first.start [] fs hlast,
    List.reverse_nil]

private theorem yields_list (first : Located) (h : first.token = .openList) {ts us : List Located}
    {t : Tree} {trees : List Tree} (ht : Yields ts t) (hrest : YieldsItems us trees) :
    ∃ e, Yields (first :: (ts ++ us)) (.list first.start (t :: trees) (.closed e)) := by
  obtain ⟨e, hrest⟩ := hrest
  refine ⟨e, first, ts ++ us, rfl, by rw [h]; simp, fun stop fs more => ?_⟩
  simp only [onValue, h, Move.resume_go]
  rw [List.append_assoc, ht.build_itemOrClose, hrest]
  rfl

private theorem yields_object (first key colon : Located) {name : Except Fault String}
    (h : first.token = .openObject) (hkey : key.token = .scalar (.text name))
    (hcolon : colon.token = .colon) {ts us : List Located} {t : Tree}
    {trees : List (Key × Tree)} (ht : Yields ts t) (hrest : YieldsMembers us trees) :
    ∃ e, Yields (first :: key :: colon :: (ts ++ us))
      (.object first.start ((⟨name, colon.start⟩, t) :: trees) (.closed e)) := by
  obtain ⟨e, hrest⟩ := hrest
  refine ⟨e, first, key :: colon :: (ts ++ us), rfl, by rw [h]; simp, fun stop fs more => ?_⟩
  simp only [onValue, h, Move.resume_go, List.cons_append, List.append_assoc]
  rw [build_key hkey hcolon (.inr rfl) ht, hrest]
  rfl

private theorem matches_singleton {ts : List Located} {x : Lexeme} (h : Matches ts [x]) :
    ∃ t, ts = [t] ∧ t.token.Is x := by
  cases h with
  | cons hhead htail =>
    cases htail
    exact ⟨_, rfl, hhead⟩

private theorem matches_cons {ts : List Located} {x : Lexeme} {xs : List Lexeme}
    (h : Matches ts (x :: xs)) : ∃ t us, ts = t :: us ∧ t.token.Is x ∧ Matches us xs := by
  cases h with
  | cons hhead htail => exact ⟨_, _, rfl, hhead, htail⟩

mutual
private theorem yields_of_matches : (d : Document) → {ts : List Located} → Matches ts d.lexemes →
    ∃ t, Yields ts t ∧ d.Shows t
  | .null, ts, h => by
    obtain ⟨⟨token, start, stop⟩, rfl, his⟩ := matches_singleton h
    cases his
    exact ⟨_, yields_scalar rfl, trivial⟩
  | .bool b, ts, h => by
    obtain ⟨⟨token, start, stop⟩, rfl, his⟩ := matches_singleton h
    cases his
    exact ⟨_, yields_scalar rfl, rfl⟩
  | .number l, ts, h => by
    obtain ⟨⟨token, start, stop⟩, rfl, his⟩ := matches_singleton h
    cases his with
    | number hn => exact ⟨_, yields_scalar rfl, hn⟩
  | .text ps, ts, h => by
    obtain ⟨⟨token, start, stop⟩, rfl, his⟩ := matches_singleton h
    cases his with
    | text hs => exact ⟨_, yields_scalar rfl, hs⟩
  | .list [], ts, h => by
    obtain ⟨⟨token, start, stop⟩, us, rfl, his, h⟩ := matches_cons h
    obtain ⟨⟨last, lastStart, lastStop⟩, rfl, hlast⟩ := matches_singleton h
    cases his
    cases hlast
    exact ⟨_, yields_emptyList rfl rfl, trivial⟩
  | .list (d :: ds), ts, h => by
    obtain ⟨⟨token, start, stop⟩, us, rfl, his, h⟩ := matches_cons h
    obtain ⟨us, vs, rfl, hus, hvs⟩ := Matches.of_append h
    obtain ⟨t, ht, hd⟩ := yields_of_matches d hus
    obtain ⟨trees, htrees, hds⟩ := yields_of_matchesItems ds hvs
    cases his
    obtain ⟨e, hlist⟩ := yields_list ⟨.openList, start, stop⟩ rfl ht htrees
    exact ⟨_, hlist, hd, hds⟩
  | .object [], ts, h => by
    obtain ⟨⟨token, start, stop⟩, us, rfl, his, h⟩ := matches_cons h
    obtain ⟨⟨last, lastStart, lastStop⟩, rfl, hlast⟩ := matches_singleton h
    cases his
    cases hlast
    exact ⟨_, yields_emptyObject rfl rfl, trivial⟩
  | .object ((k, d) :: ms), ts, h => by
    obtain ⟨⟨token, start, stop⟩, us, rfl, his, h⟩ := matches_cons h
    obtain ⟨⟨key, keyStart, keyStop⟩, us, rfl, hkey, h⟩ := matches_cons h
    obtain ⟨⟨mid, midStart, midStop⟩, us, rfl, hcolon, h⟩ := matches_cons h
    obtain ⟨us, vs, rfl, hus, hvs⟩ := Matches.of_append h
    obtain ⟨t, ht, hd⟩ := yields_of_matches d hus
    obtain ⟨trees, htrees, hms⟩ := yields_of_matchesMembers ms hvs
    cases his
    cases hcolon
    cases hkey with
    | text hk =>
      obtain ⟨e, hobject⟩ := yields_object ⟨.openObject, start, stop⟩ ⟨_, keyStart, keyStop⟩
        ⟨.colon, midStart, midStop⟩ rfl rfl rfl ht htrees
      exact ⟨_, hobject, hk, hd, hms⟩

private theorem yields_of_matchesItems : (ds : List Document) → {ts : List Located} →
    Matches ts (Document.lexemesOfItems ds) →
    ∃ trees, YieldsItems ts trees ∧ Document.ShowsItems ds trees
  | [], ts, h => by
    obtain ⟨⟨token, start, stop⟩, rfl, his⟩ := matches_singleton h
    cases his
    exact ⟨[], yieldsItems_nil rfl, trivial⟩
  | d :: ds, ts, h => by
    obtain ⟨⟨token, start, stop⟩, us, rfl, his, h⟩ := matches_cons h
    obtain ⟨us, vs, rfl, hus, hvs⟩ := Matches.of_append h
    obtain ⟨t, ht, hd⟩ := yields_of_matches d hus
    obtain ⟨trees, htrees, hds⟩ := yields_of_matchesItems ds hvs
    cases his
    exact ⟨t :: trees, .cons rfl ht htrees, hd, hds⟩

private theorem yields_of_matchesMembers : (ms : List (List Piece × Document)) → {ts : List Located} →
    Matches ts (Document.lexemesOfMembers ms) →
    ∃ trees, YieldsMembers ts trees ∧ Document.ShowsMembers ms trees
  | [], ts, h => by
    obtain ⟨⟨token, start, stop⟩, rfl, his⟩ := matches_singleton h
    cases his
    exact ⟨[], yieldsMembers_nil rfl, trivial⟩
  | (k, d) :: ms, ts, h => by
    obtain ⟨⟨token, start, stop⟩, us, rfl, his, h⟩ := matches_cons h
    obtain ⟨⟨key, keyStart, keyStop⟩, us, rfl, hkey, h⟩ := matches_cons h
    obtain ⟨⟨mid, midStart, midStop⟩, us, rfl, hcolon, h⟩ := matches_cons h
    obtain ⟨us, vs, rfl, hus, hvs⟩ := Matches.of_append h
    obtain ⟨t, ht, hd⟩ := yields_of_matches d hus
    obtain ⟨trees, htrees, hms⟩ := yields_of_matchesMembers ms hvs
    cases his
    cases hcolon
    cases hkey with
    | text hk => exact ⟨_, .cons rfl rfl rfl ht htrees, hk, hd, hms⟩
end

end Tree

theorem parse_of_spells {d : Document} {text : String} (h : d.Spells text) :
    ∃ t, parse text = ⟨t, none⟩ ∧ d.Shows t := by
  obtain ⟨t, ht, hd⟩ := Tree.yields_of_matches d (Token.scan_written h 0)
  refine ⟨t, ?_, hd⟩
  have hbuild := ht.build_value (Quotation.byteLength text.toList) [] []
  rw [List.append_nil] at hbuild
  rw [parse, hbuild]
  rfl

theorem read_of_spells {α : Type} (reader : Reader α) {d : Document} {text : String}
    (h : d.Spells text) : ∃ t, d.Shows t ∧ read reader text = reader depthLimit t := by
  obtain ⟨t, ht, hd⟩ := parse_of_spells h
  refine ⟨t, hd, ?_⟩
  simp only [read, ht]
  split
  · contradiction
  · rfl

end CodeActions.Json
