import CodeActions.Settings.Loading
import CodeActions.Proofs.Settings.Reading
import Mathlib.Data.List.TakeWhile
import Mathlib.Data.String.Basic
/-!
# Loading settings

What loading comes to for every path and all that a path may lead to. The last name of a path alone
decides between the two readers (`NamesJson`), and a failure tells its stage: no file, no text, or
one that the reader refuses (`load_outcome`).
-/
namespace CodeActions

namespace FileTree
open String (utf8Len)

/-- Splitting goes on from the text `m` of a name with the text `r` after it. -/
private theorem splitOnAux_slash (l m r : List Char) (acc : List String) :
    String.splitOnAux (String.ofList (l ++ m ++ r)) "/" ⟨utf8Len l⟩ ⟨utf8Len l + utf8Len m⟩ 0 acc =
      acc.reverse ++ (List.splitOnPPrepend (· == '/') r m.reverse).map String.ofList := by
  have hslash : String.Pos.Raw.get "/" 0 = '/' := by decide
  have hnext : String.Pos.Raw.next "/" 0 = ⟨1⟩ := by decide
  have hwhole : String.Pos.Raw.atEnd "/" ⟨1⟩ = true := by decide
  induction r generalizing l m acc with
  | nil =>
    have hend : String.Pos.Raw.atEnd (String.ofList (l ++ m ++ []))
        ⟨utf8Len l + utf8Len m⟩ = true := by
      simpa using String.atEnd_of_valid (l ++ m) []
    have hname := String.extract_of_valid l m []
    rw [String.splitOnAux.eq_def, if_pos hend]
    simp only [hname, List.splitOnPPrepend, List.reverse_cons, List.reverse_reverse, List.map_cons,
      List.map_nil]
  | cons c r ih =>
    have hend : ¬ String.Pos.Raw.atEnd (String.ofList (l ++ m ++ c :: r))
        ⟨utf8Len l + utf8Len m⟩ = true := by
      simpa using String.atEnd_of_valid (l ++ m) (c :: r)
    have hget : String.Pos.Raw.get (String.ofList (l ++ m ++ c :: r))
        ⟨utf8Len l + utf8Len m⟩ = c := by
      simpa using String.get_of_valid (l ++ m) (c :: r)
    have hstep : String.Pos.Raw.next (String.ofList (l ++ m ++ c :: r))
        ⟨utf8Len l + utf8Len m⟩ = ⟨utf8Len l + utf8Len m + c.utf8Size⟩ := by
      simpa using String.next_of_valid (l ++ m) c r
    have hname := String.extract_of_valid l m (c :: r)
    rw [String.splitOnAux.eq_def, if_neg hend, List.splitOnPPrepend_cons_eq_if]
    by_cases hc : c = '/'
    · subst hc
      have hback : (⟨utf8Len l + utf8Len m + '/'.utf8Size⟩ : String.Pos.Raw).unoffsetBy ⟨1⟩ =
          ⟨utf8Len l + utf8Len m⟩ := rfl
      have hrest := ih (l ++ m ++ ['/']) [] (String.ofList m :: acc)
      simp only [hget, hstep, hslash, hnext, hwhole, hback, hname, beq_self_eq_true, if_true]
      simpa [Nat.add_assoc] using hrest
    · have hrest := ih l (m ++ [c]) acc
      simp only [hget, hslash, String.Pos.Raw.unoffsetBy_zero, hstep, beq_iff_eq, hc, if_false]
      simpa [Nat.add_assoc] using hrest

private theorem names_eq_splitOn (path : String) :
    names path = (path.toList.splitOn '/').map String.ofList := by
  have h := splitOnAux_slash [] [] path.toList []
  rw [names, String.splitOn, if_neg (by decide), List.splitOn]
  simpa using h

private theorem eq_false_of_mem_splitOnPPrepend {α : Type} {p : α → Bool} {xs acc piece : List α}
    (hacc : ∀ x ∈ acc, p x = false) (h : piece ∈ List.splitOnPPrepend p xs acc) :
    ∀ x ∈ piece, p x = false := by
  induction xs generalizing acc with
  | nil =>
    simp only [List.splitOnPPrepend, List.mem_singleton] at h
    simpa [h] using hacc
  | cons x xs ih =>
    rw [List.splitOnPPrepend_cons_eq_if] at h
    by_cases hx : p x = true
    · rw [if_pos hx, List.mem_cons] at h
      rcases h with rfl | h
      · simpa using hacc
      · exact ih (List.forall_mem_nil _) h
    · rw [if_neg hx] at h
      exact ih (List.forall_mem_cons.mpr ⟨by simpa using hx, hacc⟩) h

private theorem splitOn_eq_iff {x : Char} {xs : List Char} {pieces : List (List Char)} :
    xs.splitOn x = pieces ↔
      pieces ≠ [] ∧ xs = [x].intercalate pieces ∧ ∀ piece ∈ pieces, x ∉ piece := by
  constructor
  · rintro rfl
    refine ⟨List.splitOn_ne_nil x xs, (List.intercalate_splitOn x).symm, ?_⟩
    intro piece hpiece hx
    have hfree := eq_false_of_mem_splitOnPPrepend (List.forall_mem_nil _) hpiece x hx
    simp at hfree
  · rintro ⟨hne, rfl, hfree⟩
    exact List.splitOn_intercalate x hfree hne

private theorem names_eq_iff {path : String} {ns : List String} :
    names path = ns ↔ ns ≠ [] ∧ path = "/".intercalate ns ∧ ∀ n ∈ ns, '/' ∉ n.toList := by
  have hchars : names path = ns ↔ path.toList.splitOn '/' = ns.map String.toList := by
    rw [names_eq_splitOn]
    constructor
    · rintro rfl
      simp [Function.comp_def]
    · intro h
      simp [h, Function.comp_def]
  have hslash : "/".toList = ['/'] := by decide
  rw [hchars, splitOn_eq_iff, ← hslash, ← String.toList_intercalate, String.toList_inj]
  simp

/-- A path leads to its last name, behind which there are but slashes and dots that lead nowhere
else. -/
def EndsIn (path name : String) : Prop :=
  ∃ before after : List String,
    path = "/".intercalate (before ++ name :: after) ∧
    (∀ n ∈ before ++ name :: after, '/' ∉ n.toList) ∧
    (name ≠ "" ∧ name ≠ ".") ∧ ∀ n ∈ after, n = "" ∨ n = "."

private theorem endsIn_iff {path name : String} :
    EndsIn path name ↔ ((names path).filter (! isIdle ·)).getLast? = some name := by
  rw [List.getLast?_filter, List.find?_eq_some_iff_append]
  constructor
  · rintro ⟨before, after, hpath, hnames, hname, hafter⟩
    have hns : names path = before ++ name :: after :=
      names_eq_iff.mpr ⟨by simp, hpath, hnames⟩
    refine ⟨by simpa [isIdle] using hname, after.reverse, before.reverse, by simp [hns], ?_⟩
    simpa [isIdle] using hafter
  · rintro ⟨hname, after, before, hns, hafter⟩
    have hnames : names path = before.reverse ++ name :: after.reverse := by
      rw [← List.reverse_inj, hns]
      simp
    obtain ⟨-, hpath, hslash⟩ := names_eq_iff.mp hnames
    refine ⟨before.reverse, after.reverse, hpath, hslash, by simpa [isIdle] using hname, ?_⟩
    simpa [isIdle] using hafter

end FileTree

namespace Settings
open FileTree

private theorem fileName?_eq_some_iff {path name : String} :
    fileName? path = some name ↔ EndsIn path name ∧ name ≠ ".." := by
  simp [fileName?, endsIn_iff, Option.filter_eq_some_iff]

private theorem takeWhile_dropWhile_iff {x : Char} {xs before rest : List Char} :
    (xs.takeWhile (· ≠ x) = before ∧ xs.dropWhile (· ≠ x) = x :: rest) ↔
      x ∉ before ∧ xs = before ++ x :: rest := by
  constructor
  · rintro ⟨rfl, hrest⟩
    refine ⟨fun hx => by simpa using List.mem_takeWhile_imp hx, ?_⟩
    rw [← hrest, List.takeWhile_append_dropWhile]
  · rintro ⟨hx, rfl⟩
    have hbefore : ∀ y ∈ before, decide (y ≠ x) = true := by
      intro y hy
      simpa using ne_of_mem_of_not_mem hy hx
    rw [List.takeWhile_append_of_pos hbefore, List.dropWhile_append_of_pos hbefore]
    simp

/-- The last dot of a name is the first one of the reversed name, where the definition looks for
it. -/
private theorem extension?_eq_some_iff_reverse {name ending : String} :
    extension? name = some ending ↔ ∃ stem, stem ≠ "" ∧
      name.toList.reverse.takeWhile (· ≠ '.') = ending.toList.reverse ∧
      name.toList.reverse.dropWhile (· ≠ '.') = '.' :: stem.toList.reverse := by
  unfold extension?
  generalize name.toList.reverse = cs
  cases hrest : cs.dropWhile (· ≠ '.') with
  | nil => simp
  | cons c before =>
    have hc : c = '.' := by
      have hne : cs.dropWhile (· ≠ '.') ≠ [] := hrest ▸ List.cons_ne_nil c before
      have hdot := List.head_dropWhile_not (· ≠ '.') hne
      simp only [hrest, List.head_cons] at hdot
      simpa using hdot
    subst hc
    cases before with
    | nil => simp
    | cons d before =>
      have hending : some (String.ofList (cs.takeWhile (· ≠ '.')).reverse) = some ending ↔
          cs.takeWhile (· ≠ '.') = ending.toList.reverse := by
        rw [Option.some_inj, ← String.toList_inj, String.toList_ofList, List.reverse_eq_iff]
      refine hending.trans ⟨fun h => ?_, fun ⟨stem, _, h, _⟩ => h⟩
      exact ⟨String.ofList (d :: before).reverse, by simp, h, by simp⟩

private theorem extension?_eq_some_iff {name ending : String} :
    extension? name = some ending ↔
      '.' ∉ ending.toList ∧ ∃ stem, stem ≠ "" ∧ name = stem ++ "." ++ ending := by
  have hchars (stem : String) : name = stem ++ "." ++ ending ↔
      name.toList.reverse = ending.toList.reverse ++ '.' :: stem.toList.reverse := by
    rw [← String.toList_inj, ← List.reverse_inj]
    simp
  simp only [extension?_eq_some_iff_reverse, takeWhile_dropWhile_iff, List.mem_reverse, hchars]
  constructor
  · rintro ⟨stem, hstem, hdot, hname⟩
    exact ⟨hdot, stem, hstem, hname⟩
  · rintro ⟨hdot, stem, hstem, hname⟩
    exact ⟨stem, hstem, hdot, hname⟩

/-- The last name of a path has `.json`, in these letters, behind at least one character. -/
def NamesJson (path : String) : Prop :=
  ∃ stem, stem ≠ "" ∧ EndsIn path (stem ++ ".json")

private theorem isJson_iff {path : String} : isJson path = true ↔ NamesJson path := by
  simp only [isJson, decide_eq_true_eq, Option.bind_eq_some_iff, fileName?_eq_some_iff,
    extension?_eq_some_iff]
  constructor
  · rintro ⟨name, ⟨hends, -⟩, -, stem, hstem, rfl⟩
    exact ⟨stem, hstem, by simpa [String.append_assoc] using hends⟩
  · rintro ⟨stem, hstem, hends⟩
    have hname : stem ++ ".json" ≠ ".." := by
      intro h
      have hlast := congrArg (fun name : String => name.toList.getLast?) h
      simp at hlast
    exact ⟨_, ⟨hends, hname⟩, by decide, stem, hstem, by simp [String.append_assoc]⟩

private theorem ofFile_of_json {path : String} (h : NamesJson path) (text : String) :
    ofFile path text = ofJsonText text := if_pos (isJson_iff.mpr h)

private theorem ofFile_of_not_json {path : String} (h : ¬ NamesJson path) (text : String) :
    ofFile path text = ofYamlText text := if_neg (h ∘ isJson_iff.mp)

private theorem ofYamlText_eq_error {text : String} {failure : Failure}
    (h : ofYamlText text = .error failure) : ∃ fault, failure = .yaml fault := by
  obtain ⟨fault, -, rfl⟩ := mapError_eq_error_iff.mp h
  exact ⟨fault, rfl⟩

private theorem ofFile_eq_error {path text : String} {failure : Failure}
    (h : ofFile path text = .error failure) :
    (∃ cause line column, failure = .json cause line column) ∨ ∃ fault, failure = .yaml fault := by
  by_cases hpath : NamesJson path
  · rw [ofFile_of_json hpath] at h
    exact .inl (ofJsonText_eq_error h)
  · rw [ofFile_of_not_json hpath] at h
    exact .inr (ofYamlText_eq_error h)

private theorem fromUTF8?_eq_some_iff {bytes : ByteArray} {text : String} :
    String.fromUTF8? bytes = some text ↔ text.toUTF8 = bytes := by
  unfold String.fromUTF8?
  split
  case isTrue hvalid =>
    rw [Option.some_inj]
    constructor
    · rintro rfl
      rfl
    · rintro rfl
      rfl
  case isFalse hinvalid =>
    constructor
    · nofun
    · rintro rfl
      exact absurd text.isValidUTF8 hinvalid

/-- What is there but has no text: a directory, and bytes that are not UTF-8. -/
def HasNoText : Entry → Prop
  | .absent => False
  | .directory => True
  | .file bytes => ∀ text : String, text.toUTF8 ≠ bytes

variable (entry : String → Entry) (path : String)

private theorem load_cases :
    (entry path = .absent ∧ load entry path = ⟨.error (.fileNotFound path), []⟩) ∨
    (HasNoText (entry path) ∧ ∃ cause, load entry path = ⟨.error (.io cause), []⟩) ∨
    ∃ text : String, entry path = .file text.toUTF8 ∧
      ((∃ s, ofFile path text = .ok s ∧ load entry path = ⟨.ok s, [.loaded path]⟩) ∨
        ∃ failure, ofFile path text = .error failure ∧ load entry path = ⟨.error failure, []⟩) := by
  cases hentry : entry path with
  | absent => exact .inl ⟨rfl, by simp only [load, hentry]⟩
  | directory => exact .inr (.inl ⟨trivial, isDirectory, by simp only [load, hentry]⟩)
  | file bytes =>
    cases htext : String.fromUTF8? bytes with
    | none =>
      have hnone : HasNoText (.file bytes) := by
        intro text h
        rw [fromUTF8?_eq_some_iff.mpr h] at htext
        cases htext
      exact .inr (.inl ⟨hnone, notText, by simp only [load, hentry, htext]⟩)
    | some text =>
      refine .inr (.inr ⟨text, by rw [fromUTF8?_eq_some_iff.mp htext], ?_⟩)
      cases hread : ofFile path text with
      | ok s => exact .inl ⟨s, rfl, by simp only [load, hentry, htext, hread]⟩
      | error failure => exact .inr ⟨failure, rfl, by simp only [load, hentry, htext, hread]⟩

private theorem load_eq_fileNotFound_iff (p : String) :
    (load entry path).result = .error (.fileNotFound p) ↔ entry path = .absent ∧ p = path := by
  rcases load_cases entry path with ⟨hentry, hload⟩ | ⟨hnone, cause, hload⟩ |
    ⟨text, hentry, ⟨s, -, hload⟩ | ⟨failure, hread, hload⟩⟩
  · simp [hentry, hload, eq_comm]
  · have hentry : entry path ≠ .absent := fun h => by simp [h, HasNoText] at hnone
    simp [hentry, hload]
  · simp [hentry, hload]
  · rcases ofFile_eq_error hread with ⟨_, _, _, rfl⟩ | ⟨_, rfl⟩ <;> simp [hentry, hload]

private theorem load_eq_io_iff :
    (∃ cause, (load entry path).result = .error (.io cause)) ↔ HasNoText (entry path) := by
  rcases load_cases entry path with ⟨hentry, hload⟩ | ⟨hnone, cause, hload⟩ |
    ⟨text, hentry, ⟨s, -, hload⟩ | ⟨failure, hread, hload⟩⟩
  · simp [hentry, hload, HasNoText]
  · simp [hnone, hload]
  · simp [hentry, hload, HasNoText]
  · rcases ofFile_eq_error hread with ⟨_, _, _, rfl⟩ | ⟨_, rfl⟩ <;>
      simp [hentry, hload, HasNoText]

private theorem load_notices :
    (∃ s, (load entry path).result = .ok s ∧ (load entry path).notices = [.loaded path]) ∨
      ∃ failure, (load entry path).result = .error failure ∧ (load entry path).notices = [] := by
  rcases load_cases entry path with ⟨-, hload⟩ | ⟨-, cause, hload⟩ |
    ⟨text, -, ⟨s, -, hload⟩ | ⟨failure, -, hload⟩⟩
  · exact .inr ⟨_, by rw [hload], by rw [hload]⟩
  · exact .inr ⟨_, by rw [hload], by rw [hload]⟩
  · exact .inl ⟨s, by rw [hload], by rw [hload]⟩
  · exact .inr ⟨failure, by rw [hload], by rw [hload]⟩

private theorem load_informs_iff :
    (∃ n ∈ (load entry path).notices, n.level = .info) ↔
      ∃ s, (load entry path).result = .ok s := by
  rcases load_notices entry path with ⟨s, hresult, hnotices⟩ | ⟨failure, hresult, hnotices⟩
  · simp [hresult, hnotices, Notice.level]
  · simp [hresult, hnotices]

variable {entry path}

private theorem load_text {text : String} (hentry : entry path = .file text.toUTF8) :
    (load entry path).result = ofFile path text := by
  have htext : String.fromUTF8? text.toUTF8 = some text := fromUTF8?_eq_some_iff.mpr rfl
  simp only [load, hentry, htext]
  cases ofFile path text <;> rfl

private theorem loadOrDefault_of_ne_absent (hentry : entry path ≠ .absent) :
    loadOrDefault entry path = load entry path := by
  unfold loadOrDefault
  split
  · contradiction
  · rfl

private theorem loadOrDefault_ne_fileNotFound (entry : String → Entry) (path p : String) :
    (loadOrDefault entry path).result ≠ .error (.fileNotFound p) := by
  by_cases hentry : entry path = .absent
  · simp [loadOrDefault, hentry]
  · rw [loadOrDefault_of_ne_absent hentry]
    exact fun h => hentry ((load_eq_fileNotFound_iff entry path p).mp h).1

/-- What loading comes to, for every path and whatever the path leads to. It fails for want of a
file exactly if nothing is there, and as input or output exactly if what is there has no text.
Otherwise it comes to what one of the two readers makes of the text, and the last name of the path
tells which. Success alone is told. With defaults, nothing there is no failure. -/
theorem load_outcome (entry : String → Entry) (path : String) :
    (∀ p, (load entry path).result = .error (.fileNotFound p) ↔
      entry path = .absent ∧ p = path) ∧
    ((∃ cause, (load entry path).result = .error (.io cause)) ↔
      entry path = .directory ∨
        ∃ bytes, entry path = .file bytes ∧ ∀ text : String, text.toUTF8 ≠ bytes) ∧
    (∀ text : String, entry path = .file text.toUTF8 →
      (NamesJson path → (load entry path).result = ofJsonText text) ∧
      (¬ NamesJson path → (load entry path).result = ofYamlText text)) ∧
    ((∃ n ∈ (load entry path).notices, n.level = .info) ↔
      ∃ s, (load entry path).result = .ok s) ∧
    ((∃ s, (load entry path).result = .ok s ∧ (load entry path).notices = [.loaded path]) ∨
      ∃ failure, (load entry path).result = .error failure ∧ (load entry path).notices = []) ∧
    (∀ p, (loadOrDefault entry path).result ≠ .error (.fileNotFound p)) ∧
    (entry path = .absent →
      loadOrDefault entry path = ⟨.ok {}, [.noSettings path]⟩ ∧
      (Notice.noSettings path).level = .debug) ∧
    (entry path ≠ .absent → loadOrDefault entry path = load entry path) := by
  refine ⟨load_eq_fileNotFound_iff entry path, ?_, ?_, load_informs_iff entry path,
    load_notices entry path, loadOrDefault_ne_fileNotFound entry path, ?_,
    loadOrDefault_of_ne_absent⟩
  · rw [load_eq_io_iff]
    cases entry path <;> simp [HasNoText]
  · intro text hentry
    rw [load_text hentry]
    exact ⟨fun hpath => ofFile_of_json hpath text, fun hpath => ofFile_of_not_json hpath text⟩
  · intro hentry
    exact ⟨by simp only [loadOrDefault, hentry], rfl⟩

/-- A name that begins with its only dot has no ending, and slashes behind a name do not count. -/
theorem load_outcome_of_hidden :
    let entry (_ : String) := Entry.file "\x7b\"tabSize\":4\x7d".toUTF8
    ¬ NamesJson "home/.json" ∧
      (load entry "home/.json").result = ofYamlText "\x7b\"tabSize\":4\x7d" ∧
      NamesJson "home/.json.json/" ∧
      (load entry "home/.json.json/").result = ofJsonText "\x7b\"tabSize\":4\x7d" := by
  intro entry
  have hyaml : ¬ NamesJson "home/.json" := by
    have hnames : names "home/.json" = ["home", ".json"] :=
      names_eq_iff.mpr ⟨by decide, by decide, by decide⟩
    rw [← isJson_iff, isJson, fileName?, hnames]
    decide
  have hjson : NamesJson "home/.json.json/" :=
    ⟨".json", by decide, ["home"], [""], by decide, by decide, by decide, by decide⟩
  obtain ⟨-, -, hread, -⟩ := load_outcome entry "home/.json"
  obtain ⟨-, -, hread', -⟩ := load_outcome entry "home/.json.json/"
  exact ⟨hyaml, (hread _ rfl).2 hyaml, hjson, (hread' _ rfl).1 hjson⟩

end Settings
end CodeActions
