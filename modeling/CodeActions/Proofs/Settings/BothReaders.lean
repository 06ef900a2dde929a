import CodeActions.Proofs.Settings.RoundTrip
import CodeActions.Proofs.Yaml.Documents
import CodeActions.Proofs.Yaml.Shown
import CodeActions.Proofs.Yaml.Verbatim
/-!
# Settings text in YAML

Settings are written in JSON, and that text is also a YAML text, which is read as the same settings
unless YAML does not read one of their strings verbatim (`ofYamlText_toText_iff`).
-/
namespace CodeActions.Settings
open Json Yaml

section reading
variable (env : Env) (root : Mark) (depth : Nat)

private theorem readOptionalNode_plain {α : Type} (read : Path → Node → Decode α) (path : Path) (m : Mark)
    {text : String} (h : (text.isEmpty || isNull text) = false) :
    readOptionalNode env root read path (.scalar m none none .plain text) =
      some <$> read path (.scalar m none none .plain text) := by
  change (do
    let isAbsent ← pure (text.isEmpty || isNull text)
    if isAbsent then return none else some <$> read path (.scalar m none none .plain text)) = _
  rw [h]
  rfl

private theorem readText_of_shown {s : String} {n : Node} (h : (Value.text s).ShownBy n) (path : Path) :
    readOptionalNode env root (readTextNode "a string") path n = pure (some s) := by
  obtain ⟨m, rfl⟩ := h
  rfl

private theorem readWord_of_shown {w : UInt32} {n : Node}
    (h : (Value.number (.int w.toNat)).ShownBy n) (path : Path) :
    readOptionalNode env root readWordNode path n = pure (some w) := by
  obtain ⟨m, rfl⟩ := h
  have htext : (Value.number (.int w.toNat)).toText = String.ofList (intText w.toNat) := rfl
  have hnat : nat? (String.ofList (intText w.toNat)).toList = some w.toNat := by
    rw [String.toList_ofList]
    exact nat?_toDigits w.toNat
  have hread : readWordNode path (.scalar m none none .plain (String.ofList (intText w.toNat))) =
      pure w := by
    rw [readWordNode]
    simp only [isBare, decide_true, Bool.true_or, if_true, hnat, w.toNat_lt_size]
    rw [UInt32.ofNat_toNat]
  rw [htext, readOptionalNode_plain _ _ _ _ _ (not_null_intText _), hread, map_pure]

private theorem readFlag_of_shown {b : Bool} {n : Node} (h : (Value.bool b).ShownBy n) (path : Path) :
    readOptionalNode env root readFlagNode path n = pure (some b) := by
  obtain ⟨m, rfl⟩ := h
  cases b <;> rfl

/-- Whether a draft has these options, and no names but these have been given. -/
structure Draft.Holds (d : Draft) (s : Settings) (names : List String) : Prop where
  settings : d.settings = s
  names : ∀ name ∈ d.names, name ∈ names
  others : d.others = []

private theorem readMember_quoted (m : Mark) (name : String) (n : Node) (d : Draft) :
    readMember env root depth d (.scalar m none none .quoted name) n =
      match (knownNodes env root).lookup name with
      | some decode => do
        if d.names.contains name then complain [] root (.duplicateField name)
        return { d with settings := ← decode [.key name] n d.settings, names := name :: d.names }
      | none => do
        return { d with others := (name, ← readContent env depth [.key name] n) :: d.others } := rfl

private theorem readMember_known {name : String} {decode : Path → Node → Settings → Decode Settings}
    (hlookup : (knownNodes env root).lookup name = some decode) {k n : Node} {d : Draft}
    {s : Settings} (hk : Value.IsQuoted name k) (hfresh : name ∉ d.names)
    (hdecode : ∀ path, decode path n d.settings = pure s) :
    readMember env root depth d k n =
      pure { d with settings := s, names := name :: d.names } := by
  obtain ⟨m, rfl⟩ := hk
  have hcontains : d.names.contains name = false := by simpa using hfresh
  rw [readMember_quoted, hlookup]
  simp only [hcontains, Bool.false_eq_true, if_false, hdecode, pure_bind]

private theorem readMembers_known {α : Type} {αs : List Type} {name : String} {c : Codec α}
    {fs : Fields αs} {row : Row αs} {o : Option α} {read : Path → Node → Decode (Option α)}
    {set : Option α → Settings → Settings}
    (hlookup : (knownNodes env root).lookup name =
      some fun p n s => do return set (← read p n) s)
    (hread : ∀ {a n}, (c.toValue a).ShownBy n → ∀ path, read path n = pure (some a))
    {s : Settings} (hnone : set none s = s) {names : List String} (hfresh : name ∉ names)
    {d : Draft} (hd : d.Holds s names) {ms : List (String × Value)} {ns : List (Node × Node)}
    (hns : Value.MembersShownBy
      (Fields.toMembers (.cons (.optional name c) fs) (o, row) ++ ms) ns) :
    ∃ d' rest, readMembers env root depth d ns = readMembers env root depth d' rest ∧
      d'.Holds (set o s) (name :: names) ∧ Value.MembersShownBy (fs.toMembers row ++ ms) rest := by
  cases o with
  | none =>
    rw [hnone]
    exact ⟨d, ns, rfl, ⟨hd.settings, fun x hx => List.mem_cons_of_mem _ (hd.names x hx), hd.others⟩,
      hns⟩
  | some a =>
    obtain ⟨n, rest, rfl, ⟨hk, hn⟩, hrest⟩ := hns
    have hmember := readMember_known env root depth hlookup hk
      (fun h => hfresh (hd.names name h)) (s := set (some a) d.settings) fun path => by
        rw [hread hn path, pure_bind]
    refine ⟨{ d with settings := set (some a) d.settings, names := name :: d.names }, rest, ?_,
      ⟨by rw [hd.settings], ?_, hd.others⟩, hrest⟩
    · rw [readMembers, hmember, pure_bind]
    · exact List.forall_mem_cons.mpr
        ⟨List.mem_cons_self, fun x hx => List.mem_cons_of_mem _ (hd.names x hx)⟩

private theorem readMembers_options (s : Settings) {ms : List (String × Value)} {ns : List (Node × Node)}
    (hns : Value.MembersShownBy (known.toMembers s.row ++ ms) ns) :
    ∃ (d : Draft) (rest : List (Node × Node)),
      readMembers env root depth {} ns = readMembers env root depth d rest ∧
        d.settings = { s with extra := [] } ∧ d.others = [] ∧ Value.MembersShownBy ms rest := by
  have hstart : Draft.Holds {} {} [] := ⟨rfl, List.forall_mem_nil _, rfl⟩
  have text {s n} := @readText_of_shown env root s n
  have word {w n} := @readWord_of_shown env root w n
  have flag {b n} := @readFlag_of_shown env root b n
  obtain ⟨d, ns, h₁, hd, hns⟩ :=
    readMembers_known env root depth rfl text rfl (by decide) hstart hns
  obtain ⟨d, ns, h₂, hd, hns⟩ :=
    readMembers_known env root depth rfl word rfl (by decide) hd hns
  obtain ⟨d, ns, h₃, hd, hns⟩ :=
    readMembers_known env root depth rfl word rfl (by decide) hd hns
  obtain ⟨d, ns, h₄, hd, hns⟩ :=
    readMembers_known env root depth rfl flag rfl (by decide) hd hns
  obtain ⟨d, ns, h₅, hd, hns⟩ :=
    readMembers_known env root depth rfl flag rfl (by decide) hd hns
  obtain ⟨d, ns, h₆, hd, hns⟩ :=
    readMembers_known env root depth rfl flag rfl (by decide) hd hns
  obtain ⟨d, ns, h₇, hd, hns⟩ :=
    readMembers_known env root depth rfl flag rfl (by decide) hd hns
  exact ⟨d, ns, by rw [h₁, h₂, h₃, h₄, h₅, h₆, h₇], hd.settings, hd.others, hns⟩

private theorem readMembers_others {ms : List (String × Value)} {ns : List (Node × Node)}
    (hns : Value.MembersShownBy ms ns) (hunknown : ∀ m ∈ ms, m.1 ∉ known.names)
    (hint : Value.AllNumbersAmong Number.IsInt ms) (hfits : Value.AllNumbersAmong Number.Fits ms)
    (hcanonical : Value.IsCanonicalAmong ms)
    (hnesting : ∀ m ∈ ms, m.2.document.nesting ≤ depth) :
    ∃ cs, values cs = .ok ms ∧ ∀ d, readMembers env root depth d ns =
      pure { d with others := cs.reverse ++ d.others } := by
  induction ms generalizing ns with
  | nil =>
    obtain rfl := hns
    exact ⟨[], rfl, fun d => rfl⟩
  | cons m ms ih =>
    obtain ⟨name, v⟩ := m
    obtain ⟨n, rest, rfl, ⟨⟨m, hk⟩, hv⟩, hrest⟩ := hns
    obtain ⟨hname, hunknown⟩ := List.forall_mem_cons.mp hunknown
    obtain ⟨hdepth, hnesting⟩ := List.forall_mem_cons.mp hnesting
    obtain ⟨cs, hvalues, hread⟩ := ih hrest hunknown hint.2 hfits.2 hcanonical.2 hnesting
    obtain ⟨c, hc, hvalue⟩ := readContent_of_shown env v hv hint.1 hfits.1 hcanonical.1 hdepth
    refine ⟨(name, c) :: cs, ?_, fun d => ?_⟩
    · rw [values, hvalue, hvalues]
      rfl
    · have hlookup : (knownNodes env root).lookup name = none := by
        refine List.lookup_eq_none_iff.mpr fun entry hentry => ?_
        have hmem : entry.1 ∈ known.names :=
          names_knownNodes env root ▸ List.mem_map_of_mem hentry
        have hne : name ≠ entry.1 := fun heq => hname (heq ▸ hmem)
        simpa using hne
      have hmember : readMember env root depth d n.1 n.2 =
          pure { d with others := (name, c) :: d.others } := by
        rw [hk, readMember_quoted, hlookup]
        simp only [hc, pure_bind]
      rw [readMembers, hmember, pure_bind, hread]
      simp

private theorem readRoot_of_shown {s : Settings} (hsound : s.Sound)
    (hint : Value.AllNumbersAmong Number.IsInt s.extra)
    (hnesting : ∀ m ∈ s.extra, m.2.document.nesting ≤ Yaml.depthLimit - 1) {n : Node}
    (hn : (codec.toValue s).ShownBy n) : readRoot env n = pure s := by
  obtain ⟨m, ns, rfl, hns⟩ := hn
  obtain ⟨d, rest, hread, hsettings, hothers, hrest⟩ :=
    readMembers_options env m (Yaml.depthLimit - 1) s hns
  have hextra := Value.allNumbersAmong_iff.mpr fun x hx => (hsound.isExtra x hx).fits
  have hcanonical := Value.isCanonicalAmong_iff.mpr fun x hx => (hsound.isExtra x hx).canonical
  obtain ⟨cs, hvalues, hmembers⟩ := readMembers_others env m (Yaml.depthLimit - 1) hrest
    (fun x hx => (hsound.isExtra x hx).unknown) hint hextra hcanonical hnesting
  have hfollow : env.follow (.map m none none ns) = pure (.map m none none ns) := rfl
  rw [readRoot, hfollow, pure_bind]
  dsimp only
  rw [hread, hmembers, pure_bind, hothers]
  simp only [List.append_nil, List.reverse_reverse, hvalues, hsettings,
    Value.sorted_of_byKey hsound.byKey]

end reading

private theorem exists_of_reread_append {ms ns ws : List (String × Value)}
    (h : Value.rereadMembers? (ms ++ ns) = some ws) :
    ∃ xs ys, ws = xs ++ ys ∧ Value.rereadMembers? ms = some xs ∧
      Value.rereadMembers? ns = some ys := by
  induction ms generalizing ws with
  | nil => exact ⟨[], ws, rfl, rfl, h⟩
  | cons m ms ih =>
    obtain ⟨k, v⟩ := m
    obtain ⟨hsimple, w, rest, rfl, hw, hrest⟩ := exists_of_rereadMembers? h
    obtain ⟨xs, ys, rfl, hxs, hys⟩ := ih hrest
    refine ⟨(k, w) :: xs, ys, rfl, ?_, hys⟩
    rw [Value.rereadMembers?, if_pos hsimple, hw, hxs]
    rfl

private theorem eq_of_reread_bare {ms ws : List (String × Value)} (hms : ∀ m ∈ ms, m.2.IsBare)
    (h : Value.rereadMembers? ms = some ws) : ws = ms := by
  induction ms generalizing ws with
  | nil =>
    cases h
    rfl
  | cons m ms ih =>
    obtain ⟨k, v⟩ := m
    obtain ⟨hv, hms⟩ := List.forall_mem_cons.mp hms
    obtain ⟨-, w, rest, rfl, hw, hrest⟩ := exists_of_rereadMembers? h
    have hsame : v.reread? = some v := by
      match v, hv with
      | .null, _ | .bool _, _ | .number _, _ => rfl
    rw [hsame] at hw
    rw [ih hms hrest, Option.some_inj.mp hw]

/-- What is reread of settings are settings again, of which only strings may be others. -/
private theorem exists_of_reread {s : Settings} {w : Value} (h : (codec.toValue s).reread? = some w) :
    ∃ t : Settings, w = codec.toValue t ∧ Value.rereadMembers? s.extra = some t.extra := by
  obtain ⟨ws, hws, rfl⟩ := Option.map_eq_some_iff.mp h
  obtain ⟨xs, ys, rfl, hxs, hys⟩ := exists_of_reread_append hws
  let rest := known.toMembers { s with newLineCharacter := none }.row
  have hrest : ∀ m ∈ rest, m.2.IsBare := by
    intro m hm
    simp only [rest, known, row, Fields.toMembers, Field.optional, Option.map_none,
      Option.toList_none, List.nil_append, List.append_nil, List.mem_append, Option.mem_toList,
      Option.map_map, Option.map_eq_some_iff, Codec.word, Codec.flag] at hm
    rcases hm with
      ⟨a, -, rfl⟩ | ⟨a, -, rfl⟩ | ⟨a, -, rfl⟩ | ⟨a, -, rfl⟩ | ⟨a, -, rfl⟩ | ⟨a, -, rfl⟩ <;>
      trivial
  have hsplit (o : Option String) : known.toMembers { s with newLineCharacter := o }.row =
      (o.map fun line => ("newLineCharacter", Value.text line)).toList ++ rest := by
    cases o <;> rfl
  obtain ⟨o, rfl⟩ : ∃ o : Option String,
      xs = (o.map fun line => ("newLineCharacter", Value.text line)).toList ++ rest := by
    rw [show known.toMembers s.row = _ from hsplit s.newLineCharacter] at hxs
    cases hline : s.newLineCharacter with
    | none =>
      rw [hline] at hxs
      exact ⟨none, eq_of_reread_bare hrest hxs⟩
    | some line =>
      rw [hline] at hxs
      obtain ⟨-, w, rest', rfl, hw, hrest'⟩ := exists_of_rereadMembers? hxs
      obtain ⟨out, -, rfl⟩ := Option.map_eq_some_iff.mp hw
      exact ⟨some (String.ofList out), by rw [eq_of_reread_bare hrest hrest']; rfl⟩
  refine ⟨{ s with newLineCharacter := o, extra := ys }, ?_, hys⟩
  rw [← hsplit o]
  rfl

private theorem Sound.eq_of_toValue {s t : Settings} (hs : s.Sound) (ht : t.Sound)
    (hint : Value.AllNumbersAmong Number.IsInt s.extra)
    (hint' : Value.AllNumbersAmong Number.IsInt t.extra)
    (h : codec.toValue s = codec.toValue t) : s = t := by
  have hmeaning := (hs.renders hint (Nat.le_refl _)).meaning
  rw [h, (ht.renders hint' (Nat.le_refl _)).meaning] at hmeaning
  exact (Option.some_inj.mp hmeaning).symm

private theorem Sound.of_reread {s t : Settings} (hs : s.Sound)
    (h : Value.rereadMembers? s.extra = some t.extra) : t.Sound := by
  obtain ⟨hkeys, hcanonical, hnumbers, -⟩ := keeps_rereadMembers s.extra h
  have hcanonical := hcanonical <|
    Value.isCanonicalAmong_iff.mpr fun m hm => (hs.isExtra m hm).canonical
  have hfits := hnumbers _ <| Value.allNumbersAmong_iff.mpr fun m hm => (hs.isExtra m hm).fits
  constructor
  · exact (List.pairwise_map (f := Prod.fst)).mp (hkeys ▸ List.pairwise_map.mpr hs.byKey)
  · intro m hm
    obtain ⟨m', hm', heq⟩ := List.mem_map.mp (hkeys ▸ List.mem_map_of_mem hm)
    exact ⟨heq ▸ (hs.isExtra m' hm').unknown, Value.isCanonicalAmong_iff.mp hcanonical m hm,
      Value.allNumbersAmong_iff.mp hfits m hm⟩

private theorem ofYamlText_toText {s : Settings} (hsound : s.Sound)
    (hint : Value.AllNumbersAmong Number.IsInt s.extra)
    (hnesting : ∀ m ∈ s.extra, m.2.document.nesting ≤ Yaml.depthLimit - 1) :
    (∃ t : Settings, (codec.toValue s).inYaml? = some (codec.toValue t) ∧ t.Sound ∧
        Value.AllNumbersAmong Number.IsInt t.extra ∧ ofYamlText s.toText = .ok t) ∨
      (codec.toValue s).inYaml? = none ∧ ∃ f, ofYamlText s.toText = .error f := by
  have hnumbers := (hsound.renders hint (Nat.le_refl _)).isInt
  obtain ⟨n, isWhole, htext, hshown⟩ := Document.ofText_toText hnumbers
  have hyaml : ofYaml s.toText = (do
      let read ← (readRoot (Env.ofRoot n) n).run 0
      if isWhole then .ok read.1 else .error .malformed) := by
    rw [ofYaml, show Document.ofText s.toText = _ from htext]
  rcases hshown with ⟨w, hw, rfl, hshown⟩ | ⟨hw, rfl⟩
  · have hreread : (codec.toValue s).reread? = some w :=
      (Option.ite_none_right_eq_some.mp hw).2
    obtain ⟨t, rfl, hextra⟩ := exists_of_reread hreread
    obtain ⟨-, -, hnumbers, hsame⟩ := keeps_rereadMembers s.extra hextra
    have hnesting' : ∀ m ∈ t.extra, m.2.document.nesting ≤ Yaml.depthLimit - 1 :=
      Fields.nesting_documents_le_iff.mp (hsame ▸ Fields.nesting_documents_le_iff.mpr hnesting)
    refine .inl ⟨t, hw, hsound.of_reread hextra, hnumbers _ hint, ?_⟩
    have hroot := readRoot_of_shown (Env.ofRoot n) (hsound.of_reread hextra) (hnumbers _ hint)
      hnesting' hshown
    rw [ofYamlText, hyaml, hroot]
    rfl
  · refine .inr ⟨hw, ?_⟩
    rw [ofYamlText, hyaml]
    cases (readRoot (Env.ofRoot n) n).run 0 <;> exact ⟨_, rfl⟩

private theorem nesting_of_ofJsonText {text : String} {s : Settings} (h : ofJsonText text = .ok s) :
    ∀ m ∈ s.extra, m.2.document.nesting ≤ Json.depthLimit - 1 := by
  obtain ⟨start, ms, ending, inner, others, -, hdepth, hextra, hothers⟩ :=
    exists_others_of_read (reader_of_read (ofJsonText_eq_ok_iff.mp h))
  obtain rfl : inner = Json.depthLimit - 1 := by rw [hdepth, Nat.add_sub_cancel]
  intro m hm
  obtain ⟨-, n, -, hv⟩ := hothers m (Value.mem_of_mem_sorted (hextra ▸ hm))
  exact Tree.nesting_of_readValue hv

private theorem nesting_toValue_le {s : Settings} {n : Nat} (h : ∀ m ∈ s.extra, m.2.document.nesting ≤ n) :
    (codec.toValue s).document.nesting ≤ n + 1 :=
  Nat.succ_le_succ <| Fields.nesting_documents_le_iff.mpr <| List.forall_mem_append.mpr
    ⟨Fields.nesting_documents_le_iff.mp (known_renders s n).nesting, h⟩

/-- The text of settings that were read of JSON is read in YAML as the same settings exactly if all
keys and strings in it are verbatim. So is a file with that text, unless its name says that it is
JSON, as which it is always read. -/
theorem ofYamlText_toText_iff {text : String} {s : Settings} (h : ofJsonText text = .ok s)
    (hint : Value.AllNumbersAmong Number.IsInt s.extra) :
    (ofYamlText s.toText = .ok s ↔ AllVerbatim (codec.toValue s)) ∧
      ∀ path, ofFile path s.toText = .ok s ↔
        isJson path = true ∨ AllVerbatim (codec.toValue s) := by
  have hsound := sound_of_ofJsonText h
  have hnesting := nesting_of_ofJsonText h
  have hrenders := hsound.renders hint (nesting_toValue_le hnesting)
  have hsame : ofYamlText s.toText = .ok s ↔
      (codec.toValue s).inYaml? = some (codec.toValue s) := by
    have hnesting' : ∀ m ∈ s.extra, m.2.document.nesting ≤ Yaml.depthLimit - 1 := fun m hm =>
      Nat.le_trans (hnesting m hm) (by decide)
    rcases ofYamlText_toText hsound hint hnesting' with ⟨t, hw, ht, hint', hread⟩ | ⟨hw, f, hf⟩
    · rw [hw, hread]
      constructor
      · rintro ⟨rfl⟩
        rfl
      · intro heq
        rw [ht.eq_of_toValue hsound hint' hint (Option.some_inj.mp heq)]
    · rw [hw, hf]
      simp
  have hyaml := hsame.trans (inYaml?_eq_self_iff hrenders.isInt)
  refine ⟨hyaml, fun path => ?_⟩
  have hjson : ofJsonText s.toText = .ok s :=
    ofJsonText_eq_ok_iff.mpr (hrenders.read_toText readsAs (Nat.le_refl _))
  rw [ofFile]
  split
  case isTrue hpath => exact iff_of_true hjson (.inl hpath)
  case isFalse hpath => rw [hyaml, or_iff_right hpath]

theorem ofYamlText_toText_separator :
    let text := "\x7b\"newLineCharacter\":\"\\n\",\"a\":\"b\u2028c\"\x7d"
    let s : Settings := { newLineCharacter := some "\n", extra := [("a", .text "b\u2028c")] }
    ofJsonText text = .ok s ∧ s.toText = text ∧ ofYamlText text = .ok s ∧
      ofFile "settings.yml" text = .ok s := by
  intro text s
  have hspells : (codec.toValue s).document.Spells text :=
    Value.spells_toText (v := codec.toValue s) ⟨trivial, trivial, trivial⟩
  have hread : ofJsonText text = .ok s :=
    ofJsonText_eq_ok_iff.mpr ((readsAs.read_iff hspells (by decide) s).mpr rfl)
  have hverbatim : AllVerbatim (codec.toValue s) :=
    (inYaml?_eq_self_iff (v := codec.toValue s) ⟨trivial, trivial, trivial⟩).mp rfl
  obtain ⟨hyaml, hfile⟩ := ofYamlText_toText_iff hread ⟨trivial, trivial⟩
  exact ⟨hread, rfl, hyaml.mpr hverbatim, (hfile "settings.yml").mpr (.inr hverbatim)⟩

/-- A delete character is written as it is, and no YAML text may have one. -/
theorem delete_is_not_read_back :
    let text := "\x7b\"a\":\"\x7f\"\x7d"
    let s : Settings := { extra := [("a", .text "\x7f")] }
    ofJsonText text = .ok s ∧ Value.AllNumbersAmong Number.IsInt s.extra ∧ s.toText = text ∧
      ∃ f, ofYamlText text = .error f := by
  intro text s
  have hspells : (codec.toValue s).document.Spells text :=
    Value.spells_toText (v := codec.toValue s) ⟨trivial, trivial⟩
  have hread : ofJsonText text = .ok s :=
    ofJsonText_eq_ok_iff.mpr ((readsAs.read_iff hspells (by decide) s).mpr rfl)
  refine ⟨hread, ⟨trivial, trivial⟩, rfl, ?_⟩
  rcases ofYamlText_toText (sound_of_ofJsonText hread) ⟨trivial, trivial⟩
    (List.forall_mem_singleton.mpr (Nat.zero_le _)) with ⟨t, hw, -⟩ | ⟨-, hf⟩
  · cases hw
  · exact hf

end CodeActions.Settings
