import CodeActions.Proofs.Json.Numbers
import CodeActions.Proofs.Json.Record
import CodeActions.Proofs.Yaml.Content
import CodeActions.Settings.Loading
/-!
# Unknown options

The options that settings keep without knowing them stand in the order of their keys, have none of
the known names, and hold canonical values whose integers fit 64 bits. Settings that are loaded are
so from the start, from either kind of text.
-/
namespace CodeActions.Settings
open Json

structure IsExtra (m : String × Value) : Prop where
  unknown : m.1 ∉ known.names
  canonical : m.2.IsCanonical
  fits : m.2.AllNumbers Number.Fits

structure Sound (s : Settings) : Prop where
  byKey : Value.ByKey s.extra
  isExtra : ∀ m ∈ s.extra, IsExtra m

private theorem sound_default : Sound {} := ⟨.nil, List.forall_mem_nil _⟩

private theorem sound_of_others {s : Settings} {others : List (String × Value)}
    (hs : s.extra = Value.sorted others) (h : ∀ m ∈ others, IsExtra m) : s.Sound where
  byKey := hs ▸ Value.byKey_sorted others
  isExtra m hm := h m (Value.mem_of_mem_sorted (hs ▸ hm))

theorem Sound.withNewLine {s : Settings} (h : s.Sound) (newLine : String) :
    (s.withNewLine newLine).Sound := ⟨h.byKey, h.isExtra⟩

theorem exists_others_of_read {t : Tree} {depth : Nat} {s : Settings}
    (h : codec.read depth t = .ok s) :
    ∃ start ms ending inner others, t = .object start ms ending ∧ depth = inner + 1 ∧
      s.extra = Value.sorted others ∧
      ∀ m ∈ others, m.1 ∉ known.names ∧ ∃ n ∈ ms, n.2.readValue inner = .ok m.2 := by
  cases t with
  | broken peek read skip => cases depth <;> cases h
  | scalar start stop c => cases depth <;> cases h
  | list start ts ending => cases depth <;> cases h
  | object start ms ending =>
    cases depth with
    | zero => cases h
    | succ depth =>
      obtain ⟨⟨r, others⟩, hobject, h⟩ := exists_of_bind h
      obtain ⟨⟨slots, found⟩, hread, hobject⟩ := exists_of_bind hobject
      obtain ⟨stop, -, hobject⟩ := exists_of_bind hobject
      obtain ⟨r', -, hobject⟩ := exists_of_bind hobject
      cases hobject
      cases h
      refine ⟨start, ms, ending, depth, others, rfl, rfl, rfl,
        Fields.forall_found_of_readMembers _ _ known (by decide) ?_ hread⟩
      intro m hm name hname found hfound
      obtain ⟨v, hv, rfl⟩ := exists_of_map hfound
      exact List.forall_mem_singleton.mpr ⟨hname, m, hm, hv⟩

private theorem sound_of_read {t : Tree} (ht : t.AllNumbers Number.Fits) {depth : Nat} {s : Settings}
    (h : codec.read depth t = .ok s) : s.Sound := by
  obtain ⟨start, ms, ending, inner, others, rfl, -, hextra, hothers⟩ := exists_others_of_read h
  refine sound_of_others hextra fun m hm => ?_
  obtain ⟨hname, n, hn, hv⟩ := hothers m hm
  obtain ⟨hcanonical, hfits⟩ := Tree.of_readValue (Tree.allNumbersAmong_iff.mp ht n hn) hv
  exact ⟨hname, hcanonical, hfits⟩

private theorem mapError_eq_ok_iff {ε ε' α : Type} {f : ε → ε'} {r : Except ε α} {a : α} :
    r.mapError f = .ok a ↔ r = .ok a := by
  cases r <;> simp [Except.mapError]

theorem mapError_eq_error_iff {ε ε' α : Type} {f : ε → ε'} {r : Except ε α} {e' : ε'} :
    r.mapError f = .error e' ↔ ∃ e, r = .error e ∧ f e = e' := by
  cases r <;> simp [Except.mapError]

theorem ofJsonText_eq_ok_iff {text : String} {s : Settings} :
    ofJsonText text = .ok s ↔ Json.read codec.read text = .ok s := mapError_eq_ok_iff

theorem sound_of_ofJsonText {text : String} {s : Settings} (h : ofJsonText text = .ok s) :
    s.Sound :=
  sound_of_read (parse_fits text) (reader_of_read (ofJsonText_eq_ok_iff.mp h))

section
open Yaml Decode
variable (env : Env)

theorem names_knownNodes (root : Mark) :
    (knownNodes env root).map Prod.fst = known.names := rfl

/-- What is read of a map keeps contents that fit under unknown names. -/
def Draft.Sound (d : Draft) : Prop := ∀ m ∈ d.others, m.1 ∉ known.names ∧ m.2.Fits

private theorem gives_readMember (root : Mark) (depth : Nat) {d : Draft} (hd : d.Sound) (k v : Node) :
    (readMember env root depth d k v).Gives Draft.Sound := by
  unfold readMember
  refine (gives_any _).bind fun key _ => (gives_any _).bind fun name _ => ?_
  dsimp only
  split
  case h_1 decode hdecode =>
    split
    · exact gives_throw_bind _ _
    · exact (gives_any _).bind fun s _ => gives_pure hd
  case h_2 hunknown =>
    refine (gives_readContent env depth _ v).bind fun c hc => gives_pure ?_
    have hname : name ∉ known.names := by
      rw [← names_knownNodes env root]
      intro hmem
      obtain ⟨entry, hentry, rfl⟩ := List.mem_map.mp hmem
      have hne := List.lookup_eq_none_iff.mp hunknown entry hentry
      simp at hne
    exact List.forall_mem_cons.mpr ⟨⟨hname, hc⟩, hd⟩

private theorem gives_readMembers (root : Mark) (depth : Nat) {ms : List (Node × Node)} {d : Draft}
    (hd : d.Sound) : (readMembers env root depth d ms).Gives Draft.Sound := by
  induction ms generalizing d with
  | nil => exact gives_pure hd
  | cons m ms ih => exact (gives_readMember env root depth hd m.1 m.2).bind fun d' hd' => ih hd'

private theorem isExtra_of_values {ms : List (String × Content)}
    (hms : ∀ m ∈ ms, m.1 ∉ known.names ∧ m.2.Fits) {others : List (String × Value)}
    (h : values ms = .ok others) : ∀ m ∈ others, IsExtra m := by
  induction ms generalizing others with
  | nil =>
    cases h
    exact List.forall_mem_nil _
  | cons m ms ih =>
    obtain ⟨k, c⟩ := m
    obtain ⟨⟨hk, hc⟩, hrest⟩ := List.forall_mem_cons.mp hms
    obtain ⟨v, hv, h⟩ := exists_of_bind h
    obtain ⟨vs, hvs, h⟩ := exists_of_bind h
    cases h
    obtain ⟨hcanonical, hfits⟩ := Content.of_toValue c hc hv
    exact List.forall_mem_cons.mpr ⟨⟨hk, hcanonical, hfits⟩, ih hrest hvs⟩

private theorem gives_wrongNode {α : Type} {Q : α → Prop} (path : Path) (expected : String) (node : Node) :
    (wrongNode path expected node).Gives Q := by
  unfold wrongNode
  split
  · exact gives_throw _
  · exact gives_throw _
  all_goals exact gives_complain _ _ _

private theorem gives_readRoot (node : Node) : (readRoot env node).Gives Settings.Sound := by
  unfold readRoot
  refine (gives_any _).bind fun root _ => ?_
  split
  · split
    · exact gives_pure sound_default
    · exact gives_wrongNode _ _ _
  case h_2 m _ _ members =>
    have hnone : Draft.Sound {} := List.forall_mem_nil _
    refine (gives_readMembers env m _ hnone).bind fun d hd => ?_
    split
    case h_1 others hothers =>
      have hall := isExtra_of_values (fun m hm => hd m (List.mem_reverse.mp hm)) hothers
      exact gives_pure (sound_of_others rfl hall)
    case h_2 => exact gives_complain _ _ _
  case h_3 => exact gives_wrongNode _ _ _

end

theorem sound_of_ofYamlText {text : String} {s : Settings} (h : ofYamlText text = .ok s) :
    s.Sound := by
  have h := mapError_eq_ok_iff.mp h
  unfold ofYaml at h
  split at h
  · cases h
    exact sound_default
  · obtain ⟨⟨settings, count⟩, hroot, h⟩ := exists_of_bind h
    dsimp only at h
    split at h
    · cases h
      exact gives_readRoot _ _ 0 s count hroot
    · cases h

end CodeActions.Settings
