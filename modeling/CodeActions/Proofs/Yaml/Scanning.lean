import CodeActions.Proofs.Yaml.Plain
import CodeActions.Yaml.Scanner
/-!
# Scanning flow collections

One token of a flow collection after another. `At` says where a scanner is; between two tokens it
drops candidates that are no keys any more and hands out tokens, neither of which changes what it
comes to (`At.advance`).
-/
namespace CodeActions.Yaml.Scanner

def tokens (s : Scanner) : List Token := s.handed.reverse ++ s.queue

/-- Whether a scanner stands in front of the characters `cs` at the place `m` inside `depth` flow
collections, after tokens with these signs. -/
structure At (s : Scanner) (depth : Nat) (allowed : Bool) (signs : List Sign) (m : Mark)
    (cs : List Char) : Prop where
  rest : s.rest = placed m cs
  finish : s.finish = endMark m cs
  indents : s.indents = []
  depth : s.candidates.length = depth + 1
  keyAllowed : s.keyAllowed = allowed
  signed : s.tokens.map (·.sign) = signs
  unended : Sign.streamEnd ∉ signs
  optional : ∀ c, some c ∈ s.candidates → c.isRequired = false ∧ s.handed.length ≤ c.number

def unlessStale (m : Mark) (c : Option Candidate) : Option Candidate :=
  if c.any (Candidate.isStale · m) then none else c

private theorem unlessStale_eq_some {m : Mark} {c : Option Candidate} {d : Candidate}
    (h : unlessStale m c = some d) : c = some d := by
  unfold unlessStale at h
  split at h
  · cases h
  · exact h

private theorem unlessStale_unlessStale (m : Mark) (c : Option Candidate) :
    unlessStale m (unlessStale m c) = unlessStale m c := by
  cases hc : unlessStale m c with
  | none => rfl
  | some d =>
    obtain rfl := unlessStale_eq_some hc
    exact hc

def fresh (s : Scanner) : Scanner := { s with candidates := s.candidates.map (unlessStale s.here) }

def ready (s : Scanner) : Scanner := (if s.queue.isEmpty then s else s.fresh).release.fresh

theorem dropStale_of_optional {s : Scanner}
    (h : ∀ c, some c ∈ s.candidates → c.isRequired = false) : s.dropStale = some s.fresh := by
  have hany : (s.candidates.any fun c => c.any (Candidate.isStale · s.here) &&
      c.any (·.isRequired)) = false := by
    rw [List.any_eq_false]
    rintro (_ | c) hc
    · simp
    · simp [h c hc]
  rw [dropStale]
  simp only [hany]
  rfl

private theorem foldl_min_le_of_mem {ns : List Nat} {k : Nat} (h : k ∈ ns) (n : Nat) :
    ns.foldl min n ≤ k := by
  have hmin : (n :: ns).min? = some (ns.foldl min n) := List.min?_cons'
  exact (List.le_min?_iff hmin).mp (Nat.le_refl _) k (List.mem_cons_of_mem _ h)

namespace At
variable {s : Scanner} {depth : Nat} {allowed : Bool} {signs : List Sign} {m : Mark}
  {cs : List Char}

theorem here (h : s.At depth allowed signs m cs) : s.here = m := by
  rw [Scanner.here, h.rest]
  cases cs with
  | nil => exact h.finish
  | cons c cs => rfl

theorem inFlow (h : s.At (depth + 1) allowed signs m cs) : s.inFlow = true := by
  rw [Scanner.inFlow, h.depth]
  simp

theorem fresh (h : s.At depth allowed signs m cs) : s.fresh.At depth allowed signs m cs where
  rest := h.rest
  finish := h.finish
  indents := h.indents
  depth := by simpa [Scanner.fresh] using h.depth
  keyAllowed := h.keyAllowed
  signed := h.signed
  unended := h.unended
  optional c hc := by
    obtain ⟨d, hd, hcd⟩ := List.mem_map.mp hc
    exact h.optional c (unlessStale_eq_some hcd ▸ hd)

theorem dropStale (h : s.At depth allowed signs m cs) : s.dropStale = some s.fresh :=
  dropStale_of_optional fun c hc => (h.optional c hc).1

/-- No token is handed out that may still get a key in front of it. -/
theorem release (h : s.At depth allowed signs m cs) : s.release.At depth allowed signs m cs where
  rest := h.rest
  finish := h.finish
  indents := h.indents
  depth := h.depth
  keyAllowed := h.keyAllowed
  signed := by
    rw [← h.signed, tokens, tokens, Scanner.release]
    simp
  unended := h.unended
  optional c hc := by
    obtain ⟨hrequired, hnumber⟩ := h.optional c hc
    refine ⟨hrequired, ?_⟩
    have hmem : c.number ∈ s.candidates.filterMap (·.map (·.number)) :=
      List.mem_filterMap.mpr ⟨some c, hc, rfl⟩
    have hle := foldl_min_le_of_mem hmem s.count
    rw [Scanner.release]
    simp only [List.length_append, List.length_reverse, List.length_take]
    omega

theorem closeBlocks (h : s.At depth allowed signs m cs) (p : Nat → Bool) : s.closeBlocks p = s := by
  obtain ⟨rest, finish, indents, candidates, keyAllowed, handed, queue⟩ := s
  obtain rfl : indents = [] := h.indents
  simp [Scanner.closeBlocks]

theorem ready (h : s.At depth allowed signs m cs) : s.ready.At depth allowed signs m cs := by
  rw [Scanner.ready]
  split
  · exact h.release.fresh
  · exact h.fresh.release.fresh

theorem candidates_ready (h : s.At depth allowed signs m cs) :
    s.ready.candidates = s.candidates.map (unlessStale m) := by
  rw [Scanner.ready]
  split
  · change s.candidates.map (unlessStale s.release.here) = _
    rw [h.release.here]
  · change (s.candidates.map (unlessStale s.here)).map (unlessStale s.fresh.release.here) = _
    rw [h.here, h.fresh.release.here, List.map_map]
    exact List.map_congr_left fun c _ => unlessStale_unlessStale m c

/-- A scanner that has nothing to skip scans a token once it is ready. -/
theorem advance_eq (h : s.At depth allowed signs m cs)
    (hgap : ∀ s : Scanner, s.At depth allowed signs m cs → s.toNextToken = s) :
    s.advance = match s.ready.token with
      | none => .broken s.ready.handed.reverse
      | some next =>
          if !s.ready.rest.isEmpty then .more next
          else if next.dropStale.isNone then .broken s.ready.handed.reverse
          else .complete (next.handed.reverse ++ next.queue) := by
  obtain ⟨first, hfirst, hat, hready⟩ : ∃ first,
      (if s.queue.isEmpty then some s else s.dropStale) = some first ∧
        first.At depth allowed signs m cs ∧ s.ready = first.release.fresh := by
    rw [Scanner.ready]
    split
    · exact ⟨s, rfl, h, rfl⟩
    · exact ⟨s.fresh, h.dropStale, h.fresh, rfl⟩
  have hnext := hgap _ hat.release
  rw [Scanner.advance, hfirst]
  dsimp only
  rw [hnext, hat.release.dropStale]
  dsimp only
  rw [hat.release.fresh.closeBlocks, hready]
  rfl

private theorem toNextToken_of_cons {c : Char} (h : s.At depth allowed signs m (c :: cs))
    (hc : isBlank c = false ∧ isBreak c = false ∧ c ≠ '#' ∧ c ≠ '\ufeff') : s.toNextToken = s := by
  obtain ⟨hblank, hbreak, hcomment, hmark⟩ := hc
  simp only [isBlank, Bool.or_eq_false_iff, decide_eq_false_iff_not] at hblank
  have hgap : gapBefore s.inFlow s.keyAllowed false s.rest = (s.rest, s.keyAllowed) := by
    rw [h.rest, placed, gapBefore]
    simp [hbreak, hblank, hcomment, hmark]
  rw [Scanner.toNextToken, hgap]

theorem toNextToken_of_nil (h : s.At depth allowed signs m []) : s.toNextToken = s := by
  have hgap : gapBefore s.inFlow s.keyAllowed false s.rest = (s.rest, s.keyAllowed) := by
    rw [h.rest]
    rfl
  rw [Scanner.toNextToken, hgap]

theorem advance {c : Char} (h : s.At depth allowed signs m (c :: cs))
    (hc : isBlank c = false ∧ isBreak c = false ∧ c ≠ '#' ∧ c ≠ '\ufeff') :
    s.advance = match s.ready.token with
      | none => .broken s.ready.handed.reverse
      | some next => .more next := by
  have hrest : s.ready.rest.isEmpty = false := by
    rw [h.ready.rest]
    rfl
  rw [h.advance_eq fun s h => h.toNextToken_of_cons hc, hrest]
  rfl

private theorem count_eq (h : s.At depth allowed signs m cs) : s.count = signs.length := by
  rw [← h.signed, count, tokens, List.length_map, List.length_append, List.length_reverse]

theorem emit (h : s.At depth allowed signs m cs) {sign : Sign} (hsign : sign ≠ .streamEnd)
    {candidates : List (Option Candidate)} {depth' : Nat} (hdepth : candidates.length = depth' + 1)
    (hoptional : ∀ c, some c ∈ candidates → c.isRequired = false ∧ s.handed.length ≤ c.number)
    {rest : List Spot} {m' : Mark} {cs' : List Char} (hrest : rest = placed m' cs')
    (hfinish : endMark m' cs' = endMark m cs) (allowed' : Bool) (mark : Mark) :
    At { s with
      rest := rest
      candidates := candidates
      keyAllowed := allowed'
      queue := s.queue ++ [⟨sign, mark⟩] } depth' allowed' (signs ++ [sign]) m' cs' where
  rest := hrest
  finish := h.finish.trans hfinish.symm
  indents := h.indents
  depth := hdepth
  keyAllowed := rfl
  signed := by
    rw [← h.signed, tokens, tokens]
    simp
  unended := by simp [h.unended, hsign.symm]
  optional := hoptional

theorem removeCandidate (h : s.At depth allowed signs m cs) :
    ∃ t, s.removeCandidate = some t ∧ t.At depth allowed signs m cs := by
  rw [Scanner.removeCandidate]
  split
  case h_1 c cs hcandidates =>
    have hc := (h.optional c (hcandidates ▸ List.mem_cons_self)).1
    refine ⟨_, if_neg (Bool.eq_false_iff.mp hc), h.rest, h.finish, h.indents, ?_, h.keyAllowed,
      h.signed, h.unended, ?_⟩
    · simpa [hcandidates] using h.depth
    · intro d hd
      simp only [List.mem_cons, reduceCtorEq, false_or] at hd
      exact h.optional d (hcandidates ▸ List.mem_cons_of_mem _ hd)
  case h_2 => exact ⟨s, rfl, h⟩

/-- Inside flow collections no key is required. -/
theorem saveCandidate (h : s.At depth allowed signs m cs) :
    ∃ t, s.saveCandidate = some t ∧ t.At depth allowed signs m cs ∧
      (allowed = true → t.candidates.head? = some (some ⟨signs.length, false, m⟩)) := by
  rw [Scanner.saveCandidate, h.keyAllowed]
  cases allowed with
  | false => exact ⟨s, rfl, h, fun h => (by cases h)⟩
  | true =>
    obtain ⟨t, ht, hat⟩ := h.removeCandidate
    have hrequired : (!s.inFlow && s.indents.head? == some s.here.column) = false := by
      rw [h.indents]
      simp
    refine ⟨{ t with candidates := some ⟨t.count, false, t.here⟩ :: t.candidates.drop 1 },
      ?_, ?_, ?_⟩
    · rw [if_pos rfl, ht]
      simp only [hrequired]
      rfl
    · refine ⟨hat.rest, hat.finish, hat.indents, ?_, hat.keyAllowed, hat.signed, hat.unended, ?_⟩
      · simp [hat.depth]
      · intro d hd
        rcases List.mem_cons.mp hd with heq | hd
        · cases heq
          exact ⟨rfl, by simp [count]⟩
        · exact hat.optional d (List.mem_of_mem_drop hd)
    · intro _
      rw [hat.count_eq, hat.here]
      rfl

end At

/-- Whether a scanner comes to another one, step by step but not with more steps than there are
characters in between. -/
def Reaches (s t : Scanner) : Prop :=
  ∃ steps, steps + t.rest.length ≤ s.rest.length ∧ ∀ fuel, run (fuel + steps) s = run fuel t

/-- Whether a scanner comes to tokens that do not end, with enough steps for all characters. -/
def Breaks (s : Scanner) : Prop :=
  ∀ fuel, s.rest.length ≤ fuel → ∀ t ∈ run fuel s, t.sign ≠ .streamEnd

theorem length_placed (m : Mark) (cs : List Char) : (placed m cs).length = cs.length := by
  induction cs generalizing m with
  | nil => rfl
  | cons c cs ih => exact congrArg (· + 1) (ih _)

theorem Reaches.trans {s t u : Scanner} (h : s.Reaches t) (h' : t.Reaches u) : s.Reaches u := by
  obtain ⟨k, hk, hrun⟩ := h
  obtain ⟨l, hl, hrun'⟩ := h'
  refine ⟨l + k, by omega, fun fuel => ?_⟩
  rw [← Nat.add_assoc, hrun, hrun']

theorem Reaches.breaks {s t : Scanner} (h : s.Reaches t) (ht : t.Breaks) : s.Breaks := by
  obtain ⟨k, hk, hrun⟩ := h
  intro fuel hfuel
  obtain ⟨rest, rfl⟩ := Nat.exists_eq_add_of_le' (show k ≤ fuel by omega)
  rw [hrun]
  exact ht rest (by omega)

namespace At
variable {s : Scanner} {depth : Nat} {allowed : Bool} {signs : List Sign} {m : Mark}
  {cs : List Char} {c : Char}

theorem reaches (h : s.At depth allowed signs m (c :: cs))
    (hc : isBlank c = false ∧ isBreak c = false ∧ c ≠ '#' ∧ c ≠ '\ufeff') {next : Scanner}
    (htoken : s.ready.token = some next) (hnext : next.rest.length ≤ cs.length) :
    s.Reaches next := by
  refine ⟨1, ?_, fun fuel => ?_⟩
  · rw [h.rest, length_placed, List.length_cons]
    omega
  · rw [run, h.advance hc, htoken]

theorem step {depth' : Nat} {allowed' : Bool} {signs' : List Sign} {m' : Mark} {cs' : List Char}
    (h : s.At depth allowed signs m (c :: cs))
    (hc : isBlank c = false ∧ isBreak c = false ∧ c ≠ '#' ∧ c ≠ '\ufeff')
    (htoken : ∃ t, s.ready.token = some t ∧ t.At depth' allowed' signs' m' cs')
    (hlength : cs'.length ≤ cs.length) :
    ∃ t, s.Reaches t ∧ t.At depth' allowed' signs' m' cs' := by
  obtain ⟨t, ht, hat⟩ := htoken
  exact ⟨t, h.reaches hc ht (by rwa [hat.rest, length_placed]), hat⟩

theorem breaks (h : s.At depth allowed signs m (c :: cs))
    (hc : isBlank c = false ∧ isBreak c = false ∧ c ≠ '#' ∧ c ≠ '\ufeff')
    (htoken : s.ready.token = none) : s.Breaks := by
  intro fuel hfuel t ht
  cases fuel with
  | zero =>
    rw [h.rest] at hfuel
    cases hfuel
  | succ fuel =>
    rw [run, h.advance hc, htoken] at ht
    have hmem : t.sign ∈ signs := by
      rw [← h.ready.signed]
      exact List.mem_map_of_mem (List.mem_append_left _ ht)
    exact fun heq => h.unended (heq ▸ hmem)

end At
end CodeActions.Yaml.Scanner
