import CodeActions.Proofs.Json.Printing
import CodeActions.Proofs.Yaml.Tokens
/-!
# The signs of a JSON text

What a scanner makes of the compact text of a value without doubles (`At.leads`): the signs of the
value, or tokens without an end if a document marker stands where it breaks a string off. Only keys
on one line and within 1024 characters get a sign of their own.
-/
namespace CodeActions
open Json Text

namespace Yaml

/-- Whether a key lies on one line and within 1024 characters as it is written. -/
def isSimpleKey (k : String) : Bool :=
  !k.toList.any isSeparator && (jsonQuote k).length ≤ 1024

def keySigns? (k : String) : Option (List Sign) :=
  (refold {} false k.toList).map fun text =>
    (if isSimpleKey k then [.key] else []) ++ [.scalar .quoted (String.ofList text), .value]

def concat? (a b : Option (List Sign)) : Option (List Sign) := a.bind fun x => b.map (x ++ ·)

end Yaml

namespace Json.Value
open Yaml

def IsBare : Value → Prop
  | .null | .bool _ | .number _ => True
  | .text _ | .list _ | .object _ => False

mutual
/-- The signs of a value; nothing if a string in it is broken off. -/
def signs? : Value → Option (List Sign)
  | .text s => (refold {} false s.toList).map fun text => [.scalar .quoted (String.ofList text)]
  | .list [] => some [.flowListStart, .flowListEnd]
  | .list (v :: vs) => concat? (some [.flowListStart]) (concat? v.signs? (signsOfItems? vs))
  | .object [] => some [.flowMapStart, .flowMapEnd]
  | .object ((k, v) :: ms) =>
      concat? (some [.flowMapStart]) (concat? (keySigns? k) (concat? v.signs? (signsOfMembers? ms)))
  | v => some [.scalar .plain v.toText]

def signsOfItems? : List Value → Option (List Sign)
  | [] => some [.flowListEnd]
  | v :: vs => concat? (some [.comma]) (concat? v.signs? (signsOfItems? vs))

def signsOfMembers? : List (String × Value) → Option (List Sign)
  | [] => some [.flowMapEnd]
  | (k, v) :: ms =>
      concat? (some [.comma]) (concat? (keySigns? k) (concat? v.signs? (signsOfMembers? ms)))
end

end Json.Value

namespace Yaml

private theorem jsonQuote_unified (k : String) (rest : List Char) :
    (jsonQuote k).map unified ++ rest = '"' :: written k.toList rest := by
  have hquote : unified '"' = '"' := rfl
  simp [jsonQuote, written, hquote]

/-! Where a key ends. -/

private theorem line_le_endMark (m : Mark) (cs : List Char) : m.line ≤ (endMark m cs).line := by
  induction cs generalizing m with
  | nil => exact Nat.le_refl _
  | cons c cs ih =>
    refine Nat.le_trans ?_ (ih (m.after c))
    unfold Mark.after
    split <;> simp

private theorem line_lt_endMark {c : Char} {cs : List Char} (hc : c ∈ cs) (hbreak : isBreak c = true)
    (m : Mark) : m.line < (endMark m cs).line := by
  obtain ⟨pre, post, rfl⟩ := List.append_of_mem hc
  have hpre := line_le_endMark m pre
  have hpost := line_le_endMark ((endMark m pre).after c) post
  have hafter : ((endMark m pre).after c).line = (endMark m pre).line + 1 := by
    rw [Mark.after, if_pos hbreak]
  rw [endMark_append, endMark_cons]
  omega

private theorem isBreak_of_mem_written {cs : List Char} (hcs : ∀ c ∈ cs, isSeparator c = false) :
    ∀ c ∈ written cs [], isBreak c = false := by
  intro x hx
  rcases List.mem_append.mp hx with hx | hx
  · obtain ⟨y, hy, rfl⟩ := List.mem_map.mp hx
    obtain ⟨c, hc, hy⟩ := List.mem_flatMap.mp hy
    rcases jsonEscape_cases c with ⟨hplain, hlow, -, -⟩ | ⟨e, hescape, he, -⟩
    · obtain rfl := List.mem_singleton.mp (hplain ▸ hy)
      rw [isBreak_unified hlow, hcs y hc]
    · rcases List.mem_cons.mp (hescape ▸ hy) with rfl | hy
      · rfl
      · rw [unified_of_visible (he.visible y hy).2, isBreak_of_visible (he.visible y hy)]
  · obtain rfl := List.mem_singleton.mp hx
    rfl

private theorem exists_break_of_mem {c : Char} {cs : List Char} (hc : c ∈ cs) (h : isSeparator c = true) :
    ∃ x ∈ written cs [], isBreak x = true := by
  have hlow : 0x20 ≤ c.toNat ∧ jsonEscape c = [c] := by
    simp only [isSeparator, Bool.or_eq_true, decide_eq_true_eq] at h
    rcases h with (rfl | rfl) | rfl <;> decide
  have hmem : unified c ∈ (cs.flatMap jsonEscape).map unified :=
    List.mem_map_of_mem (List.mem_flatMap.mpr ⟨c, hc, hlow.2 ▸ List.mem_singleton_self c⟩)
  exact ⟨unified c, List.mem_append_left _ hmem, (isBreak_unified hlow.1).trans h⟩

/-- A key is no longer one where its colon stands exactly if it is not simple. -/
private theorem isStale_written (n : Nat) (m : Mark) (k : String) :
    Scanner.Candidate.isStale ⟨n, false, m⟩ (endMark m ('"' :: written k.toList [])) =
      !isSimpleKey k := by
  by_cases hline : ∃ c ∈ k.toList, isSeparator c = true
  · obtain ⟨c, hc, hseparator⟩ := hline
    obtain ⟨x, hx, hbreak⟩ := exists_break_of_mem hc hseparator
    have hlt := line_lt_endMark (List.mem_cons_of_mem '"' hx) hbreak m
    have hany : k.toList.any isSeparator = true := List.any_eq_true.mpr ⟨c, hc, hseparator⟩
    simp [Scanner.Candidate.isStale, isSimpleKey, hlt, hany]
  · have hsolid : ∀ c ∈ k.toList, isSeparator c = false := fun c hc =>
      Bool.eq_false_iff.mpr fun h => hline ⟨c, hc, h⟩
    have hwritten : ∀ c ∈ '"' :: written k.toList [], isBreak c = false :=
      List.forall_mem_cons.mpr ⟨rfl, isBreak_of_mem_written hsolid⟩
    have hmark := endMark_of_solid hwritten m
    have hlength : ('"' :: written k.toList []).length = (jsonQuote k).length := by
      rw [← jsonQuote_unified, List.append_nil, List.length_map]
    have hany : k.toList.any isSeparator = false := List.any_eq_false.mpr (by simpa using hsolid)
    rw [hmark, hlength, isSimpleKey, hany, Scanner.Candidate.isStale, Bool.eq_iff_iff]
    simp

namespace Scanner

/-- Whether a scanner goes on to more signs and is in front of `cs` then, or breaks off if there are
none. -/
def Leads (s : Scanner) (signs : List Sign) (more : Option (List Sign)) (depth : Nat)
    (cs : List Char) : Prop :=
  match more with
  | some new => ∃ t m, s.Reaches t ∧ t.At depth false (signs ++ new) m cs
  | none => s.Breaks

variable {s : Scanner} {depth depth' : Nat} {allowed : Bool} {signs : List Sign} {m : Mark}
  {cs cs' rest : List Char}

private theorem Leads.of_some {new : List Sign}
    (h : ∃ t, s.Reaches t ∧ t.At depth false (signs ++ new) m cs) :
    s.Leads signs (some new) depth cs := by
  obtain ⟨t, hreaches, hat⟩ := h
  exact ⟨t, m, hreaches, hat⟩

private theorem Leads.of_reaches {new : List Sign} {b : Option (List Sign)}
    (h : ∃ t, s.Reaches t ∧ t.At depth allowed (signs ++ new) m cs)
    (hnext : ∀ t : Scanner, t.At depth allowed (signs ++ new) m cs →
      t.Leads (signs ++ new) b depth' cs') :
    s.Leads signs (concat? (some new) b) depth' cs' := by
  obtain ⟨t, hreaches, hat⟩ := h
  have hleads := hnext t hat
  cases b with
  | none => exact hreaches.breaks hleads
  | some more =>
    obtain ⟨u, m', hreaches', hat'⟩ := hleads
    exact ⟨u, m', hreaches.trans hreaches', List.append_assoc .. ▸ hat'⟩

private theorem Leads.concat {a b : Option (List Sign)} (h : s.Leads signs a depth cs)
    (hnext : ∀ (t : Scanner) (new : List Sign) (m : Mark), t.At depth false (signs ++ new) m cs →
      t.Leads (signs ++ new) b depth' cs') :
    s.Leads signs (concat? a b) depth' cs' := by
  cases a with
  | none => exact h
  | some new =>
    obtain ⟨t, m, hreaches, hat⟩ := h
    exact .of_reaches ⟨t, hreaches, hat⟩ fun t hat => hnext t new m hat

private theorem At.leads_text {text : String}
    (h : s.At depth allowed signs m ('"' :: written text.toList cs)) :
    s.Leads signs (Value.signs? (.text text)) depth cs := by
  have hquoted := h.quoted
  rw [Value.signs?]
  cases hfold : refold {} false text.toList with
  | none =>
    rw [hfold] at hquoted
    exact hquoted
  | some out =>
    rw [hfold] at hquoted
    obtain ⟨t, hreaches, hat, -⟩ := hquoted
    exact ⟨t, _, hreaches, hat⟩

private theorem At.leads_key {k : String}
    (h : s.At (depth + 1) true signs m ('"' :: written k.toList (':' :: cs))) :
    s.Leads signs (keySigns? k) (depth + 1) cs := by
  have hquoted := h.quoted
  rw [keySigns?]
  cases hfold : refold {} false k.toList with
  | none =>
    rw [hfold] at hquoted
    exact hquoted
  | some out =>
    rw [hfold] at hquoted
    obtain ⟨t, hreaches, hat, hhead⟩ := hquoted
    obtain ⟨u, hreaches', hat'⟩ := hat.colon (hhead rfl)
    refine ⟨u, (endMark m ('"' :: written k.toList [])).after ':', hreaches.trans hreaches', ?_⟩
    rw [unlessStale, Option.any_some, isStale_written] at hat'
    cases hsimple : isSimpleKey k <;> simpa [hsimple] using hat'

theorem isWord_render {v : Value} (hv : v.AllNumbers Number.IsInt) (hbare : v.IsBare) :
    IsWord v.render := by
  match v, hv with
  | .null, _ | .bool true, _ | .bool false, _ =>
    exact ⟨List.all_eq_true.mp rfl, _, _, rfl, .inl rfl⟩
  | .number (.int i), _ => exact isWord_intText i

private theorem At.leads_bare {v : Value} {d : Char} (hv : v.AllNumbers Number.IsInt) (hbare : v.IsBare)
    (hd : closesValue d = true)
    (h : s.At (depth + 1) allowed signs m (v.render.map unified ++ d :: rest)) :
    s.Leads signs v.signs? (depth + 1) (d :: rest) := by
  have hword := isWord_render hv hbare
  have hsame : v.render.map unified = v.render := by
    rw [List.map_congr_left (g := id), List.map_id]
    exact fun c hc => if_neg (ne_of_isWordChar (hword.isWordChar c hc) (by decide))
  have hsigns : v.signs? = some [.scalar .plain v.toText] := by
    match v, hbare with
    | .null, _ | .bool _, _ | .number _, _ => rfl
  rw [hsame] at h
  obtain ⟨t, hreaches, hat⟩ := h.word hd hword
  rw [hsigns]
  exact ⟨t, _, hreaches, hat⟩

private theorem exists_closes_items (vs : List Value) (rest : List Char) :
    ∃ d r, (Value.renderItems vs).map unified ++ rest = d :: r ∧ closesValue d = true := by
  cases vs with
  | nil => exact ⟨']', _, rfl, rfl⟩
  | cons v vs => exact ⟨',', _, rfl, rfl⟩

private theorem exists_closes_members (ms : List (String × Value)) (rest : List Char) :
    ∃ d r, (Value.renderMembers ms).map unified ++ rest = d :: r ∧ closesValue d = true := by
  cases ms with
  | nil => exact ⟨'\x7d', _, rfl, rfl⟩
  | cons m ms => exact ⟨',', _, rfl, rfl⟩

mutual
/-- A scanner goes from the start of a value to its end; a bare word has to be inside a collection,
in front of an indicator. -/
theorem At.leads : (v : Value) → v.AllNumbers Number.IsInt → {s : Scanner} → {depth : Nat} →
    {allowed : Bool} → {signs : List Sign} → {m : Mark} → {rest : List Char} →
    (v.IsBare → ∃ k d r, depth = k + 1 ∧ rest = d :: r ∧ closesValue d = true) →
    s.At depth allowed signs m (v.render.map unified ++ rest) → s.Leads signs v.signs? depth rest
  | .null, hv, _, _, _, _, _, _, hplace, h | .bool _, hv, _, _, _, _, _, _, hplace, h
  | .number _, hv, _, _, _, _, _, _, hplace, h => by
    obtain ⟨k, d, r, rfl, rfl, hd⟩ := hplace trivial
    exact h.leads_bare hv trivial hd
  | .text text, _, _, _, _, _, _, _, _, h => by
    rw [Value.render, jsonQuote_unified] at h
    exact h.leads_text
  | .list [], _, _, _, _, _, _, rest, _, h => by
    change At _ _ _ _ _ ('[' :: ']' :: rest) at h
    change Leads _ _ (concat? (some [.flowListStart]) (some [.flowListEnd])) _ _
    exact .of_reaches (h.opened (by simp)) fun t ht => .of_some (ht.closed (by simp))
  | .list (v :: vs), hv, _, depth, _, _, _, rest, _, h => by
    rw [Value.render, List.map_cons, List.map_append, List.cons_append, List.append_assoc] at h
    obtain ⟨d, r, hrest, hd⟩ := exists_closes_items vs rest
    exact .of_reaches (At.opened (by decide) h) fun t ht =>
      .concat (At.leads v hv.1 (fun _ => ⟨depth, d, r, rfl, hrest, hd⟩) ht) fun u new m hu =>
        At.leads_items vs hv.2 hu
  | .object [], _, _, _, _, _, _, rest, _, h => by
    change At _ _ _ _ _ ('\x7b' :: '\x7d' :: rest) at h
    change Leads _ _ (concat? (some [.flowMapStart]) (some [.flowMapEnd])) _ _
    exact .of_reaches (h.opened (by simp)) fun t ht => .of_some (ht.closed (by simp))
  | .object ((k, v) :: ms), hv, _, depth, _, _, _, rest, _, h => by
    rw [Value.render, List.map_cons, List.map_append, List.map_cons, List.map_append,
      List.cons_append, List.append_assoc, jsonQuote_unified, List.cons_append,
      List.append_assoc] at h
    obtain ⟨d, r, hrest, hd⟩ := exists_closes_members ms rest
    refine .of_reaches (At.opened (by decide) h) fun t ht => ?_
    exact .concat ht.leads_key fun u new m hu =>
      .concat (At.leads v hv.1 (fun _ => ⟨depth, d, r, rfl, hrest, hd⟩) hu) fun w more m hw =>
        At.leads_members ms hv.2 hw

private theorem At.leads_items : (vs : List Value) → Value.AllNumbersIn Number.IsInt vs → {s : Scanner} →
    {depth : Nat} → {signs : List Sign} → {m : Mark} → {rest : List Char} →
    s.At (depth + 1) false signs m ((Value.renderItems vs).map unified ++ rest) →
    s.Leads signs (Value.signsOfItems? vs) depth rest
  | [], _, _, _, _, _, rest, h => by
    change At _ _ _ _ _ (']' :: rest) at h
    exact .of_some (h.closed (by simp))
  | v :: vs, hv, _, depth, _, _, rest, h => by
    rw [Value.renderItems, List.map_cons, List.map_append, List.cons_append,
      List.append_assoc] at h
    obtain ⟨d, r, hrest, hd⟩ := exists_closes_items vs rest
    exact .of_reaches (At.separated h) fun t ht =>
      .concat (At.leads v hv.1 (fun _ => ⟨depth, d, r, rfl, hrest, hd⟩) ht) fun u new m hu =>
        At.leads_items vs hv.2 hu

private theorem At.leads_members : (ms : List (String × Value)) → Value.AllNumbersAmong Number.IsInt ms →
    {s : Scanner} → {depth : Nat} → {signs : List Sign} → {m : Mark} → {rest : List Char} →
    s.At (depth + 1) false signs m ((Value.renderMembers ms).map unified ++ rest) →
    s.Leads signs (Value.signsOfMembers? ms) depth rest
  | [], _, _, _, _, _, rest, h => by
    change At _ _ _ _ _ ('\x7d' :: rest) at h
    exact .of_some (h.closed (by simp))
  | (k, v) :: ms, hv, _, depth, _, _, rest, h => by
    rw [Value.renderMembers, List.map_cons, List.map_append, List.map_cons, List.map_append,
      List.cons_append, List.append_assoc, jsonQuote_unified, List.cons_append,
      List.append_assoc] at h
    obtain ⟨d, r, hrest, hd⟩ := exists_closes_members ms rest
    refine .of_reaches (At.separated h) fun t ht => ?_
    exact .concat ht.leads_key fun u new m hu =>
      .concat (At.leads v hv.1 (fun _ => ⟨depth, d, r, rfl, hrest, hd⟩) hu) fun w more m hw =>
        At.leads_members ms hv.2 hw
end

end Scanner
end Yaml
end CodeActions
