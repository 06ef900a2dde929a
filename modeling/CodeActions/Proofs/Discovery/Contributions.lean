import CodeActions.Proofs.Discovery.Cancellation
/-!
# Contributions

What the providers contribute to a pass, when their answers depend on nothing but the request. The
result is then the contributions of those that are asked (`outcome_of_contributes`), so that a
signal can do no more than to leave some of them out; and one that does not take back its answer to
stop cuts the result off at a provider (`cancellation_removes_contributions`).
-/
namespace CodeActions

/-- The provider answers the request with these offers, whatever the signals are. -/
def Provider.Contributes (p : Provider) (r : Request) (offers : List Offer) : Prop :=
  ∀ s, (p.discover p.name r s).outcome.map (·.getD []) = .ok offers

private theorem Signal.answer_script_of_pairwise {answers : List Bool}
    (hanswers : answers.Pairwise fun a b => a = true → b = true) {i j : Nat} (hij : i ≤ j)
    (hi : (Signal.script answers i).answer = true) : (Signal.script answers j).answer = true := by
  have hanswer (n : Nat) :
      (Signal.script answers n).answer = answers[min n (answers.length - 1)]?.getD false := by
    change (answers[n]?.or answers.getLast?).getD false = _
    rw [List.getLast?_eq_getElem?]
    by_cases hn : n < answers.length
    · rw [Nat.min_eq_left (by omega), List.getElem?_eq_getElem hn]
      rfl
    · rw [Nat.min_eq_right (by omega), List.getElem?_eq_none (Nat.le_of_not_lt hn), Option.none_or]
  rw [hanswer] at hi ⊢
  by_cases hempty : answers.length = 0
  · simp [List.length_eq_zero_iff.mp hempty] at hi
  · by_cases hsame : min i (answers.length - 1) = min j (answers.length - 1)
    · rwa [← hsame]
    · rw [List.getElem?_eq_getElem (by omega)] at hi ⊢
      exact List.pairwise_iff_getElem.mp hanswers _ _ (by omega) (by omega) (by omega) hi

namespace Event

/-- No poll takes back the answer to stop of one before it. -/
def Persists (events : List Event) : Prop :=
  (polls events).Pairwise fun a b => a.2 = true → b.2 = true

/-- The polls before the first that answers to stop. -/
def pollsToGo (events : List Event) : Nat := (polls events).findIdx fun a => a.2

end Event

namespace Dispatch
variable (ps : Providers) (r : Request)

def asked (registry : Registry Handle) (s : Signals) : List Handle :=
  ((visits ps r registry.toList s).filter fun v => !v.isSkipped r).map Visit.provider

private theorem calls_discover_eq_asked (registry : Registry Handle) (s : Signals) :
    Event.calls (discover ps r registry s).events =
      (asked ps r registry s).map fun p => r.call p none := by
  rw [calls_discover, asked, List.map_map]
  rfl

private theorem asked_sublist (registry : Registry Handle) (s : Signals) :
    (asked ps r registry s).Sublist registry.toList :=
  have hprefix := visits_providers_isPrefix ps r registry.toList s
  (List.filter_sublist.map _).trans hprefix.sublist

section
variable {k : Handle} (hk : r.signal = some k)
include hk

private theorem persists_iff (registry : Registry Handle) (s : Signals) :
    Event.Persists (discover ps r registry s).events ↔
      (visits ps r registry.toList s).Pairwise
        fun v w => v.isSkipped r = true → w.isSkipped r = true := by
  unfold Event.Persists
  rw [polls_discover_of_signal ps r hk, List.pairwise_map]
  simp only [isSkipped_eq_answer r hk]

private theorem pollsToGo_eq (registry : Registry Handle) (s : Signals) :
    Event.pollsToGo (discover ps r registry s).events =
      (visits ps r registry.toList s).findIdx fun v => v.isSkipped r := by
  have hanswer : (fun v : Visit => v.isSkipped r) = fun v => (v.signals k).answer :=
    funext fun v => isSkipped_eq_answer r hk v
  rw [Event.pollsToGo, polls_discover_of_signal ps r hk, List.findIdx_map, hanswer]
  rfl

/-- Only a script can take its answer to stop back during a pass: nobody is asked any more who could
clear a flag. -/
private theorem persists_of_not_isScript {s : Signals} (hscript : (s k).isScript = false)
    (registry : Registry Handle) : Event.Persists (discover ps r registry s).events :=
  (persists_iff ps r hk registry s).mpr (visits_pairwise_of_not_isScript ps r hk hscript _)

private theorem persists_of_script {s : Signals} {answers : List Bool} {polls : Nat}
    (hscript : s k = .script answers polls)
    (hanswers : answers.Pairwise fun a b => a = true → b = true) (registry : Registry Handle) :
    Event.Persists (discover ps r registry s).events := by
  rw [persists_iff ps r hk, List.pairwise_iff_getElem]
  intro i j hi hj hij
  rw [isSkipped_eq_answer r hk, isSkipped_eq_answer r hk, visits_script ps r hk hscript,
    visits_script ps r hk hscript]
  exact Signal.answer_script_of_pairwise hanswers (by omega)

end

private theorem filter_eq_take {vs : List Visit}
    (hvs : vs.Pairwise fun v w => v.isSkipped r = true → w.isSkipped r = true) :
    (vs.filter fun v => !v.isSkipped r) = vs.take (vs.findIdx fun v => v.isSkipped r) := by
  have hwhile : (vs.filter fun v => !v.isSkipped r) = vs.takeWhile fun v => !v.isSkipped r := by
    induction vs with
    | nil => rfl
    | cons v vs ih =>
      obtain ⟨hv, hrest⟩ := List.pairwise_cons.mp hvs
      cases hskip : v.isSkipped r with
      | true => simpa [hskip] using fun w hw => hv w hw hskip
      | false => simp [hskip, ih hrest]
  rw [hwhile, List.takeWhile_eq_take_findIdx_not]
  simp

private theorem offers_eq_flatMap {block : Handle → List Offer} {vs : List Visit}
    (hvs : ∀ v ∈ vs, v.offers ps r = if v.isSkipped r then [] else block v.provider) :
    vs.flatMap (Visit.offers ps r) =
      ((vs.filter fun v => !v.isSkipped r).map Visit.provider).flatMap block := by
  induction vs with
  | nil => rfl
  | cons v vs ih =>
    have hv := hvs v List.mem_cons_self
    have hrest := ih fun w hw => hvs w (List.mem_cons_of_mem _ hw)
    cases hskip : v.isSkipped r <;> simp [hskip, hv, hrest]

section
variable {registry : Registry Handle} {block : Handle → List Offer}
  (hblock : ∀ p ∈ registry.toList, (ps p).Contributes r (block p))
include hblock

private theorem visit_of_contributes {s : Signals} {v : Visit}
    (hv : v ∈ visits ps r registry.toList s) :
    v.fault? ps r = none ∧
      v.offers ps r = if v.isSkipped r then [] else block v.provider := by
  have hprefix := visits_providers_isPrefix ps r registry.toList s
  have hlisted : v.provider ∈ registry.toList := hprefix.subset (List.mem_map_of_mem hv)
  have hreply : (v.reply ps r).outcome.map (·.getD []) = .ok (block v.provider) :=
    hblock _ hlisted (v.polled r)
  unfold Visit.fault? Visit.offers
  cases houtcome : (v.reply ps r).outcome with
  | error text =>
    rw [houtcome] at hreply
    cases hreply
  | ok offers =>
    rw [houtcome] at hreply
    have hoffers : offers.getD [] = block v.provider := Except.ok.inj hreply
    simp [hoffers]

private theorem visits_of_contributes (s : Signals) :
    (visits ps r registry.toList s).map Visit.provider = registry.toList :=
  visits_providers ps r fun _ hv => (visit_of_contributes ps r hblock hv).1

theorem outcome_of_contributes (s : Signals) :
    (discover ps r registry s).outcome = .ok ((asked ps r registry s).flatMap block) := by
  have hoffers := offers_eq_flatMap ps r fun v hv =>
    (visit_of_contributes ps r hblock (s := s) hv).2
  rw [discover_eq_of_calm ps r fun v hv => (visit_of_contributes ps r hblock hv).1, hoffers]
  rfl

private theorem asked_of_no_signal (hsignal : r.signal = none) (s : Signals) :
    asked ps r registry s = registry.toList := by
  have hall : ∀ v ∈ visits ps r registry.toList s, (!v.isSkipped r) = true := by
    simp [Visit.isSkipped, hsignal]
  rw [asked, List.filter_eq_self.mpr hall, visits_of_contributes ps r hblock]

theorem outcome_of_no_signal (hsignal : r.signal = none) (s : Signals) :
    (discover ps r registry s).outcome = .ok (registry.toList.flatMap block) := by
  rw [outcome_of_contributes ps r hblock, asked_of_no_signal ps r hblock hsignal]

theorem calls_of_no_signal (hsignal : r.signal = none) (s : Signals) :
    Event.calls (discover ps r registry s).events = registry.toList.map fun p => r.call p none := by
  rw [calls_discover_eq_asked, asked_of_no_signal ps r hblock hsignal]

private theorem asked_of_persists {k : Handle} (hk : r.signal = some k) {s : Signals}
    (hpersists : Event.Persists (discover ps r registry s).events) :
    asked ps r registry s =
      registry.toList.take (Event.pollsToGo (discover ps r registry s).events) := by
  have hskips := (persists_iff ps r hk registry s).mp hpersists
  rw [asked, filter_eq_take r hskips, pollsToGo_eq ps r hk, List.map_take,
    visits_of_contributes ps r hblock]

end

/-- Cancellation only removes whole contributions. Without a signal the result of a pass is what all
providers contribute, in their order. Whatever the signal, it is what some of them contribute, in
the same order. With a latch, a flag or a script without an answer to go on after one to stop, the
polls of the pass persist, and the result is what those before the first answer to stop contribute.
Of two passes whose polls persist, the one that is stopped at a later poll extends the other. -/
theorem cancellation_removes_contributions (ps : Providers) (registry : Registry Handle)
    (r : Request) (block : Handle → List Offer)
    (hblock : ∀ p ∈ registry.toList, ∀ k,
      (ps p).Contributes { r with signal := k } (block p)) :
    let pass (k : Option Handle) := discover ps { r with signal := k } registry
    let toGo (k : Handle) (s : Signals) := Event.pollsToGo (pass (some k) s).events
    (∀ s, (pass none s).outcome = .ok (registry.toList.flatMap block)) ∧
    (∀ k s, ∃ kept : List Handle, kept.Sublist registry.toList ∧
      (pass k s).outcome = .ok (kept.flatMap block)) ∧
    (∀ k s, (∀ answers polls, s k = .script answers polls →
        answers.Pairwise fun a b => a = true → b = true) →
      Event.Persists (pass (some k) s).events) ∧
    (∀ k s, Event.Persists (pass (some k) s).events →
      (pass (some k) s).outcome = .ok ((registry.toList.take (toGo k s)).flatMap block)) ∧
    ∀ k s k' s', Event.Persists (pass (some k) s).events →
      Event.Persists (pass (some k') s').events → toGo k s ≤ toGo k' s' →
        ∃ offers more, (pass (some k) s).outcome = .ok offers ∧
          (pass (some k') s').outcome = .ok (offers ++ more) := by
  intro pass toGo
  have houtcome (k : Option Handle) (s : Signals) :
      (pass k s).outcome = .ok ((asked ps { r with signal := k } registry s).flatMap block) :=
    outcome_of_contributes ps _ (fun p hp => hblock p hp k) s
  have hcut (k : Handle) (s : Signals) (hpersists : Event.Persists (pass (some k) s).events) :
      (pass (some k) s).outcome = .ok ((registry.toList.take (toGo k s)).flatMap block) := by
    rw [houtcome, asked_of_persists ps _ (fun p hp => hblock p hp (some k)) rfl hpersists]
  refine ⟨fun s => ?_, fun k s => ?_, fun k s hscript => ?_, hcut, ?_⟩
  · rw [houtcome, asked_of_no_signal ps _ (fun p hp => hblock p hp none) rfl]
  · exact ⟨_, asked_sublist ps _ registry s, houtcome k s⟩
  · cases hsignal : s k with
    | script answers polls =>
      exact persists_of_script ps _ rfl hsignal (hscript answers polls hsignal) registry
    | latch isSet => exact persists_of_not_isScript ps _ rfl (by rw [hsignal]; rfl) registry
    | flag isSet => exact persists_of_not_isScript ps _ rfl (by rw [hsignal]; rfl) registry
  · intro k s k' s' hpersists hpersists' hle
    have hprefix : registry.toList.take (toGo k s) <+: registry.toList.take (toGo k' s') :=
      List.take_prefix_take_left hle
    obtain ⟨later, hlater⟩ := hprefix
    refine ⟨_, later.flatMap block, hcut k s hpersists, ?_⟩
    rw [hcut k' s' hpersists', ← hlater, List.flatMap_append]

/-- Every provider offers one thing, and `p` sets the signal `stop` while it is at it. -/
def setters : Providers := fun h =>
  ({ offers := some [⟨h, h, none, []⟩], onDiscover := if h = "p" then [("stop", true)] else [] } :
    Script).provider h h

theorem cancellation_removes_contributions_of_setters :
    let registry : Registry Handle := ⟨[("p", "p"), ("q", "q"), ("t", "t")]⟩
    let r : Request := { file := ⟨"a.ts", ""⟩ }
    let block (h : Handle) : List Offer := [⟨h, h, none, []⟩]
    let flag : Signals := fun _ => .flag false
    let script : Signals := fun _ => .script [false, false, true] 0
    let pass (k : Handle) := discover setters { r with signal := some k } registry
    (∀ p ∈ registry.toList, ∀ k, (setters p).Contributes { r with signal := k } (block p)) ∧
    (discover setters r registry flag).outcome = .ok (["p", "q", "t"].flatMap block) ∧
    Event.Persists (pass "stop" flag).events ∧
    (pass "stop" flag).outcome = .ok (block "p") ∧
    (pass "turn" script).outcome = .ok (block "p" ++ block "q") ∧
    ∃ offers more, (pass "stop" flag).outcome = .ok offers ∧
      (pass "turn" script).outcome = .ok (offers ++ more) := by
  intro registry r block flag script pass
  have hblock : ∀ p ∈ registry.toList, ∀ k,
      (setters p).Contributes { r with signal := k } (block p) := fun _ _ _ _ => rfl
  obtain ⟨hall, -, hpersists, hcut, hextends⟩ :=
    cancellation_removes_contributions setters registry r block hblock
  have hflag := hpersists "stop" flag fun answers polls h => by cases h
  have hscript := hpersists "turn" script fun answers polls h => by
    cases h
    decide
  exact ⟨hblock, hall flag, hflag, hcut "stop" flag hflag, hcut "turn" script hscript,
    hextends "stop" flag "turn" script hflag hscript (by decide)⟩

end Dispatch
end CodeActions
