import CodeActions.Proofs.Discovery.Pass
/-!
# Cancellation

When a poll that answers to stop is the end of asking. The signal is polled afresh for every
provider, so that this holds of a pass exactly if the signal does not take its answer back. A latch
and a flag never do so during a pass; a script may.
-/
namespace CodeActions
namespace Dispatch
variable (ps : Providers) (r : Request)

/-- Nobody is asked after a poll that answers to stop. -/
def StopsForGood (events : List Event) : Prop :=
  events.Pairwise fun e f => ∀ k c, e = .poll k true → f ≠ .call c

private theorem poll_true_mem_events {v : Visit} {k : Handle} :
    .poll k true ∈ v.events ps r ↔ r.signal = some k ∧ v.isSkipped r = true := by
  unfold Visit.events Visit.isSkipped
  cases hsignal : r.signal with
  | none => simp
  | some h =>
    cases hanswer : (v.signals h).answer <;> simp [hanswer, eq_comm]

private theorem call_mem_events {v : Visit} {c : Call} :
    .call c ∈ v.events ps r ↔ c = r.call v.provider none ∧ v.isSkipped r = false := by
  unfold Visit.events
  cases v.isSkipped r <;> simp

private theorem stopsForGood_visit (v : Visit) : StopsForGood (v.events ps r) := by
  unfold StopsForGood Visit.events Visit.isSkipped
  cases hsignal : r.signal with
  | none => simp
  | some k => cases hanswer : (v.signals k).answer <;> simp [hanswer]

private theorem stopsForGood_visits (vs : List Visit) :
    StopsForGood (vs.flatMap (Visit.events ps r)) ↔
      vs.Pairwise fun v w => v.isSkipped r = true → w.isSkipped r = true := by
  unfold StopsForGood
  rw [List.pairwise_flatMap]
  constructor
  · rintro ⟨-, hpairs⟩
    refine hpairs.imp fun {v w} hvw hv => ?_
    cases hw : w.isSkipped r with
    | true => rfl
    | false =>
      obtain ⟨k, hk, -⟩ := Option.any_eq_true _ _ |>.mp hv
      have hpoll := (poll_true_mem_events ps r).mpr ⟨hk, hv⟩
      have hcall := (call_mem_events ps r).mpr ⟨rfl, hw⟩
      exact absurd rfl (hvw _ hpoll _ hcall k _ rfl)
  · intro hpairs
    refine ⟨fun v _ => stopsForGood_visit ps r v, hpairs.imp fun {v w} hvw e he f hf k c hek hfc => ?_⟩
    subst hek hfc
    have hv := ((poll_true_mem_events ps r).mp he).2
    have hw := ((call_mem_events ps r).mp hf).2
    rw [hvw hv] at hw
    cases hw

private theorem stopsForGood_discover (registry : Registry Handle) (s : Signals) :
    StopsForGood (discover ps r registry s).events ↔
      (visits ps r registry.toList s).Pairwise
        fun v w => v.isSkipped r = true → w.isSkipped r = true := by
  rw [← stopsForGood_visits ps r, discover_eq]
  unfold StopsForGood
  rw [List.pairwise_append]
  cases (visits ps r registry.toList s).findSome? (Visit.fault? ps r) <;> simp

section
variable {k : Handle} (hk : r.signal = some k)
include hk

theorem isSkipped_eq_answer (v : Visit) : v.isSkipped r = (v.signals k).answer := by
  simp [Visit.isSkipped, hk]

private theorem polled_signal (v : Visit) : v.polled r k = (v.signals k).polled := by
  simp [Visit.polled, hk]

private theorem after_of_isSkipped {v : Visit} (hskip : v.isSkipped r = true) :
    v.after ps r k = (v.signals k).polled := by
  rw [Visit.after, hskip, if_pos rfl, polled_signal r hk]

private theorem isScript_after (v : Visit) : (v.after ps r k).isScript = (v.signals k).isScript := by
  unfold Visit.after
  cases v.isSkipped r with
  | true => rw [if_pos rfl, polled_signal r hk, Signal.isScript_polled]
  | false =>
    rw [if_neg Bool.false_ne_true, Signals.isScript_setAll, polled_signal r hk,
      Signal.isScript_polled]

private theorem after_script {v : Visit} {answers : List Bool} {polls : Nat}
    (hv : v.signals k = .script answers polls) :
    v.after ps r k = .script answers (polls + 1) := by
  have hpolled : v.polled r k = .script answers (polls + 1) := by
    rw [polled_signal r hk, hv]
    rfl
  unfold Visit.after
  cases v.isSkipped r with
  | true => rw [if_pos rfl, hpolled]
  | false => rw [if_neg Bool.false_ne_true, Signals.setAll_script hpolled]

/-- A latch or a flag that is set at the start of a turn keeps the whole rest of the pass from
asking: nobody is asked who could take it back. -/
private theorem visits_isSkipped {s : Signals} (hscript : (s k).isScript = false)
    (hanswer : (s k).answer = true) (hs : List Handle) :
    ∀ v ∈ visits ps r hs s, v.isSkipped r = true := by
  induction hs generalizing s with
  | nil => simp [visits]
  | cons h hs ih =>
    have hskip : Visit.isSkipped r ⟨h, s⟩ = true := by
      rw [isSkipped_eq_answer r hk]
      exact hanswer
    have hcalm : Visit.fault? ps r ⟨h, s⟩ = none := by simp [Visit.fault?, hskip]
    have hafter : Visit.after ps r ⟨h, s⟩ k = s k := by
      rw [after_of_isSkipped ps r hk hskip]
      exact Signal.polled_of_not_isScript hscript
    rw [visits_cons_of_calm ps r hcalm]
    intro v hv
    rcases List.mem_cons.mp hv with rfl | hrest
    · exact hskip
    · exact ih (by rw [hafter]; exact hscript) (by rw [hafter]; exact hanswer) v hrest

theorem visits_pairwise_of_not_isScript {s : Signals} (hscript : (s k).isScript = false)
    (hs : List Handle) :
    (visits ps r hs s).Pairwise fun v w => v.isSkipped r = true → w.isSkipped r = true := by
  induction hs generalizing s with
  | nil => exact List.Pairwise.nil
  | cons h hs ih =>
    cases hfault : Visit.fault? ps r ⟨h, s⟩ with
    | some text =>
      rw [visits_cons_of_fault ps r hfault]
      exact List.pairwise_singleton _ _
    | none =>
      have hall : Visit.isSkipped r ⟨h, s⟩ = true →
          ∀ v ∈ visits ps r (h :: hs) s, v.isSkipped r = true := by
        intro hskip
        rw [isSkipped_eq_answer r hk] at hskip
        exact visits_isSkipped ps r hk hscript hskip (h :: hs)
      rw [visits_cons_of_calm ps r hfault] at hall ⊢
      rw [List.pairwise_cons]
      refine ⟨fun w hw hskip => hall hskip w (List.mem_cons_of_mem _ hw), ih ?_⟩
      rw [isScript_after ps r hk]
      exact hscript

theorem visits_script {s : Signals} {answers : List Bool} {polls : Nat}
    (hscript : s k = .script answers polls) (hs : List Handle) (i : Nat)
    (hi : i < (visits ps r hs s).length) :
    ((visits ps r hs s)[i]).signals k = .script answers (polls + i) := by
  induction hs generalizing s polls i with
  | nil => cases hi
  | cons h hs ih =>
    cases hfault : Visit.fault? ps r ⟨h, s⟩ with
    | some text =>
      simp only [visits_cons_of_fault ps r hfault] at hi ⊢
      have hzero : i = 0 := by simpa using hi
      subst hzero
      exact hscript
    | none =>
      simp only [visits_cons_of_calm ps r hfault] at hi ⊢
      cases i with
      | zero => exact hscript
      | succ i =>
        have hafter := after_script ps r hk (v := ⟨h, s⟩) hscript
        rw [List.getElem_cons_succ, ih hafter, Nat.add_assoc, Nat.add_comm 1 i]

theorem polls_discover_of_signal (registry : Registry Handle) (s : Signals) :
    Event.polls (discover ps r registry s).events =
      (visits ps r registry.toList s).map fun v => (k, (v.signals k).answer) := by
  rw [polls_discover, hk, List.map_eq_flatMap]
  rfl

end

/-- A poll that answers to stop is the end of asking, except with a script that takes such an answer
back before the pass has made its last poll. -/
theorem stopsForGood_iff (registry : Registry Handle) (s : Signals) :
    StopsForGood (discover ps r registry s).events ↔
      ∀ k answers polls, r.signal = some k → s k = .script answers polls →
        ∀ i j, i < j → j < (Event.polls (discover ps r registry s).events).length →
          (Signal.script answers (polls + i)).answer = true →
            (Signal.script answers (polls + j)).answer = true := by
  rw [stopsForGood_discover]
  constructor
  · intro hpairs k answers polls hk hscript i j hij hj hi
    rw [polls_discover_of_signal ps r hk, List.length_map] at hj
    have hpair := List.pairwise_iff_getElem.mp hpairs i j (by omega) hj hij
    rw [isSkipped_eq_answer r hk, isSkipped_eq_answer r hk, visits_script ps r hk hscript,
      visits_script ps r hk hscript] at hpair
    exact hpair hi
  · intro hscripts
    cases hk : r.signal with
    | none =>
      have hnever (v : Visit) : v.isSkipped r = false := by simp [Visit.isSkipped, hk]
      apply List.pairwise_of_forall
      intro v w hv
      rw [hnever] at hv
      cases hv
    | some k =>
      cases hsignal : s k with
      | script answers polls =>
        rw [List.pairwise_iff_getElem]
        intro i j hi hj hij
        rw [isSkipped_eq_answer r hk, isSkipped_eq_answer r hk, visits_script ps r hk hsignal,
          visits_script ps r hk hsignal]
        apply hscripts k answers polls hk hsignal i j hij
        rw [polls_discover_of_signal ps r hk, List.length_map]
        exact hj
      | latch isSet => exact visits_pairwise_of_not_isScript ps r hk (by rw [hsignal]; rfl) _
      | flag isSet => exact visits_pairwise_of_not_isScript ps r hk (by rw [hsignal]; rfl) _

/-- A script that answers to stop and then to go on: the second provider is asked. -/
theorem not_stopsForGood_of_retraction :
    ¬ StopsForGood (discover (fun h => ({} : Script).provider h h)
      { file := ⟨"a.ts", ""⟩, signal := some "t" } ⟨[("p", "p"), ("q", "q")]⟩
      (fun _ => .script [true, false] 0)).events := by
  intro hstops
  have hpair := List.pairwise_iff_getElem.mp hstops 0 3 (by decide) (by decide) (by decide)
  exact hpair "t" ⟨"q", none, "a.ts", 0, none⟩ rfl rfl

end Dispatch
end CodeActions
