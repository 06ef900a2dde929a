import CodeActions.Proofs.Discovery.Contributions
import CodeActions.Proofs.Registration.Slots
/-!
# Passes before and after a registration

A pass goes through the slots of a registry, so that a registration changes it at one slot only
(`registration_changes_own_slot`): at the end if the name is free, and else in the place of the
provider that had it.
-/
namespace CodeActions
namespace Session
variable {s : Session} {h p : Handle} {r : Request} {block : Handle → List Offer}

private theorem discover_of_contributes (hsignal : r.signal = none)
    (hblock : ∀ q ∈ (s.registries h).toList, (s.providers q).Contributes r (block q)) :
    (s.step (.discover h r)).1.answer = .offers ((s.registries h).toList.flatMap block) ∧
    Event.calls (s.step (.discover h r)).1.events =
      (s.registries h).toList.map fun q => r.call q none := by
  have houtcome := Dispatch.outcome_of_no_signal s.providers r hblock hsignal s.signals
  refine ⟨?_, Dispatch.calls_of_no_signal s.providers r hblock hsignal s.signals⟩
  simp only [step, finish, houtcome]

private theorem discover_insert (hsignal : r.signal = none)
    (hblock : ∀ q, q = p ∨ q ∈ (s.registries h).toList → (s.providers q).Contributes r (block q))
    (name : String) :
    let registry := (s.registries h).insert name p
    let outcome := ((s.withRegistry h registry).step (.discover h r)).1
    outcome.answer = .offers (registry.toList.flatMap block) ∧
    Event.calls outcome.events = registry.toList.map fun q => r.call q none := by
  intro registry outcome
  have hsame : (s.withRegistry h registry).registries h = registry := withRegistry_same s h registry
  rw [← hsame]
  apply discover_of_contributes hsignal
  intro q hq
  rw [hsame] at hq
  exact hblock q (Registry.mem_toList_insert hq)

/-- A registration changes discovery at its own slot only, if answers depend on nothing but the
request, whatever signals are set on the way. Under a name that is free, strict or not, it adds the
provider's call and contribution to the end of those there were. Under a name that is taken, they
stand in the place of those of the provider that had it, which is not called any more unless it has
another slot or is registered again; and a strict registration changes nothing. -/
theorem registration_changes_own_slot (s : Session) (h p : Handle) (r : Request)
    (hsignal : r.signal = none) (block : Handle → List Offer)
    (hblock : ∀ q, q = p ∨ q ∈ (s.registries h).toList → (s.providers q).Contributes r (block q)) :
    let name := (s.providers p).name
    let pass (t : Session) := (t.step (.discover h r)).1
    (name ∉ (s.registries h).names → ∀ step ∈ [Step.register h p, .tryRegister h p],
      ∃ offers, (pass s).answer = .offers offers ∧
        (pass (s.step step).2).answer = .offers (offers ++ block p) ∧
        Event.calls (pass (s.step step).2).events =
          Event.calls (pass s).events ++ [r.call p none]) ∧
    ∀ q, (s.registries h).find? name = some q →
      let i := (s.registries h).names.idxOf name
      let before := (s.registries h).toList.take i
      let later := (s.registries h).toList.drop (i + 1)
      let t := (s.step (.register h p)).2
      (s.registries h).toList = before ++ q :: later ∧
      (pass s).answer = .offers (before.flatMap block ++ block q ++ later.flatMap block) ∧
      (pass t).answer = .offers (before.flatMap block ++ block p ++ later.flatMap block) ∧
      Event.calls (pass s).events = (before ++ q :: later).map (fun o => r.call o none) ∧
      Event.calls (pass t).events = (before ++ p :: later).map (fun o => r.call o none) ∧
      (q ≠ p → (s.registries h).toList.count q = 1 →
        r.call q none ∉ Event.calls (pass t).events) ∧
      (s.step (.tryRegister h p)).2 = s := by
  intro name pass
  have hbefore := discover_of_contributes hsignal fun q hq => hblock q (.inr hq)
  obtain ⟨hanswer, hcalls⟩ := discover_insert hsignal hblock name
  refine ⟨?_, ?_⟩
  · intro hfree step hstep
    have hstep : (s.step step).2 = s.withRegistry h ((s.registries h).insert name p) := by
      simp only [List.mem_cons, List.not_mem_nil, or_false] at hstep
      rcases hstep with rfl | rfl
      · exact step_register s h p
      · exact step_tryRegister_of_free hfree
    have hlist := Registry.toList_insert_of_free p hfree
    refine ⟨_, hbefore.1, ?_, ?_⟩
    · rw [hstep, hanswer, hlist]
      simp
    · rw [hstep, hcalls, hbefore.2, hlist]
      simp
  · intro q hq i before later t
    have htaken : name ∈ (s.registries h).names :=
      ((s.registries h).mem_names_iff_find? name).mpr ⟨q, hq⟩
    have hlists : (s.registries h).toList = before ++ q :: later ∧
        ((s.registries h).insert name p).toList = before ++ p :: later :=
      Registry.toList_insert_of_taken hq p
    obtain ⟨hold, hnew⟩ := hlists
    have ht : t = s.withRegistry h ((s.registries h).insert name p) := step_register s h p
    rw [← ht, hnew] at hanswer hcalls
    refine ⟨hold, ?_, ?_, ?_, hcalls, ?_, step_tryRegister_of_taken htaken⟩
    · rw [hbefore.1, hold]
      simp
    · rw [hanswer]
      simp
    · rw [hbefore.2, hold]
    · intro hne hcount hcalled
      rw [hold, List.count_append, List.count_cons_self] at hcount
      have hbefore : q ∉ before := List.count_eq_zero.mp (by omega)
      have hlater : q ∉ later := List.count_eq_zero.mp (by omega)
      rw [hcalls] at hcalled
      obtain ⟨o, ho, hcall⟩ := List.mem_map.mp hcalled
      have hsame : o = q := congrArg Call.provider hcall
      simp only [List.mem_append, List.mem_cons, hsame] at ho
      exact ho.elim hbefore fun ho => ho.elim hne hlater

/-- Every provider offers one thing, and `q` and `q2` go by the same name. -/
def namesakes : Providers := fun h =>
  ({ offers := some [⟨h, h, none, []⟩] } : Script).provider (if h = "q2" then "q" else h) h

theorem registration_changes_own_slot_of_namesakes :
    let s := ((opening namesakes fun _ => .flag false).run [.extend "a" ["p", "q", "t"]]).2
    let r : Request := { file := ⟨"a.ts", ""⟩ }
    let block (h : Handle) : List Offer := [⟨h, h, none, []⟩]
    let pass (t : Session) := (t.step (.discover "a" r)).1
    (∀ q, q = "q2" ∨ q ∈ (s.registries "a").toList → (s.providers q).Contributes r (block q)) ∧
    (s.registries "a").find? "q" = some "q" ∧
    (pass s).answer = .offers (block "p" ++ block "q" ++ block "t") ∧
    (pass (s.step (.register "a" "q2")).2).answer =
      .offers (block "p" ++ block "q2" ++ block "t") ∧
    r.call "q" none ∉ Event.calls (pass (s.step (.register "a" "q2")).2).events ∧
    (s.step (.tryRegister "a" "q2")).2 = s := by
  intro s r block pass
  have hblock : ∀ q, q = "q2" ∨ q ∈ (s.registries "a").toList →
      (s.providers q).Contributes r (block q) := fun _ _ _ => rfl
  have hfind : (s.registries "a").find? "q" = some "q" := by decide
  obtain ⟨-, htaken⟩ := registration_changes_own_slot s "a" "q2" r rfl block hblock
  obtain ⟨-, hold, hnew, -, -, hgone, hrefused⟩ := htaken "q" hfind
  exact ⟨hblock, hfind, hold, hnew, hgone (by decide) (by decide), hrefused⟩

end Session
end CodeActions
