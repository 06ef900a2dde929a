import CodeActions.Proofs.Discovery.Finality
import CodeActions.Proofs.Registration.Slots
/-!
# What is offered can be requested

A host picks an offer by its name and asks for an edit under that name. A pass goes through the
entries of a registry and a request for an edit looks up a name, and the two meet at the same
provider as long as providers keep their names and put them on their offers
(`offered_can_be_requested`): every entry is then filed under the name of its provider
(`Session.Steady`), whatever registrations have led to it.
-/
namespace CodeActions

/-- Whether whatever the provider offers goes by its own name. -/
def Provider.OffersOwn (p : Provider) : Prop :=
  ∀ (r : Request) (s : Signals) (offers : List Offer),
    (p.discover p.name r s).outcome = .ok (some offers) → ∀ o ∈ offers, o.name = p.name

namespace Registry
variable {π : Type}

def Files (P : String → π → Prop) (r : Registry π) : Prop := ∀ e ∈ r.entries, P e.1 e.2

namespace Files
variable {P : String → π → Prop} {r : Registry π}

theorem empty : ({} : Registry π).Files P := List.forall_mem_nil _

theorem insert (hr : r.Files P) {name : String} {p : π} (hp : P name p) :
    (r.insert name p).Files P := by
  intro e he
  rcases mem_put he with rfl | he
  · exact hp
  · exact hr e he

theorem registerAll (hr : r.Files P) (look : π → Provider) {ps : List π}
    (hps : ∀ p ∈ ps, P (look p).name p) : (r.registerAll look ps).1.Files P := by
  induction ps generalizing r with
  | nil => exact hr
  | cons p ps ih =>
    have hfirst : (r.register look p).1.Files P := hr.insert (hps p List.mem_cons_self)
    exact ih hfirst fun q hq => hps q (List.mem_cons_of_mem _ hq)

end Files
end Registry

/-- Whether a step may put the provider into a registry that did not have it anywhere. -/
def Step.registers (p : Handle) : Step → Prop
  | .register _ q | .tryRegister _ q => q = p
  | .extend _ qs | .collect _ qs => p ∈ qs
  | .new .. | .clone .. | .rename .. | .redescribe .. | .set .. | .polls .. | .query ..
  | .discover .. | .edits .. | .resolve .. => False

namespace Session

/-- The providers in `P` have the names and make the offers that they do in `ps`, and nobody else is
in any registry, nor under any other name. -/
structure Steady (ps : Providers) (P : Handle → Prop) (s : Session) : Prop where
  name_eq : ∀ p, P p → (s.providers p).name = (ps p).name
  discover_eq : ∀ p, P p → (s.providers p).discover = (ps p).discover
  files : ∀ h, (s.registries h).Files fun name p => P p ∧ name = (ps p).name

namespace Steady
variable {ps : Providers} {P : Handle → Prop} {s : Session}

theorem opening (ps : Providers) (P : Handle → Prop) (signals : Signals) :
    (opening ps signals).Steady ps P :=
  ⟨fun _ _ => rfl, fun _ _ => rfl, fun _ => .empty⟩

theorem withRegistry (hs : s.Steady ps P) {h : Handle} {r : Registry Handle}
    (hr : r.Files fun name p => P p ∧ name = (ps p).name) : (s.withRegistry h r).Steady ps P := by
  refine ⟨hs.name_eq, hs.discover_eq, fun k => ?_⟩
  by_cases hk : k = h
  · rw [hk, withRegistry_same]
    exact hr
  · rw [withRegistry_of_ne s r hk]
    exact hs.files k

theorem update (hs : s.Steady ps P) {q : Handle} {f : Provider → Provider}
    (hname : P q → (f (s.providers q)).name = (ps q).name)
    (hdiscover : (f (s.providers q)).discover = (s.providers q).discover) :
    ({ s with providers := s.providers.update q f } : Session).Steady ps P := by
  refine ⟨fun p hp => ?_, fun p hp => ?_, hs.files⟩ <;> by_cases hq : p = q
  · subst hq
    simpa using hname hp
  · simpa [Providers.update_of_ne _ _ hq] using hs.name_eq p hp
  · subst hq
    simpa [hdiscover] using hs.discover_eq p hp
  · simpa [Providers.update_of_ne _ _ hq] using hs.discover_eq p hp

theorem filed (hs : s.Steady ps P) {p : Handle} (hp : P p) :
    P p ∧ (s.providers p).name = (ps p).name :=
  ⟨hp, hs.name_eq p hp⟩

theorem step (hs : s.Steady ps P) {step : Step} (hregisters : ∀ p, step.registers p → P p)
    (hrename : ∀ p name, step = .rename p name → P p → name = (ps p).name) :
    (s.step step).2.Steady ps P := by
  cases step with
  | new h => exact hs.withRegistry .empty
  | register h p => exact hs.withRegistry ((hs.files h).insert (hs.filed (hregisters p rfl)))
  | tryRegister h p =>
    by_cases htaken : (s.providers p).name ∈ (s.registries h).names
    · rw [step_tryRegister_of_taken htaken]
      exact hs
    · rw [step_tryRegister_of_free htaken]
      exact hs.withRegistry ((hs.files h).insert (hs.filed (hregisters p rfl)))
  | extend h qs =>
    exact hs.withRegistry ((hs.files h).registerAll _ fun p hp => hs.filed (hregisters p hp))
  | collect h qs =>
    exact hs.withRegistry
      (Registry.Files.empty.registerAll _ fun p hp => hs.filed (hregisters p hp))
  | clone h source => exact hs.withRegistry (hs.files source)
  | rename q name => exact hs.update (hrename q name rfl) rfl
  | redescribe q description => exact hs.update (hs.name_eq q) rfl
  | set | polls | query | discover | edits | resolve =>
    exact ⟨hs.name_eq, hs.discover_eq, hs.files⟩

theorem run (hs : s.Steady ps P) {steps : List Step}
    (hregisters : ∀ step ∈ steps, ∀ p, step.registers p → P p)
    (hrename : ∀ p name, .rename p name ∈ steps → P p → name = (ps p).name) :
    (s.run steps).2.Steady ps P := by
  induction steps generalizing s with
  | nil => exact hs
  | cons step steps ih =>
    have hfirst : (s.step step).2.Steady ps P :=
      hs.step (hregisters step List.mem_cons_self)
        fun p name hstep => hrename p name (by rw [hstep]; exact List.mem_cons_self)
    exact ih hfirst (fun other hother => hregisters other (List.mem_cons_of_mem _ hother))
      fun p name hmem => hrename p name (List.mem_cons_of_mem _ hmem)

end Steady
end Session

private theorem Visit.exists_of_mem_offers {ps : Providers} {r : Request} {v : Visit} {o : Offer}
    (ho : o ∈ v.offers ps r) :
    ∃ offers, (v.reply ps r).outcome = .ok (some offers) ∧ o ∈ offers := by
  unfold offers at ho
  split at ho
  · cases ho
  · cases houtcome : (v.reply ps r).outcome with
    | error text => simp [houtcome] at ho
    | ok offers =>
      cases offers with
      | none => simp [houtcome] at ho
      | some offers => exact ⟨offers, rfl, by simpa [houtcome] using ho⟩

namespace Session

private theorem Steady.find?_of_mem_offers {ps : Providers} {P : Handle → Prop} {s : Session}
    (hs : s.Steady ps P) (hown : ∀ p, P p → (ps p).OffersOwn) {h : Handle}
    (hnodup : (s.registries h).names.Nodup) {r : Request} {v : Visit}
    (hv : v ∈ Dispatch.visits s.providers r (s.registries h).toList s.signals) {o : Offer}
    (ho : o ∈ v.offers s.providers r) : (s.registries h).find? o.name = some v.provider := by
  have hprefix := Dispatch.visits_providers_isPrefix s.providers r (s.registries h).toList s.signals
  have hlisted : v.provider ∈ (s.registries h).toList :=
    hprefix.subset (List.mem_map_of_mem hv)
  obtain ⟨⟨name, p⟩, hentry, hp⟩ := List.mem_map.mp hlisted
  obtain ⟨hsteady, hname⟩ := hs.files h _ hentry
  obtain ⟨offers, hreply, ho⟩ := Visit.exists_of_mem_offers ho
  change p = v.provider at hp
  subst hp
  have hsame : o.name = name := by
    rw [Visit.reply, hs.name_eq _ hsteady, hs.discover_eq _ hsteady] at hreply
    exact (hown _ hsteady r _ offers hreply o ho).trans hname.symm
  rw [hsame]
  exact Registry.find?_of_mem hnodup hentry

/-- What is offered can be requested. After steps in which the providers that are registered keep
their names and offer nothing but what goes by them, every offer in the result of a pass goes by a
name that is taken in the registry. A request for the edit of any action under that name calls the
provider that made the offer, and nobody else, and does not fail for want of one. Offers that go by
the same name are of the same provider. -/
theorem offered_can_be_requested (ps : Providers) (signals : Signals) (steps : List Step)
    (hown : ∀ p, (∃ step ∈ steps, step.registers p) → (ps p).OffersOwn)
    (hrename : ∀ p name, .rename p name ∈ steps → (∃ step ∈ steps, step.registers p) →
      name = (ps p).name)
    (h : Handle) (r : Request) :
    let s := ((opening ps signals).run steps).2
    let vs := Dispatch.visits s.providers r (s.registries h).toList s.signals
    let pass := s.step (.discover h r)
    ∀ offers, pass.1.answer = .offers offers →
      offers = vs.flatMap (Visit.offers s.providers r) ∧
      (∀ v ∈ vs, ∀ o ∈ v.offers s.providers r,
        o.name ∈ (s.registries h).names ∧
        ∀ action,
          let request := (pass.2.step (.resolve h r o.name action)).1
          Event.calls request.events = [r.call v.provider (some action)] ∧
          ∀ failure, request.answer ≠ .failed failure) ∧
      ∀ v ∈ vs, ∀ o ∈ v.offers s.providers r, ∀ w ∈ vs, ∀ o' ∈ w.offers s.providers r,
        o.name = o'.name → v.provider = w.provider := by
  intro s vs pass offers hoffers
  have hsteady : s.Steady ps fun p => ∃ step ∈ steps, step.registers p :=
    (Steady.opening ps _ signals).run (fun step hstep p hp => ⟨step, hstep, hp⟩) hrename
  have hnodup : (s.registries h).names.Nodup := (follows_opening ps signals steps h).nodup
  have hfind : ∀ v ∈ vs, ∀ o ∈ v.offers s.providers r,
      (s.registries h).find? o.name = some v.provider :=
    fun v hv o ho => hsteady.find?_of_mem_offers hown hnodup hv ho
  refine ⟨?_, fun v hv o ho => ⟨?_, fun action => ?_⟩, ?_⟩
  · rw [answer_discover] at hoffers
    split at hoffers
    · cases hoffers
      rfl
    · cases hoffers
  · exact ((s.registries h).mem_names_iff_find? o.name).mpr ⟨_, hfind v hv o ho⟩
  · -- A pass leaves the registries as they are.
    have hknown : (pass.2.registries h).find? o.name = some v.provider := hfind v hv o ho
    intro request
    obtain ⟨hcalls, hanswer⟩ := edits_step_of_known r action hknown (.resolve h r o.name action)
      (List.mem_cons_of_mem _ List.mem_cons_self)
    refine ⟨hcalls, fun failure hfailed => ?_⟩
    rw [hanswer, editAnswer] at hfailed
    split at hfailed <;> cases hfailed
  · intro v hv o ho w hw o' ho' hname
    have hsame := hfind v hv o ho
    rw [hname, hfind w hw o' ho'] at hsame
    exact (Option.some.inj hsame).symm

def plain : Providers := fun h =>
  ({ offers := some [⟨h, h, none, []⟩] } : Script).provider h h

private theorem offersOwn_plain (p : Handle) : (plain p).OffersOwn := by
  intro r s offers hreply o ho
  cases hreply
  cases List.mem_singleton.mp ho
  rfl

theorem offered_can_be_requested_from_copy :
    let steps : List Step := [.register "a" "p", .extend "a" ["q", "p"], .clone "b" "a"]
    let s := ((opening plain fun _ => .flag false).run steps).2
    let r : Request := { file := ⟨"a.ts", ""⟩, signal := some "stop" }
    let pass := s.step (.discover "b" r)
    (∀ p, (∃ step ∈ steps, step.registers p) → (plain p).OffersOwn) ∧
    (∀ p name, .rename p name ∈ steps → (∃ step ∈ steps, step.registers p) →
      name = (plain p).name) ∧
    pass.1.answer = .offers [⟨"p", "p", none, []⟩, ⟨"q", "q", none, []⟩] ∧
    Event.calls (pass.2.step (.resolve "b" r "q" "fix")).1.events = [r.call "q" (some "fix")] := by
  intro steps s r pass
  have hown : ∀ p, (∃ step ∈ steps, step.registers p) → (plain p).OffersOwn :=
    fun p _ => offersOwn_plain p
  have hrename : ∀ p name, .rename p name ∈ steps → (∃ step ∈ steps, step.registers p) →
      name = (plain p).name := by simp [steps]
  have hanswer : pass.1.answer = .offers [⟨"p", "p", none, []⟩, ⟨"q", "q", none, []⟩] := rfl
  obtain ⟨-, hrequest, -⟩ :=
    offered_can_be_requested plain (fun _ => .flag false) steps hown hrename "b" r _ hanswer
  refine ⟨hown, hrename, hanswer, ?_⟩
  exact ((hrequest _ (.tail _ (.head _)) ⟨"q", "q", none, []⟩ (.head _)).2 "fix").1

end Session
end CodeActions
