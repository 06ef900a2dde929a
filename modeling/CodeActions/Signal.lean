/-!
# Signals to stop

A request may carry a signal, which is polled to learn whether to stop. Signals are shared, and
known by handles.
-/
namespace CodeActions

/-- By what a provider, a signal or a registry is known to those who share it. -/
abbrev Handle : Type := String

inductive Signal where
  /-- Stays set once it is set. -/
  | latch (isSet : Bool)
  | flag (isSet : Bool)
  /-- Gives the answers in their order, and the last one from then on. -/
  | script (answers : List Bool) (polls : Nat)
deriving DecidableEq, Repr

namespace Signal

def answer : Signal → Bool
  | .latch isSet | .flag isSet => isSet
  | .script answers polls => (answers[polls]?.or answers.getLast?).getD false

def polled : Signal → Signal
  | .script answers polls => .script answers (polls + 1)
  | s => s

def set (value : Bool) : Signal → Signal
  | .latch isSet => .latch (isSet || value)
  | .flag _ => .flag value
  | .script answers polls => .script answers polls

def polls : Signal → Nat
  | .script _ polls => polls
  | .latch _ | .flag _ => 0

/-- Neither a poll nor a setting takes a set latch back. -/
@[simp] theorem polled_latch (isSet : Bool) : (latch isSet).polled = latch isSet := rfl

@[simp] theorem set_latch_true (value : Bool) : (latch true).set value = latch true := rfl

@[simp] theorem set_script (value : Bool) (answers : List Bool) (polls : Nat) :
    (script answers polls).set value = script answers polls := rfl

/-- Only scripts give answers that nobody has set. -/
def isScript : Signal → Bool
  | .script _ _ => true
  | .latch _ | .flag _ => false

@[simp] theorem isScript_polled (s : Signal) : s.polled.isScript = s.isScript := by
  cases s <;> rfl

@[simp] theorem isScript_set (value : Bool) (s : Signal) : (s.set value).isScript = s.isScript := by
  cases s <;> rfl

theorem polled_of_not_isScript {s : Signal} (hs : s.isScript = false) : s.polled = s := by
  cases s with
  | latch isSet => rfl
  | flag isSet => rfl
  | script answers polls => cases hs

end Signal

abbrev Signals : Type := Handle → Signal

namespace Signals

def update (s : Signals) (h : Handle) (f : Signal → Signal) : Signals :=
  fun k => if k = h then f (s h) else s k

@[simp] theorem update_same (s : Signals) (h : Handle) (f : Signal → Signal) :
    s.update h f h = f (s h) := by
  simp [update]

theorem update_of_ne (s : Signals) {h k : Handle} (f : Signal → Signal) (hne : k ≠ h) :
    s.update h f k = s k := by
  simp [update, hne]

def setAll (s : Signals) : List (Handle × Bool) → Signals
  | [] => s
  | (h, value) :: rest => (s.update h (Signal.set value)).setAll rest

theorem setAll_of_fixed {s : Signals} {h : Handle} (hfixed : ∀ value, (s h).set value = s h)
    (sets : List (Handle × Bool)) : s.setAll sets h = s h := by
  induction sets generalizing s with
  | nil => rfl
  | cons head rest ih =>
    obtain ⟨k, value⟩ := head
    have hsame : s.update k (Signal.set value) h = s h := by
      by_cases hk : h = k
      · subst hk
        rw [update_same, hfixed]
      · rw [update_of_ne s _ hk]
    rw [setAll, ih (by simpa only [hsame] using hfixed), hsame]

theorem setAll_script {s : Signals} {h : Handle} {answers : List Bool} {polls : Nat}
    (hs : s h = .script answers polls) (sets : List (Handle × Bool)) :
    s.setAll sets h = .script answers polls := by
  rw [setAll_of_fixed (by simp [hs]), hs]

theorem isScript_setAll (s : Signals) (h : Handle) (sets : List (Handle × Bool)) :
    (s.setAll sets h).isScript = (s h).isScript := by
  induction sets generalizing s with
  | nil => rfl
  | cons head rest ih =>
    obtain ⟨k, value⟩ := head
    rw [setAll, ih]
    by_cases hk : h = k
    · subst hk
      rw [update_same, Signal.isScript_set]
    · rw [update_of_ne s _ hk]

end Signals
end CodeActions
