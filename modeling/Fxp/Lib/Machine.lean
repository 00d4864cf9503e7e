import Mathlib

/-!
# Transition systems

A machine is a function `step` that says where an action leads, if it is possible. `Reach` is a run of it all of whose
actions meet a condition in the state they are taken in, `Reach.invariant` the invariant rule, and `Reach.of_exec`
computes a run.
-/

namespace Machine

variable {S A : Type*} {step : A → S → Option S} {ok ok' : A → S → Prop} {s₀ s : S}

/-- A run from `s₀` leads to the state, and every action of it meets `ok` where it is taken. -/
inductive Reach (step : A → S → Option S) (ok : A → S → Prop) (s₀ : S) : S → Prop
  | refl : Reach step ok s₀ s₀
  | tail {s s' : S} {a : A} : Reach step ok s₀ s → ok a s → step a s = some s' → Reach step ok s₀ s'

/-- What holds at first and is kept by every step holds in every state of every run. -/
theorem Reach.invariant {I : S → Prop} (h : Reach step ok s₀ s) (h₀ : I s₀)
    (hstep : ∀ {a s s'}, I s → ok a s → step a s = some s' → I s') : I s := by
  induction h with
  | refl => exact h₀
  | tail _ ha hs ih => exact hstep ih ha hs

/-- The state after a list of actions, if each is possible and meets `ok`. -/
def exec (step : A → S → Option S) (ok : A → S → Prop) [∀ a s, Decidable (ok a s)] : List A → S → Option S
  | [], s => some s
  | a :: rest, s => if ok a s then (step a s).bind (exec step ok rest) else none

theorem Reach.of_exec [∀ a s, Decidable (ok a s)] (actions : List A) (h : Reach step ok s₀ s) {P : S → Bool}
    (hexec : (exec step ok actions s).any P = true) : ∃ s', Reach step ok s₀ s' ∧ P s' = true := by
  induction actions generalizing s with
  | nil => exact ⟨s, h, hexec⟩
  | cons a _ ih =>
    rw [exec] at hexec
    split at hexec
    · rename_i ha
      cases hs : step a s with
      | none =>
        rw [hs] at hexec
        cases hexec
      | some =>
        rw [hs] at hexec
        exact ih (h.tail ha hs) hexec
    · cases hexec

end Machine
