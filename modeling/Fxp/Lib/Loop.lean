import Mathlib

/-!
# While loops

A `while` loop is a step function that returns the next state, or `none` when the loop ends, run with enough fuel.
`Loop.run_induct` and `Loop.runM_induct` are the invariant rules, and `Loop.run_done` says that
a loop whose measure decreases ends by itself, so that the fuel never cuts it short.
-/

namespace Loop

variable {σ : Type*}

/-- Runs `step` until it returns `none`, at most `fuel` times. -/
def run (step : σ → Option σ) : Nat → σ → σ
  | 0, s => s
  | fuel + 1, s =>
    match step s with
    | none => s
    | some s' => run step fuel s'

/-- A loop whose body may stop the program. -/
def runM {ε : Type*} (step : σ → Except ε (Option σ)) : Nat → σ → Except ε σ
  | 0, s => .ok s
  | fuel + 1, s => do
    match ← step s with
    | none => .ok s
    | some s' => runM step fuel s'

theorem run_induct {step : σ → Option σ} {P : σ → Prop} (hP : ∀ s s', P s → step s = some s' → P s')
    (fuel : Nat) {s} (hs : P s) : P (run step fuel s) := by
  induction fuel generalizing s with
  | zero => exact hs
  | succ _ ih =>
    unfold run
    split
    · exact hs
    · rename_i s' h
      exact ih (hP s s' hs h)

theorem run_of_none {step : σ → Option σ} {s} (h : step s = none) (fuel : Nat) : run step fuel s = s := by
  cases fuel with
  | zero => rfl
  | succ => rw [run, h]

theorem runM_induct {ε : Type*} {step : σ → Except ε (Option σ)} {P : σ → Prop}
    (hP : ∀ s s', P s → step s = .ok (some s') → P s') {fuel : Nat} {s s'} (hs : P s)
    (h : runM step fuel s = .ok s') : P s' := by
  induction fuel generalizing s with
  | zero =>
    cases h
    exact hs
  | succ _ ih =>
    rw [runM] at h
    rcases hstep : step s with _ | r
    · rw [hstep] at h
      cases h
    rw [hstep] at h
    cases r with
    | none =>
      cases h
      exact hs
    | some s₁ => exact ih (hP s s₁ hs hstep) h

/-- The states in which the loop runs its body. -/
def visitedM {ε : Type*} (step : σ → Except ε (Option σ)) : Nat → σ → List σ
  | 0, _ => []
  | fuel + 1, s =>
    match step s with
    | .ok (some s') => s :: visitedM step fuel s'
    | _ => []

/-- The invariant rule with the states so far. -/
theorem runM_visited {ε : Type*} {step : σ → Except ε (Option σ)} {P : List σ → σ → Prop}
    (hP : ∀ l s s', P l s → step s = .ok (some s') → P (l ++ [s]) s') {fuel : Nat} {l s s'} (hs : P l s)
    (h : runM step fuel s = .ok s') : P (l ++ visitedM step fuel s) s' := by
  induction fuel generalizing l s with
  | zero =>
    cases h
    rwa [visitedM, List.append_nil]
  | succ _ ih =>
    rw [runM] at h
    rcases hstep : step s with _ | r
    · rw [hstep] at h
      cases h
    rw [hstep] at h
    cases r with
    | none =>
      cases h
      simp only [visitedM, hstep, List.append_nil]
      exact hs
    | some s₁ =>
      simp only [visitedM, hstep]
      rw [List.append_cons]
      exact ih (hP l s s₁ hs hstep) h

/-- A loop with an invariant `P` and a measure that every step decreases ends by itself. -/
theorem run_done {step : σ → Option σ} {P : σ → Prop} (m : σ → Nat)
    (hP : ∀ s s', P s → step s = some s' → P s' ∧ m s' < m s) {fuel : Nat} {s} (hs : P s)
    (hf : m s < fuel) : step (run step fuel s) = none := by
  induction fuel generalizing s with
  | zero => omega
  | succ _ ih =>
    unfold run
    split
    · assumption
    rename_i s' h
    obtain ⟨hs', _⟩ := hP s s' hs h
    exact ih hs' (by omega)

/-- The same for a loop whose body finds all it looks up. -/
theorem runM_done {ε : Type*} {step : σ → Except ε (Option σ)} {P : σ → Prop} (m : σ → Nat)
    (hP : ∀ s, P s → ∃ r, step s = .ok r ∧ ∀ s', r = some s' → P s' ∧ m s' < m s) {fuel : Nat} {s} (hs : P s)
    (hf : m s < fuel) : ∃ s', runM step fuel s = .ok s' ∧ P s' ∧ step s' = .ok none := by
  induction fuel generalizing s with
  | zero => omega
  | succ _ ih =>
    obtain ⟨r, hr, hnext⟩ := hP s hs
    unfold runM
    rw [hr]
    cases r with
    | none => exact ⟨s, rfl, hs, hr⟩
    | some s' =>
      obtain ⟨hs', _⟩ := hnext s' rfl
      exact ih hs' (by omega)

end Loop
