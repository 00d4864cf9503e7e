import Fxp.Lib.Loop
import Mathlib

/-!
# Programs that may panic

A lookup that assumes a present key stops the program, and so does machine arithmetic that overflows in a debug build;
`Panic` says which of the two happened.  In a release build the arithmetic wraps around, as the casts between 32-bit
integers do in both.
-/

inductive Panic
  | missing
  | overflow
deriving DecidableEq, Repr

/-- What a build does about an overflow: a debug build checks the arithmetic, a release build lets it wrap around. -/
inductive Arithmetic
  | checked
  | wrapping
deriving DecidableEq

namespace Checked

open List

/-- `map[&key]`, `unwrap` and `expect`. -/
def get {α : Type} : Option α → Except Panic α
  | some a => .ok a
  | none => .error .missing

/-- A `u32` after it wrapped around. -/
def wrapU32 (n : Nat) : Nat := n % 2 ^ 32

def addU32 (m : Arithmetic) (a b : Nat) : Except Panic Nat :=
  if a + b < 2 ^ 32 then .ok (a + b)
  else
    match m with
    | .checked => .error .overflow
    | .wrapping => .ok (wrapU32 (a + b))

/-- The difference of `u32` values, which wraps around. -/
def subU32 (a b : Nat) : Nat := if b ≤ a then a - b else a + 2 ^ 32 - b

def sub (a b : Nat) : Except Panic Nat :=
  if b ≤ a then .ok (a - b) else .error .overflow

/-- The sum of `u32` values. -/
def sumU32 (m : Arithmetic) (l : List Nat) : Except Panic Nat := l.foldlM (addU32 m) 0

/-- `n as i32` of a `u32`. -/
def asI32 (n : Nat) : Int := if n < 2 ^ 31 then n else n - 2 ^ 32

/-- `n as u32` of an `i32`. -/
def asU32 (n : Int) : Nat := (n % 2 ^ 32).toNat

variable {α β ε : Type}

@[simp] theorem get_some (a : α) : get (some a) = .ok a := rfl

@[simp] theorem ok_bind (a : α) (f : α → Except ε β) : (Except.ok a >>= f) = f a := rfl

theorem bind_eq_ok {x} {f : α → Except ε β} {b} :
    (x >>= f) = .ok b ↔ ∃ a, x = .ok a ∧ f a = .ok b := by
  cases x with
  | error | ok => simp [bind, Except.bind]

theorem bind_eq_error {x} {f : α → Except ε β} {e} :
    (x >>= f) = .error e ↔ x = .error e ∨ ∃ a, x = .ok a ∧ f a = .error e := by
  cases x with
  | error | ok => simp [bind, Except.bind]

/-- The program panics on overflow at most, and its result satisfies `P`. -/
def Safe (r : Except Panic α) (P : α → Prop) : Prop :=
  match r with
  | .ok a => P a
  | .error p => p = .overflow

namespace Safe

variable {P : α → Prop} {r : Except Panic α}

theorem of_ok {a} (h : Safe r P) (hr : r = .ok a) : P a := by
  rw [hr] at h
  exact h

theorem of_eq {a} (hr : r = .ok a) (ha : P a) : Safe r P := by
  rw [hr]
  exact ha

theorem of_error {p} (h : Safe r P) (hr : r = .error p) : p = .overflow := by
  rw [hr] at h
  exact h

theorem mono {Q : α → Prop} (h : Safe r P) (hPQ : ∀ a, P a → Q a) : Safe r Q := by
  cases r with
  | ok a => exact hPQ a h
  | error => exact h

protected theorem bind {Q : β → Prop} {f : α → Except Panic β} (h : Safe r P) (hf : ∀ a, P a → Safe (f a) Q) :
    Safe (r >>= f) Q := by
  cases r with
  | ok a => exact hf a h
  | error p => exact h

/-- The invariant rule for a loop over a list: `I` takes what is left of the list. -/
protected theorem foldlM {f : β → α → Except Panic β} {I : List α → β → Prop}
    (hf : ∀ a l b, I (a :: l) b → Safe (f b a) (I l)) {l : List α} {b : β} (hb : I l b) :
    Safe (l.foldlM f b) (I []) := by
  induction l generalizing b with
  | nil => exact hb
  | cons a l ih =>
    rw [foldlM_cons]
    exact (hf a l b hb).bind fun b' hb' => ih hb'

theorem mapM {Q : β → Prop} {f : α → Except Panic β} {l : List α} (h : ∀ a ∈ l, Safe (f a) Q) :
    Safe (l.mapM f) fun l' => ∀ b ∈ l', Q b := by
  induction l with
  | nil => exact fun b hb => absurd hb not_mem_nil
  | cons a _ ih =>
    rw [mapM_cons]
    refine (h a mem_cons_self).bind fun b hb => ?_
    refine (ih fun a ha => h a (mem_cons_of_mem _ ha)).bind fun l' hl' => ?_
    exact forall_mem_cons.mpr ⟨hb, hl'⟩

/-- A loop with an invariant and a measure that every round decreases ends by itself. -/
protected theorem runM {step : α → Except Panic (Option α)} {I : α → Prop} (m : α → Nat)
    (hstep : ∀ a, I a → Safe (step a) fun r => ∀ a', r = some a' → I a' ∧ m a' < m a) {fuel : Nat} {a : α} (ha : I a)
    (hm : m a < fuel) : Safe (Loop.runM step fuel a) fun a' => I a' ∧ step a' = .ok none := by
  induction fuel generalizing a with
  | zero => omega
  | succ fuel ih =>
    rw [Loop.runM]
    have hsafe := hstep a ha
    rcases hr : step a with p | r
    · exact hsafe.of_error hr
    have hnext := hsafe.of_ok hr
    cases r with
    | none => exact ⟨ha, hr⟩
    | some a' =>
      obtain ⟨ha', hlt⟩ := hnext a' rfl
      exact ih ha' (by omega)

end Safe

theorem wrapU32_of_lt {n : Nat} (h : n < 2 ^ 32) : wrapU32 n = n := Nat.mod_eq_of_lt h

theorem wrapU32_lt (n : Nat) : wrapU32 n < 2 ^ 32 := Nat.mod_lt _ (by decide)

theorem subU32_of_le {a b : Nat} (h : b ≤ a) : subU32 a b = a - b := if_pos h

/-- Where nothing wraps around, both builds add up to the sum. -/
theorem addU32_safe {m} {a b : Nat} (h : m = .wrapping → a + b < 2 ^ 32) :
    Safe (addU32 m a b) fun n => n = a + b ∧ n < 2 ^ 32 := by
  unfold addU32
  split
  · exact ⟨rfl, ‹_›⟩
  · cases m with
    | checked => rfl
    | wrapping => exact absurd (h rfl) ‹_›

theorem addU32_wrap (m : Arithmetic) (a b : Nat) : Safe (addU32 m a b) (· = wrapU32 (a + b)) := by
  unfold addU32
  split
  · exact (wrapU32_of_lt ‹_›).symm
  · cases m <;> rfl

theorem sumU32_wrap (m : Arithmetic) (l : List Nat) : Safe (sumU32 m l) (· = wrapU32 l.sum) := by
  refine (Safe.foldlM (I := fun rest n => n < 2 ^ 32 ∧ wrapU32 (n + rest.sum) = wrapU32 l.sum)
    (fun a rest n hn => ?_) ⟨by decide, congrArg _ (Nat.zero_add _)⟩).mono fun n hn => ?_
  · refine (addU32_wrap m n a).mono ?_
    rintro _ rfl
    refine ⟨wrapU32_lt _, ?_⟩
    rw [← hn.2, sum_cons, wrapU32, wrapU32, wrapU32]
    omega
  · rw [← hn.2, sum_nil, Nat.add_zero, wrapU32_of_lt hn.1]

theorem mapM_ok {f : α → Except Panic β} {g : α → β} {l : List α} (h : ∀ a ∈ l, f a = .ok (g a)) :
    l.mapM f = .ok (l.map g) := by
  induction l with
  | nil => rfl
  | cons a _ ih =>
    rw [mapM_cons, h a mem_cons_self, ih fun a ha => h a (mem_cons_of_mem _ ha)]
    rfl

/-- What `mapM` returns, where every element can only give one result. -/
theorem mapM_eq_map {f : α → Except Panic β} {g : α → β} {l : List α} {bs : List β} (hf : ∀ a b, f a = .ok b → b = g a)
    (h : l.mapM f = .ok bs) : bs = l.map g := by
  induction l generalizing bs with
  | nil =>
    cases h
    rfl
  | cons a _ ih =>
    rw [mapM_cons] at h
    obtain ⟨b, hb, h⟩ := bind_eq_ok.mp h
    obtain ⟨_, hbs', h⟩ := bind_eq_ok.mp h
    cases h
    rw [map_cons, ← ih hbs', hf a b hb]

theorem asI32_of_lt {n : Nat} (h : n < 2 ^ 31) : asI32 n = n := if_pos h

end Checked
