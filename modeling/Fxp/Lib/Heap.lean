import Fxp.Lib.Loop
import Mathlib

/-!
# Binary heaps in a list

A heap is a list in which the children of position `i` are at `2 * i + 1` and `2 * i + 2`. `push` puts an element at
the end and moves it up; `pop` exchanges the root with the last element, moves that one down and takes the old root
off the end.
-/

namespace Heap

variable {α : Type*} (less : α → α → Bool)

def swap (i j : Nat) (l : List α) : List α :=
  match l[i]?, l[j]? with
  | some a, some b => (l.set i b).set j a
  | _, _ => l

def lessAt (l : List α) (i j : Nat) : Bool :=
  match l[i]?, l[j]? with
  | some a, some b => less a b
  | _, _ => false

/-- One round of moving an element up: it changes places with its parent. -/
def upStep : List α × Nat → Option (List α × Nat)
  | (l, j) =>
    let i := (j - 1) / 2
    if i = j || !lessAt less l j i then none else some (swap i j l, i)

def push (l : List α) (x : α) : List α := (Loop.run (upStep less) (l.length + 1) (l ++ [x], l.length)).1

/-- The smaller child of `i` among the first `n` elements. -/
def child (l : List α) (n i : Nat) : Nat :=
  if 2 * i + 2 < n && lessAt less l (2 * i + 2) (2 * i + 1) then 2 * i + 2 else 2 * i + 1

/-- One round of moving an element down among the first `n`. -/
def downStep (n : Nat) : List α × Nat → Option (List α × Nat)
  | (l, i) =>
    if n ≤ 2 * i + 1 || !lessAt less l (child less l n i) i then none
    else some (swap i (child less l n i) l, child less l n i)

def down (n : Nat) (l : List α) : List α := (Loop.run (downStep less n) n (l, 0)).1

def pop (l : List α) : Option (α × List α) :=
  let n := l.length - 1
  let l := down less n (swap 0 n l)
  l.getLast?.map fun x => (x, l.dropLast)

@[simp] theorem length_swap (i j : Nat) (l : List α) : (swap i j l).length = l.length := by
  unfold swap
  split <;> simp

theorem getElem?_swap_of_ne {i j k : Nat} (l : List α) (hi : i ≠ k) (hj : j ≠ k) : (swap i j l)[k]? = l[k]? := by
  unfold swap
  split
  · rw [List.getElem?_set_ne hj, List.getElem?_set_ne hi]
  · rfl

theorem child_lt {l} {n i : Nat} (h : 2 * i + 1 < n) : i < child less l n i ∧ child less l n i < n := by
  unfold child
  split
  · rename_i hchild
    rw [Bool.and_eq_true, decide_eq_true_eq] at hchild
    omega
  · omega

theorem down_spec (n : Nat) (l : List α) :
    (down less n l).length = l.length ∧ ∀ k, n ≤ k → (down less n l)[k]? = l[k]? := by
  refine Loop.run_induct (P := fun s : List α × Nat => s.1.length = l.length ∧ ∀ k, n ≤ k → s.1[k]? = l[k]?) ?_ n
    ⟨rfl, fun _ _ => rfl⟩
  rintro ⟨l₁, i⟩ ⟨_, _⟩ ⟨hlength, hsame⟩ hstep
  rw [downStep] at hstep
  split at hstep
  · cases hstep
  rename_i hgo
  cases hstep
  have hn : 2 * i + 1 < n := by
    by_contra hn
    exact hgo (by rw [decide_eq_true (by omega), Bool.true_or])
  obtain ⟨_, _⟩ := child_lt less (l := l₁) hn
  refine ⟨(length_swap ..).trans hlength, fun k hk => ?_⟩
  rw [← hsame k hk]
  exact getElem?_swap_of_ne _ (by omega) (by omega)

theorem pop_cons (x : α) (l : List α) : ∃ l', pop less (x :: l) = some (x, l') ∧ l'.length = l.length := by
  obtain ⟨hlength, hsame⟩ := down_spec less l.length (swap 0 l.length (x :: l))
  have hlast : (swap 0 l.length (x :: l))[l.length]? = some x := by
    rcases h : (x :: l)[l.length]? with _ | _
    · simp at h
    unfold swap
    rw [List.getElem?_cons_zero, h]
    simp
  rw [length_swap, List.length_cons] at hlength
  refine ⟨(down less l.length (swap 0 l.length (x :: l))).dropLast, ?_, by rw [List.length_dropLast, hlength]; rfl⟩
  simp only [pop, List.length_cons, Nat.add_sub_cancel]
  rw [List.getLast?_eq_getElem?, hlength, Nat.add_sub_cancel, hsame _ (Nat.le_refl _), hlast]
  rfl

end Heap
