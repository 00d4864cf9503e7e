import Mathlib

/-!
# Running sums

A balance is fed from three queues of changes that are sent one after the other: first all of `a`, then all of `b`,
then all of `c`.
-/

namespace Prefixes

open List

/-- Every running sum of the changes, starting at `k`, is at least `m`. -/
def AtLeast (m k : Int) (l : List Int) : Prop := ∀ l', l' <+: l → m ≤ k + l'.sum

theorem AtLeast.nil {m k : Int} : AtLeast m k [] ↔ m ≤ k := by
  constructor
  · intro h
    simpa using h [] (prefix_refl _)
  · intro h l' hl'
    simpa [prefix_nil.mp hl'] using h

theorem AtLeast.cons {m k d : Int} {l} : AtLeast m k (d :: l) ↔ m ≤ k ∧ AtLeast m (k + d) l := by
  constructor
  · intro h
    refine ⟨by simpa using h [] nil_prefix, fun l' hl' => ?_⟩
    have := h (d :: l') (cons_prefix_cons.mpr ⟨rfl, hl'⟩)
    rw [sum_cons] at this
    omega
  · rintro ⟨hk, h⟩ l' hl'
    rcases l' with _ | ⟨_, l'⟩
    · simpa using hk
    obtain ⟨rfl, htail⟩ := cons_prefix_cons.mp hl'
    have := h l' htail
    rw [sum_cons]
    omega

theorem AtLeast.append {m k : Int} {l l'} : AtLeast m k (l ++ l') ↔ AtLeast m k l ∧ AtLeast m (k + l.sum) l' := by
  induction l generalizing k with
  | nil =>
    simp only [nil_append, sum_nil, Int.add_zero, AtLeast.nil]
    exact ⟨fun h => ⟨by simpa using h [] nil_prefix, h⟩, fun h => h.2⟩
  | cons _ _ ih =>
    rw [cons_append, AtLeast.cons, AtLeast.cons, ih, sum_cons, and_assoc, Int.add_assoc]

theorem AtLeast.mono {m m' k k' : Int} {l} (h : AtLeast m k l) (hm : m' - k' ≤ m - k) : AtLeast m' k' l := by
  intro l' hl'
  have := h l' hl'
  omega

theorem AtLeast.sum {m k : Int} {l} (h : AtLeast m k l) : m ≤ k + l.sum := h l (prefix_refl _)

theorem AtLeast.of_nonpos {m k : Int} {l} (hl : ∀ d ∈ l, d ≤ 0) (h : m ≤ k + l.sum) : AtLeast m k l := by
  induction l generalizing k with
  | nil => exact AtLeast.nil.mpr (by simpa using h)
  | cons d l ih =>
    have hd := hl d mem_cons_self
    rw [sum_cons] at h
    have htail : AtLeast m (k + d) l := ih (fun d hd => hl d (mem_cons_of_mem _ hd)) (by omega)
    have hstart : m ≤ k + d := by simpa using htail [] nil_prefix
    exact AtLeast.cons.mpr ⟨by omega, htail⟩

/-- What is waiting in the three queues can be sent. -/
structure Covered (floor k : Int) (a b c : List Int) : Prop where
  first : AtLeast 0 k a
  second : ∀ d ∈ b, d ≤ 0
  third : AtLeast floor (k + a.sum + b.sum) c

namespace Covered

variable {floor floor' k : Int} {a b c : List Int}

theorem sent (h : Covered floor k a b c) (hfloor : 0 ≤ floor) : AtLeast 0 k (a ++ b ++ c) := by
  have hthird : AtLeast 0 (k + a.sum + b.sum) c := h.third.mono (by omega)
  have hsecond : AtLeast 0 (k + a.sum) b := .of_nonpos h.second (by simpa using hthird [] nil_prefix)
  rw [AtLeast.append, AtLeast.append, sum_append, ← Int.add_assoc]
  exact ⟨⟨h.first, hsecond⟩, hthird⟩

theorem add (h : Covered floor k a b c) {d : Int} (hd : 0 ≤ d) (hfloor : floor' ≤ floor + d) :
    Covered floor' k (a ++ [d]) b c := by
  have hsum := h.first.sum
  refine ⟨AtLeast.append.mpr ⟨h.first, AtLeast.cons.mpr ⟨hsum, AtLeast.nil.mpr (by omega)⟩⟩, h.second, ?_⟩
  refine h.third.mono ?_
  rw [sum_append, sum_singleton]
  omega

theorem cut (h : Covered floor k a b c) {d : Int} (hd : d ≤ 0) (hfloor : floor' ≤ floor + d) :
    Covered floor' k a (b ++ [d]) c := by
  refine ⟨h.first, fun d' hd' => ?_, ?_⟩
  · rcases mem_append.mp hd' with hold | hnew
    · exact h.second d' hold
    · rwa [mem_singleton.mp hnew]
  · refine h.third.mono ?_
    rw [sum_append, sum_singleton]
    omega

theorem extend (h : Covered floor k a b c) {l} (hfloor : floor' ≤ floor)
    (hl : AtLeast floor' (k + a.sum + b.sum + c.sum) l) : Covered floor' k a b (c ++ l) :=
  ⟨h.first, h.second, AtLeast.append.mpr ⟨h.third.mono (by omega), hl⟩⟩

theorem drop (h : Covered floor k [] [] []) {d : Int} (hk : 0 ≤ k + d) (hfloor : floor' ≤ k + d) :
    Covered floor' k [d] [] [] := by
  have hstart := AtLeast.nil.mp h.first
  refine ⟨AtLeast.cons.mpr ⟨hstart, AtLeast.nil.mpr hk⟩, fun d hd => absurd hd not_mem_nil, AtLeast.nil.mpr ?_⟩
  simpa using hfloor

end Covered

end Prefixes
