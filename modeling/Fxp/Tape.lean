import Fxp.Proto
import Mathlib

/-!
# The trade tape of the console

The console takes the public trades of a symbol by their numbers: one below the expected number is dropped, one above
it shows how many were lost. `Tape.Took` says what a tape has after any sequence of trades.
-/

namespace Fxp.Web

open List

structure Print where
  key : String
  seq : Nat
  price : Int
  qty : Int
  aggressor : Int32
  auction : Bool
  timeMs : Int

/-- `expected` is `0` until the first print. -/
structure Tape where
  prints : List Print := []
  expected : Nat := 0
  lastPrice : Option Int := none
  firstPrice : Option Int := none
  previousPrice : Option Int := none
  volume : Int := 0
  gapCount : Nat := 0
  missed : Nat := 0
  lastGap : Option (Nat × Nat) := none
  stale : Nat := 0

def resyncTape (tape : Tape) : Tape := { tape with expected := 0 }

def timeMs (t : Time) : Int := t.seconds * 1000 + t.nanos / 1000000

def printOf (tr : TradeCaptureReport) : Print :=
  { key := tr.symbol ++ ":" ++ toString tr.seq, seq := tr.seq, price := tr.tradePrice, qty := tr.tradeQuantity
    aggressor := tr.aggressorSide, auction := tr.isAuction, timeMs := timeMs tr.timestamp }

def applyTrade (tape : Tape) (tr : TradeCaptureReport) : Tape × Bool :=
  if tape.expected ≠ 0 ∧ tr.seq < tape.expected then ({ tape with stale := tape.stale + 1 }, false)
  else
    let gap : Bool := tape.expected ≠ 0 && tape.expected < tr.seq
    ({ tape with
        gapCount := if gap then tape.gapCount + 1 else tape.gapCount
        missed := if gap then tape.missed + (tr.seq - tape.expected) else tape.missed
        lastGap := if gap then some (tape.expected, tr.seq - 1) else tape.lastGap
        expected := tr.seq + 1, firstPrice := tape.firstPrice.or (some tr.tradePrice), previousPrice := tape.lastPrice
        lastPrice := some tr.tradePrice, volume := tape.volume + tr.tradeQuantity
        prints := (printOf tr :: tape.prints).take 200 }, true)

/-- From `t₀` on the trades `all` came, the tape took `kept` of them, and it is `t` now. -/
structure Tape.Took (t₀ : Tape) (all kept : List TradeCaptureReport) (t : Tape) : Prop where
  sublist : kept.Sublist all
  increasing : kept.Pairwise (·.seq < ·.seq)
  whole : all.Pairwise (·.seq < ·.seq) → kept = all
  before : ∀ x ∈ kept, x.seq < t.expected
  none : kept = [] → t.expected = 0 ∧ t.missed = t₀.missed
  last : ∀ x, kept.getLast? = some x → t.expected = x.seq + 1
  missed : ∀ x, kept.head? = some x → t.missed + kept.length + x.seq = t₀.missed + t.expected
  stale : t.stale + kept.length = t₀.stale + all.length
  volume : t.volume = t₀.volume + (kept.map (·.tradeQuantity)).sum
  prints : t.prints.take 200 = (kept.reverse.map printOf ++ t₀.prints).take 200

theorem Tape.Took.apply {t₀ t all kept} (h : Took t₀ all kept t)
    (tr : TradeCaptureReport) : ∃ kept', Took t₀ (all ++ [tr]) kept' (applyTrade t tr).1 := by
  have hstale := h.stale
  unfold applyTrade
  split
  · -- a number that was passed: there is a last trade, and the trades do not increase
    rename_i hlow
    refine ⟨kept, h.sublist.trans (sublist_append_left ..), h.increasing, fun hall => ?_,
      h.before, h.none, h.last, h.missed, ?_, h.volume, h.prints⟩
    · obtain ⟨hpre, -, hlt⟩ := pairwise_append.mp hall
      obtain rfl := h.whole hpre
      cases hx : kept.getLast? with
      | none => exact absurd (h.none (getLast?_eq_none_iff.mp hx)).1 hlow.1
      | some x =>
        have hexpected := h.last x hx
        have := hlt x (mem_of_getLast? hx) tr mem_cons_self
        omega
    · simp only [length_append, length_singleton]
      omega
  rename_i hhigh
  have hbefore : ∀ x ∈ kept, x.seq < tr.seq := by
    intro x hx
    have := h.before x hx
    omega
  refine ⟨kept ++ [tr], h.sublist.append (.refl _), ?_, fun hall => ?_, fun x hx => ?_, by simp, by simp,
    fun x hx => ?_, ?_, ?_, ?_⟩
  · exact pairwise_append.mpr ⟨h.increasing, pairwise_singleton .., fun x hx y hy => mem_singleton.mp hy ▸ hbefore x hx⟩
  · rw [h.whole (pairwise_append.mp hall).1]
  · rcases mem_append.mp hx with hx | hx
    · exact Nat.lt_succ_of_lt (hbefore x hx)
    · rw [mem_singleton.mp hx]
      exact Nat.lt_succ_self _
  · simp only [length_append, length_singleton]
    cases kept with
    | nil =>
      cases hx
      obtain ⟨hexpected, hmissed⟩ := h.none rfl
      simp [hexpected, hmissed]
      omega
    | cons y kept =>
      have hmissed := h.missed x hx
      have hpos := h.before y mem_cons_self
      simp only [Bool.and_eq_true, decide_eq_true_eq]
      split <;> omega
  · simp only [length_append, length_singleton]
    omega
  · simp [h.volume, Int.add_assoc]
  · rw [reverse_append, reverse_singleton, singleton_append, map_cons, cons_append, take_take, Nat.min_self,
      take_succ_cons, take_succ_cons]
    simpa [take_take] using congrArg (take 199) h.prints

/-- Whatever trades come after a resynchronisation: the tape takes some, with increasing numbers, and all that come in
order. Volume and prints are theirs, the others are stale, and `missed` counts the numbers it did not get. -/
theorem tape_accounts (t₀ : Tape) (all : List TradeCaptureReport) :
    ∃ kept, Tape.Took (resyncTape t₀) all kept (all.foldl (fun t tr => (applyTrade t tr).1) (resyncTape t₀)) := by
  induction all using reverseRec with
  | nil => exact ⟨[], .refl _, .nil, fun _ => rfl, by simp, fun _ => ⟨rfl, rfl⟩, by simp, by simp, rfl, by simp, rfl⟩
  | append_singleton all tr ih =>
    obtain ⟨kept, h⟩ := ih
    rw [foldl_append]
    exact h.apply tr

end Fxp.Web
