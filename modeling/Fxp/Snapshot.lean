import Fxp.Console

/-!
# Snapshots of the book

A snapshot has a level for every price at which orders rest, the best price first. The size of a level is a sum of
`u32` values that is then cast to an `i32`: it is the displayed quantity as long as that is below `2 ^ 31`
(`snapshot_exact`), which no rule of the engine sees to.
-/

namespace Fxp

open Checked OrderBook Console List

variable {R : Type}

/-- The level of a snapshot for a price with the given displayed quantity. -/
def mdLevel (side : OrderSide) (l : Int × Nat) : MdLevel :=
  { price := l.1, size := asI32 (wrapU32 l.2), side := sideToProto side }

/-- The levels of one side with their displayed quantities, the lowest price first. -/
def OrderBook.shownLevels (b : OrderBook) (side : OrderSide) : List (Int × Nat) :=
  (b.levels side).toList.map fun l => (l.1, (l.2.map b.visible).sum)

theorem snapshot_eq {b m now snap} (h : snapshot m b now = .ok snap) :
    snap = { symbol := b.symbol, bidLevels := ((b.shownLevels .buy).reverse.map (mdLevel .buy))
             askLevels := (b.shownLevels .sell).map (mdLevel .sell), timestamp := now } := by
  obtain ⟨_, hlevels, h⟩ := bind_eq_ok.mp h
  obtain ⟨_, hbids, hlevels⟩ := bind_eq_ok.mp hlevels
  obtain ⟨_, hasks, hlevels⟩ := bind_eq_ok.mp hlevels
  cases hlevels
  cases h
  rw [levelSizes_eq hbids, levelSizes_eq hasks]
  simp only [shownLevels, map_map, ← map_reverse]
  rfl

private theorem shownLevels_increasing (b : OrderBook) (side : OrderSide) :
    ((b.shownLevels side).map Prod.fst).Pairwise (· < ·) := by
  have hkeys : (b.shownLevels side).map Prod.fst = (b.levels side).keys := by
    rw [shownLevels, map_map, ← Std.ExtTreeMap.map_fst_toList_eq_keys]
    rfl
  rw [hkeys]
  exact (b.levels side).ordered_keys.imp fun h => Std.compare_eq_lt.mp h

theorem OrderBook.WF.shownLevels {b : OrderBook} (h : b.WF) {side : OrderSide} {l : Int × Nat}
    (hl : l ∈ b.shownLevels side) : l.2 = ((b.queue side l.1).map b.visible).sum ∧ 0 < l.2 := by
  obtain ⟨⟨p, orders⟩, hlevel, rfl⟩ := mem_map.mp hl
  rw [Std.ExtTreeMap.mem_toList_iff_getElem?_eq_some] at hlevel
  have hqueue : b.queue side p = orders := by
    rw [queue, Levels.queue, hlevel]
    rfl
  simp only [hqueue, true_and]
  rcases orders with _ | ⟨o, orders⟩
  · exact absurd hlevel (h.noEmpty side p)
  have hmem : o ∈ b.queue side p := by
    rw [hqueue]
    exact mem_cons_self
  obtain ⟨-, _, -⟩ := h.visible_eq (h.lookup_of_mem hmem)
  rw [map_cons, sum_cons]
  omega

theorem FitsWire.lt {b} (h : FitsWire b) {side l} (hl : l ∈ b.shownLevels side) :
    l.2 < 2 ^ 31 := by
  obtain ⟨level, hlevel, rfl⟩ := mem_map.mp hl
  exact h side (by cases side <;> simp) level hlevel

/-- What a snapshot says of one side: the prices are in strict order, and the sizes are those of the book. -/
def Exact (b : OrderBook) (side : OrderSide) (levels : List MdLevel) : Prop :=
  (levels.map MdLevel.price).Pairwise (fun p q => match side with | .buy => q < p | .sell => p < q) ∧
    ∀ l ∈ levels, 0 < l.size ∧ l.size = (((b.queue side l.price).map b.visible).sum : Nat)

private theorem exact_level {b : OrderBook} (hwf : b.WF) (hfits : FitsWire b) {side : OrderSide} {l : Int × Nat}
    (hl : l ∈ b.shownLevels side) : 0 < (mdLevel side l).size ∧
      (mdLevel side l).size = (((b.queue side (mdLevel side l).price).map b.visible).sum : Nat) := by
  obtain ⟨hsum, hpos⟩ := hwf.shownLevels hl
  have hlt := FitsWire.lt hfits hl
  rw [mdLevel, wrapU32_of_lt (by omega), asI32_of_lt hlt]
  constructor
  · exact Int.natCast_pos.mpr hpos
  · exact congrArg Nat.cast hsum

/-- As long as no level displays `2 ^ 31` or more, the levels of a snapshot are in order and have the displayed
quantity of their orders. -/
theorem snapshot_exact {cfg : Settings} {e : Engine R} {out : List (Output R)}
    {clock : Clock} {owner : R} {c₀ c : Call R}
    (h : Run anyCall (Engine.new cfg) e out)
    (htick : e.tick (clock .advance) = .ok c₀) (hfits : FitsWire c₀.engine.book)
    (hsub : c₀.handle clock (.subscribe owner) = .ok c) :
    ∃ snap rest, c.out = c₀.out ++ .snapshot owner snap :: rest ∧
      Exact c₀.engine.book .buy snap.bidLevels ∧ Exact c₀.engine.book .sell snap.askLevels := by
  have hsound := h.sound (.new ..)
  obtain ⟨_, hticked⟩ := (tick_safe hsound _).of_ok htick
  have hsound₀ := hticked.sound hsound
  obtain ⟨snap, rest, hsnap, hout, -⟩ := subscribe_eq hsound₀ hsub
  have hwf : c₀.engine.book.WF := hsound₀.book
  refine ⟨snap, rest, hout, ?_⟩
  rw [snapshot_eq hsnap]
  have hprices : ∀ side (l : List (Int × Nat)), (l.map (mdLevel side)).map MdLevel.price = l.map Prod.fst := by
    intro side l
    rw [map_map]
    rfl
  refine ⟨⟨?_, fun l hl => ?_⟩, ⟨?_, fun l hl => ?_⟩⟩
  · rw [hprices, map_reverse, pairwise_reverse]
    exact shownLevels_increasing _ .buy
  · obtain ⟨_, hx, rfl⟩ := mem_map.mp hl
    exact exact_level hwf hfits (mem_reverse.mp hx)
  · rw [hprices]
    exact shownLevels_increasing _ .sell
  · obtain ⟨_, hx, rfl⟩ := mem_map.mp hl
    exact exact_level hwf hfits hx

/-- Two orders on one price, and one on another. -/
theorem snapshot_exact_levels : ∃ e out, ∃ c₀ c : Call Nat, Run anyCall (Engine.sample none) e out ∧
    ∃ snap rest, c.out = c₀.out ++ .snapshot 0 snap :: rest ∧ snap.bidLevels.map (fun l => (l.price, l.size)) =
      [(100, 7), (99, 5)] ∧ Exact c₀.engine.book .buy snap.bidLevels := by
  obtain ⟨e, out, hrun, hrest⟩ := Run.of_computed anyCall (Engine.sample none)
    [orderAt 1 "A" "a" .buy 100 4, orderAt 1 "B" "b" .buy 99 5,
      (.at 1, .newOrder { NewOrderSingle.sample "C" "b" .buy 100 9 with displayQuantity := 3 } 0)]
    (fun e _ => (match e.tick (Clock.at 2 .advance) with
      | .error _ => false
      | .ok c₀ => decide (FitsWire c₀.engine.book) &&
        match c₀.handle (.at 2) (.subscribe 0) with
        | .error _ => false
        | .ok c => decide (((c.out.drop c₀.out.length).head?.any fun o => match o with
          | .snapshot _ snap => decide (snap.bidLevels.map (fun l => (l.price, l.size)) = [(100, 7), (99, 5)])
          | _ => false) = true)) = true) (by decide +kernel)
  split at hrest
  · cases hrest
  rename_i c₀ htick
  rw [Bool.and_eq_true, decide_eq_true_eq] at hrest
  obtain ⟨hfits, hrest⟩ := hrest
  split at hrest
  · cases hrest
  rename_i c hsub
  obtain ⟨snap, rest, hout, hexact, -⟩ := snapshot_exact hrun htick hfits hsub
  refine ⟨e, out, c₀, c, hrun, snap, rest, hout, ?_, hexact⟩
  rw [hout, drop_left] at hrest
  exact of_decide_eq_true (of_decide_eq_true hrest)

/-- Two orders of the greatest quantity on one price: the snapshot gives its size as `-2`. -/
theorem snapshot_negative : ∃ (e : Engine Nat) (out : List (Output Nat)) (owner : Nat) (snap : MdSnapshot),
    Run anyCall (Engine.sample none) e out ∧ .snapshot owner snap ∈ out ∧
      snap.bidLevels.map (fun l => (l.price, l.size)) = [(100, -2)] ∧
      ((e.book.queue .buy 100).map e.book.visible).sum = 4294967294 := by
  obtain ⟨e, out, hrun, hsum, hsnap⟩ := Run.of_computed anyCall (Engine.sample none)
    [orderAt 1 "A" "a" .buy 100 2147483647,
      orderAt 2 "B" "b" .buy 100 2147483647, (.at 3, .subscribe 0)]
    (fun e out => ((e.book.queue .buy 100).map e.book.visible).sum = 4294967294 ∧ (out.any fun o => match o with
      | .snapshot _ snap => decide (snap.bidLevels.map (fun l => (l.price, l.size)) = [(100, -2)])
      | _ => false) = true) (by decide +kernel)
  obtain ⟨_, ho, hlevels⟩ := any_eq_true.mp hsnap
  split at hlevels
  · rename_i owner snap
    exact ⟨e, out, owner, snap, hrun, ho, of_decide_eq_true hlevels, hsum⟩
  · cases hlevels

end Fxp
