import Fxp.BookSpec

/-!
# What a matching step does

A step of the passive loop prints a trade between the displayed slices at the heads of the best levels, or cuts the
orders of a prevented self-match. Either way the two orders are edited one after the other.
-/

namespace Fxp.OrderBook

variable {b b' : OrderBook} {o : Order}
variable {left : Option (Nat × Nat)} {traded : Nat}

/-- Whether a fill that leaves `n` of an order and `v` of its slice makes it show the next slice. -/
def refreshed (o : Order) (n v : Nat) : Bool := n ≠ 0 && o.displayQuantity ≠ 0 && v = 0

/-- The level of `o` once its head `o` is left with `n`, at the back or at the front. -/
def settled (o : Order) (rest : List Order) (n : Nat) (back : Bool) : List Order :=
  if n = 0 then rest else if back then rest ++ [o.withQuantity n] else o.withQuantity n :: rest

/-- An edit of the head of a level, with its new place. -/
structure HeadEdit (b : OrderBook) (o : Order) (rest : List Order) (left : Option (Nat × Nat)) (traded : Nat)
    (back : Bool) (b' : OrderBook) : Prop extends Edited b o left traded b' where
  queue : b'.queue o.side o.price = settled o rest (left.elim 0 Prod.fst) back

private theorem settled_requeued {rest} (hq : b.queue o.side o.price = o :: rest)
    (hne : ∀ x ∈ rest, x.orderId ≠ o.orderId) (hleft : ∀ l, left = some l → l.1 ≠ 0)
    (back : Bool) :
    b.Requeued o (left.map fun l => o.withQuantity l.1) (settled o rest (left.elim 0 Prod.fst) back) := by
  rcases left with _ | l
  · exact requeued_none hq hne
  rw [Option.elim_some, Option.map_some, settled, if_neg (hleft l rfl)]
  split
  · exact requeued_back hq hne l.1
  · exact requeued_front hq hne l.1

theorem TableEdit.headEdit {rest} {back : Bool}
    (h : TableEdit b o left traded b') (hwf : b.WF) (hq : b.queue o.side o.price = o :: rest)
    (hleft : ∀ l, left = some l → l.1 ≠ 0)
    (hqueue : ∀ s p, b'.queue s p =
      if o.side = s ∧ o.price = p then settled o rest (left.elim 0 Prod.fst) back else b.queue s p)
    (hempty : b'.NoEmpty) : HeadEdit b o rest left traded back b' where
  toEdited := h.edited hqueue hempty (settled_requeued hq (hwf.head hq).2.2.2 hleft back)
  queue := by rw [hqueue, if_pos ⟨rfl, rfl⟩]

theorem afterFill_pos {n v : Nat} : ∀ l, afterFill o n v = some l → l.1 ≠ 0 := by
  intro l h
  unfold afterFill at h
  split at h
  · cases h
  · cases h
    assumption

theorem afterCut_pos {n v : Nat} : ∀ l, afterCut n v = some l → l.1 ≠ 0 := by
  intro l h
  unfold afterCut at h
  split at h
  · cases h
  · cases h
    assumption

@[simp] theorem afterFill_elim (o : Order) (n v : Nat) : (afterFill o n v).elim 0 Prod.fst = n := by
  unfold afterFill
  split <;> simp_all

@[simp] theorem afterCut_elim (n v : Nat) : (afterCut n v).elim 0 Prod.fst = n := by
  unfold afterCut
  split <;> simp_all

section requeue

variable (b : OrderBook) (o : Order) (back : Bool)

@[simp] theorem requeue_orderLookup : (b.requeue o back).orderLookup = b.orderLookup := by
  rw [requeue_eq]
  split <;> simp

@[simp] theorem requeue_displayed : (b.requeue o back).displayed = b.displayed := by
  rw [requeue_eq]
  split <;> simp

@[simp] theorem requeue_cumFilled : (b.requeue o back).cumFilled = b.cumFilled := by
  rw [requeue_eq]
  split <;> simp

@[simp] theorem requeue_arrival : (b.requeue o back).arrival = b.arrival := by
  rw [requeue_eq]
  split <;> simp

@[simp] theorem requeue_symbol : (b.requeue o back).symbol = b.symbol := by
  rw [requeue_eq]
  split <;> simp

@[simp] theorem requeue_stp : (b.requeue o back).stp = b.stp := by
  rw [requeue_eq]
  split <;> simp

theorem NoEmpty.requeue {b : OrderBook} (h : b.NoEmpty) : (b.requeue o back).NoEmpty := by
  rw [requeue_eq]
  split
  · exact h
  · exact h.withQueue _ _ _

private theorem queue_requeue (n : Nat) (s : OrderSide) (p : Int) :
    (b.requeue (o.withQuantity n) back).queue s p =
      if o.side = s ∧ o.price = p then settled o (b.queue s p) n back else b.queue s p := by
  rw [requeue_eq]
  by_cases hn : n = 0
  · rw [if_pos (show (o.withQuantity n).quantity = 0 from hn)]
    split <;> simp [settled, hn]
  rw [if_neg (show ¬ (o.withQuantity n).quantity = 0 from hn), queue_withQueue, settled, if_neg hn]
  by_cases h : o.side = s ∧ o.price = p
  · rw [if_pos h, if_pos (show (o.withQuantity n).side = s ∧ (o.withQuantity n).price = p from h)]
    obtain ⟨rfl, rfl⟩ := h
    rfl
  · rw [if_neg h, if_neg (show ¬ ((o.withQuantity n).side = s ∧ (o.withQuantity n).price = p) from h)]

end requeue

/-- Showing the next slice of one order does not interfere with the tables of another. -/
theorem TableEdit.replenish_other {x} (h : TableEdit b o left traded b') (hne : x.orderId ≠ o.orderId)
    (hkept : Kept (b'.replenish x).1.orderLookup (b'.replenish x).1.arrival (b'.replenish x).1.cumFilled) :
    TableEdit (b.replenish x).1 o left traded (b'.replenish x).1 where
  lookup id := by rw [replenish_orderLookup, replenish_orderLookup, h.lookup]
  displayed id := by
    have hvis : b'.refreshes x = b.refreshes x := by
      rw [refreshes, refreshes, visible, visible, h.displayed, if_neg (Ne.symm hne)]
    rw [replenish_displayed, replenish_displayed, hvis, h.displayed]
    by_cases hid : o.orderId = id
    · rw [if_neg (fun hx => hne (hx.2.trans hid.symm)), if_pos hid, if_pos hid]
    · rw [if_neg hid, if_neg hid]
  cumFilled id := by rw [replenish_cumFilled, replenish_cumFilled, h.cumFilled]
  symbol := by rw [replenish_symbol, replenish_symbol, h.symbol]
  kept _ := hkept

theorem replenish_stp (b : OrderBook) (o : Order) : (b.replenish o).1.stp = b.stp := by
  rw [replenish_eq]
  split <;> rfl

theorem TableEdit.refreshes {n v : Nat} (h : TableEdit b o (if n = 0 then none else some (n, v)) traded b') :
    b'.refreshes (o.withQuantity n) = refreshed o n v := by
  by_cases hn : n = 0
  · simp [OrderBook.refreshes, refreshed, hn]
  have hvis : b'.visible (o.withQuantity n) = v := by
    rw [visible, h.displayed, Order.withQuantity_orderId, if_pos rfl, if_neg hn]
    rfl
  rw [OrderBook.refreshes, hvis]
  rfl

theorem replenish_isSome (b : OrderBook) (o : Order) : (b.replenish o).2.isSome = b.refreshes o := by
  rw [replenish_eq]
  split <;> simp [*]

/-- The changes that a list of updates carries. -/
def changesOf (updates : List MarketDataIncrementalUpdate) : List MarketOrderUpdate := updates.flatMap (·.changes)

@[simp] theorem changesOf_nil : changesOf [] = [] := rfl
@[simp] theorem changesOf_append (l l' : List MarketDataIncrementalUpdate) :
    changesOf (l ++ l') = changesOf l ++ changesOf l' := List.flatMap_append ..

def fillChange (o : Order) (q : Nat) : MarketOrderUpdate :=
  { updateType := .modifyOrder, price := o.price, quantity := q, side := o.side }

/-- The change that the next slice of an iceberg publishes. -/
def refreshChange (o : Order) (n v : Nat) : List MarketOrderUpdate :=
  if refreshed o n v then
    [{ updateType := .newOrder, price := o.price, quantity := min n o.displayQuantity, side := o.side }]
  else []

theorem changesOf_replenish (b : OrderBook) {n v : Nat} (h : b.refreshes (o.withQuantity n) = refreshed o n v) :
    changesOf (b.replenish (o.withQuantity n)).2.toList = refreshChange o n v := by
  rw [replenish_eq, refreshChange, h]
  split <;> rfl

/-- The best orders of a crossed book. -/
structure Heads (b : OrderBook) (bidPrice askPrice : Int) (bid : Order) (bidRest : List Order) (ask : Order)
    (askRest : List Order) : Prop where
  bidBest : b.bestPrice .buy = some bidPrice
  askBest : b.bestPrice .sell = some askPrice
  crossed : askPrice ≤ bidPrice
  bidQueue : b.queue .buy bidPrice = bid :: bidRest
  askQueue : b.queue .sell askPrice = ask :: askRest

section heads

variable {bidPrice askPrice : Int} {bid ask : Order} {bidRest askRest : List Order}
  (h : Heads b bidPrice askPrice bid bidRest ask askRest) (hwf : b.WF)
include h hwf

theorem Heads.bid_spec : bid.side = .buy ∧ bid.price = bidPrice ∧ b.orderLookup[bid.orderId]? = some bid ∧
    ∀ x ∈ bidRest, x.orderId ≠ bid.orderId := hwf.head h.bidQueue

theorem Heads.ask_spec : ask.side = .sell ∧ ask.price = askPrice ∧ b.orderLookup[ask.orderId]? = some ask ∧
    ∀ x ∈ askRest, x.orderId ≠ ask.orderId := hwf.head h.askQueue

theorem Heads.orderId_ne : bid.orderId ≠ ask.orderId := by
  intro heq
  have hb := (h.bid_spec hwf).2.2.1
  have ha := (h.ask_spec hwf).2.2.1
  rw [heq, ha, Option.some.injEq] at hb
  have hs := (h.bid_spec hwf).1
  rw [← hb, (h.ask_spec hwf).1] at hs
  cases hs

theorem Heads.queue_popped (s : OrderSide) (p : Int) :
    ((b.withQueue .buy bidPrice bidRest).withQueue .sell askPrice askRest).queue s p =
      if ask.side = s ∧ ask.price = p then askRest
      else if bid.side = s ∧ bid.price = p then bidRest else b.queue s p := by
  rw [queue_withQueue, queue_withQueue, (h.ask_spec hwf).1, (h.ask_spec hwf).2.1, (h.bid_spec hwf).1,
    (h.bid_spec hwf).2.1]

end heads

private theorem queue_requeue_pair {c : OrderBook} {x y : Order} {xRest yRest : List Order} (hside : x.side ≠ y.side)
    (hcq : ∀ s p, c.queue s p =
      if y.side = s ∧ y.price = p then yRest else if x.side = s ∧ x.price = p then xRest else b.queue s p)
    (xn yn : Nat) (xBack yBack : Bool) (s : OrderSide) (p : Int) :
    ((c.requeue (x.withQuantity xn) xBack).requeue (y.withQuantity yn) yBack).queue s p =
      if y.side = s ∧ y.price = p then settled y yRest yn yBack
      else if x.side = s ∧ x.price = p then settled x xRest xn xBack else b.queue s p := by
  rw [queue_requeue, queue_requeue, hcq]
  by_cases hy : y.side = s ∧ y.price = p
  · have hx : ¬ (x.side = s ∧ x.price = p) := fun hx => hside (hx.1.trans hy.1.symm)
    simp only [if_pos hy, if_neg hx]
  by_cases hx : x.side = s ∧ x.price = p
  · simp only [if_neg hy, if_pos hx]
  · simp only [if_neg hy, if_neg hx]

/-- Two heads of opposite sides, taken out, edited and put back: the same as editing them in place. -/
theorem pair_edit {c x y xRest yRest xLeft yLeft} {xTraded yTraded : Nat} {xBack yBack : Bool} (hwf : b.WF)
    (hx : b.queue x.side x.price = x :: xRest)
    (hy : b.queue y.side y.price = y :: yRest) (hside : x.side ≠ y.side) (hxl : ∀ l, xLeft = some l → l.1 ≠ 0)
    (hyl : ∀ l, yLeft = some l → l.1 ≠ 0) (hxfit : Edited.Fits x xLeft) (hxt : TableEdit b x xLeft xTraded c)
    (hyt : TableEdit c y yLeft yTraded b')
    (hcq : ∀ s p, c.queue s p =
      if y.side = s ∧ y.price = p then yRest else if x.side = s ∧ x.price = p then xRest else b.queue s p)
    (hce : c.NoEmpty)
    (hbq : ∀ s p, b'.queue s p =
      if y.side = s ∧ y.price = p then settled y yRest (yLeft.elim 0 Prod.fst) yBack
      else if x.side = s ∧ x.price = p then settled x xRest (xLeft.elim 0 Prod.fst) xBack else b.queue s p)
    (hbe : b'.NoEmpty) :
    ∃ m, HeadEdit b x xRest xLeft xTraded xBack m ∧ HeadEdit m y yRest yLeft yTraded yBack b' := by
  obtain ⟨m, hm⟩ : ∃ m, m = (c.withQueue x.side x.price (settled x xRest (xLeft.elim 0 Prod.fst) xBack)).withQueue
    y.side y.price (y :: yRest) := ⟨_, rfl⟩
  have hmq : ∀ s p, m.queue s p =
      if x.side = s ∧ x.price = p then settled x xRest (xLeft.elim 0 Prod.fst) xBack else b.queue s p := by
    intro s p
    rw [hm, queue_withQueue, queue_withQueue]
    by_cases hyh : y.side = s ∧ y.price = p
    · obtain ⟨rfl, rfl⟩ := hyh
      rw [if_pos ⟨rfl, rfl⟩, if_neg (fun h => hside h.1), hy]
    rw [if_neg hyh]
    by_cases hxh : x.side = s ∧ x.price = p
    · rw [if_pos hxh, if_pos hxh]
    · rw [if_neg hxh, if_neg hxh, hcq, if_neg hyh, if_neg hxh]
  have hme : m.NoEmpty := hm ▸ (hce.withQueue _ _ _).withQueue _ _ _
  have hxm : TableEdit b x xLeft xTraded m := by
    refine hxt.of_fields rfl rfl rfl rfl rfl ?_ ?_ ?_ ?_ ?_ <;> simp [hm]
  have hhead : HeadEdit b x xRest xLeft xTraded xBack m := hxm.headEdit hwf hx hxl hmq hme
  have hmwf : m.WF := hhead.wf hwf (hwf.head hx).2.2.1 hxfit
  have hmy : m.queue y.side y.price = y :: yRest := by
    rw [hmq, if_neg (fun h => hside h.1), hy]
  have hym : TableEdit m y yLeft yTraded b' := by
    refine hyt.of_fields ?_ ?_ ?_ ?_ ?_ rfl rfl rfl rfl rfl <;> simp [hm]
  refine ⟨m, hhead, hym.headEdit hmwf hmy hyl (fun s p => ?_) hbe⟩
  rw [hbq, hmq]

/-- The table operations of a print, in the order of the source: both fills, then both next slices. -/
def pairTables (b : OrderBook) (bid ask : Order) (q : Nat) :
    OrderBook × Option MarketDataIncrementalUpdate × Option MarketDataIncrementalUpdate :=
  let bid' := bid.withQuantity (bid.quantity - q)
  let ask' := ask.withQuantity (ask.quantity - q)
  let filled := (b.syncVisibleFill bid' q (b.visible bid - q)).syncVisibleFill ask' q (b.visible ask - q)
  let bidShown := filled.replenish bid'
  let askShown := bidShown.1.replenish ask'
  (askShown.1, bidShown.2, askShown.2)

private theorem pairTables_spec {bid ask} {q : Nat} (hbid : b.orderLookup[bid.orderId]? = some bid)
    (hask : b.orderLookup[ask.orderId]? = some ask) (hne : bid.orderId ≠ ask.orderId)
    (hkept : Kept b.orderLookup b.arrival b.cumFilled) :
    let bidN := bid.quantity - q
    let askN := ask.quantity - q
    let bidV := b.visible bid - q
    let askV := b.visible ask - q
    (∃ c, TableEdit b bid (afterFill bid bidN bidV) q c ∧
      TableEdit c ask (afterFill ask askN askV) q (b.pairTables bid ask q).1 ∧
      (∀ s, c.levels s = b.levels s) ∧ ∀ s, (b.pairTables bid ask q).1.levels s = b.levels s) ∧
    (b.pairTables bid ask q).2.1.isSome = refreshed bid bidN bidV ∧
    (b.pairTables bid ask q).2.2.isSome = refreshed ask askN askV ∧
    changesOf (b.pairTables bid ask q).2.1.toList = refreshChange bid bidN bidV ∧
    changesOf (b.pairTables bid ask q).2.2.toList = refreshChange ask askN askV ∧
    (b.pairTables bid ask q).1.stp = b.stp := by
  intro bidN askN bidV askV
  have t₁ := syncVisibleFill_spec hbid bidN q bidV
  have hask₁ : (b.syncVisibleFill (bid.withQuantity bidN) q bidV).orderLookup[ask.orderId]? = some ask := by
    rw [t₁.lookup, if_neg hne, hask]
  have t₂ := syncVisibleFill_spec hask₁ askN q askV
  have t₂' := @TableEdit.replenish_other _ _ ask _ _ (bid.withQuantity bidN) t₂ hne
    (replenish_kept _ _ (fun hn => by
      rw [t₂.lookup, if_neg (show ¬ ask.orderId = (bid.withQuantity bidN).orderId from Ne.symm hne), t₁.lookup,
        Order.withQuantity_orderId, if_pos rfl, if_neg (show bidN ≠ 0 from hn)]
      exact Option.some_ne_none _) (t₂.kept (t₁.kept hkept)))
  -- the fill of the offer does not change the slice of the bid
  have href : ((b.syncVisibleFill (bid.withQuantity bidN) q bidV).syncVisibleFill (ask.withQuantity askN) q
      askV).refreshes (bid.withQuantity bidN) = refreshed bid bidN bidV := by
    rw [← t₁.refreshes, refreshes, refreshes, visible, visible, t₂.displayed,
      if_neg (show ¬ ask.orderId = (bid.withQuantity bidN).orderId from Ne.symm hne)]
  refine ⟨⟨_, t₁.replenish, t₂'.replenish, fun s => ?_, fun s => ?_⟩, ?_, ?_, ?_, ?_, ?_⟩
  · rw [replenish_levels, syncVisibleFill_levels]
  · rw [pairTables, replenish_levels, replenish_levels, syncVisibleFill_levels, syncVisibleFill_levels]
  · rw [pairTables, replenish_isSome, href]
  · rw [pairTables, replenish_isSome, t₂'.refreshes]
  · exact changesOf_replenish _ href
  · exact changesOf_replenish _ t₂'.refreshes
  · rw [pairTables, replenish_stp, replenish_stp, syncVisibleFill_stp, syncVisibleFill_stp]

section cross

variable {bidPrice askPrice : Int} {bid ask : Order} {bidRest askRest : List Order} {s : MatchState}

def crossFill (bid ask : Order) (newer : Bool) (q : Nat) : ExecutionReport :=
  { buyOrderId := bid.orderId
    sellOrderId := ask.orderId
    tradePrice := if newer then ask.price else bid.price
    tradeQuantity := q
    aggressorSide := if newer then .buy else .sell
    buyFullyFilled := bid.quantity - q == 0
    sellFullyFilled := ask.quantity - q == 0 }

/-- What a print between the best orders does: both are filled by the smaller displayed slice. -/
structure Crossed (s : MatchState) (bid : Order) (bidRest : List Order) (ask : Order) (askRest : List Order)
    (newer : Bool) (q : Nat) (s' : MatchState) : Prop where
  quantity : q = min (s.book.visible bid) (s.book.visible ask)
  book : ∃ m, HeadEdit s.book bid bidRest (afterFill bid (bid.quantity - q) (s.book.visible bid - q)) q
      (refreshed bid (bid.quantity - q) (s.book.visible bid - q)) m ∧
    HeadEdit m ask askRest (afterFill ask (ask.quantity - q) (s.book.visible ask - q)) q
      (refreshed ask (ask.quantity - q) (s.book.visible ask - q)) s'.book
  fills : s'.fills = s.fills ++ [crossFill bid ask newer q]
  updates : changesOf s'.updates = changesOf s.updates ++ [fillChange bid q, fillChange ask q] ++
    refreshChange bid (bid.quantity - q) (s.book.visible bid - q) ++
    refreshChange ask (ask.quantity - q) (s.book.visible ask - q)
  stp : s'.book.stp = s.book.stp

private theorem crossMatch_spec (h : Heads s.book bidPrice askPrice bid bidRest ask askRest) (hwf : s.book.WF)
    (newer : Bool) :
    Crossed s bid bidRest ask askRest newer (min (s.book.visible bid) (s.book.visible ask))
      (crossMatch s ((s.book.withQueue .buy bidPrice bidRest).withQueue .sell askPrice askRest) bid ask newer bidPrice
        askPrice) := by
  obtain ⟨hbs, hbp, hbl, -⟩ := h.bid_spec hwf
  obtain ⟨has, hap, hal, -⟩ := h.ask_spec hwf
  have hne := h.orderId_ne hwf
  obtain ⟨popped, hpopped⟩ : ∃ popped, popped =
    (s.book.withQueue .buy bidPrice bidRest).withQueue .sell askPrice askRest := ⟨_, rfl⟩
  have hqueue := h.queue_popped hwf
  rw [← hpopped] at hqueue ⊢
  have hpe : popped.NoEmpty := hpopped ▸ (hwf.noEmpty.withQueue _ _ _).withQueue _ _ _
  have hpl : popped.orderLookup = s.book.orderLookup := by simp [hpopped]
  have hpd : popped.displayed = s.book.displayed := by simp [hpopped]
  have hpv : ∀ o, popped.visible o = s.book.visible o := fun o => by rw [visible, visible, hpd]
  obtain ⟨q, hq⟩ : ∃ q, q = min (s.book.visible bid) (s.book.visible ask) := ⟨_, rfl⟩
  obtain ⟨⟨c, hc, hd, hcl, hdl⟩, hrb, hra, hub, hua, hstp⟩ :=
    @pairTables_spec popped bid ask q (by rw [hpl, hbl]) (by rw [hpl, hal]) hne (by simpa [hpopped] using hwf.kept)
  simp only [hpv] at hc hd hrb hra hub hua
  have hbid := Checked.subU32_of_le (le_trans (Nat.min_le_left _ (s.book.visible ask)) (hwf.visible_eq hbl).2.2.1)
  have hask := Checked.subU32_of_le (le_trans (Nat.min_le_right (s.book.visible bid) _) (hwf.visible_eq hal).2.2.1)
  have hcross : crossMatch s popped bid ask newer bidPrice askPrice =
      { book := ((popped.pairTables bid ask q).1.requeue (bid.withQuantity (bid.quantity - q))
          (popped.pairTables bid ask q).2.1.isSome).requeue (ask.withQuantity (ask.quantity - q))
            (popped.pairTables bid ask q).2.2.isSome
        fills := s.fills ++ [crossFill bid ask newer q]
        updates := (crossMatch s popped bid ask newer bidPrice askPrice).updates } := by
    rw [hq, crossFill, pairTables, ← hbid, ← hask, ← hpv, ← hpv, hap, hbp]
    rfl
  have hupdates : changesOf (crossMatch s popped bid ask newer bidPrice askPrice).updates =
      changesOf s.updates ++ [fillChange bid q, fillChange ask q] ++
        changesOf (popped.pairTables bid ask q).2.1.toList ++ changesOf (popped.pairTables bid ask q).2.2.toList := by
    rw [hq, pairTables, ← hbid, ← hask, ← hpv, ← hpv]
    exact (changesOf_append ..).trans (congrArg (· ++ _) ((changesOf_append ..).trans (congrArg (· ++ _)
      (changesOf_append ..))))
  rw [← hq, hcross, hrb, hra]
  rw [hub, hua] at hupdates
  generalize (popped.pairTables bid ask q).1 = d at hd hdl hstp ⊢
  have hside : bid.side ≠ ask.side := by rw [hbs, has]; decide
  have hdq : ∀ s' p, d.queue s' p = if ask.side = s' ∧ ask.price = p then askRest
      else if bid.side = s' ∧ bid.price = p then bidRest else s.book.queue s' p := fun s' p => by
    rw [← hqueue, queue, queue, hdl]
  have hc' : TableEdit s.book bid (afterFill bid (bid.quantity - q) (s.book.visible bid - q)) q c :=
    hc.of_fields hpl.symm hpd.symm (by simp [hpopped]) (by simp [hpopped]) (by simp [hpopped]) rfl rfl rfl rfl rfl
  refine ⟨hq, pair_edit hwf (by rw [hbs, hbp, h.bidQueue]) (by rw [has, hap, h.askQueue]) hside afterFill_pos
    afterFill_pos (afterFill_fits hwf hbl (by omega)) hc'
    (hd.of_fields rfl rfl rfl rfl rfl (by simp) (by simp) (by simp) (by simp) (by simp)) (fun s' p => ?_)
    (fun s' p => ?_) (fun s' p => ?_) ?_, rfl, hupdates, ?_⟩
  · rw [← hqueue, queue, queue, hcl]
  · rw [hcl]
    exact hpe s' p
  · rw [afterFill_elim, afterFill_elim]
    exact queue_requeue_pair hside hdq _ _ _ _ s' p
  · exact NoEmpty.requeue _ _ (NoEmpty.requeue _ _ fun s' p => by rw [hdl]; exact hpe s' p)
  · show ((d.requeue _ _).requeue _ _).stp = _
    rw [requeue_stp, requeue_stp, hstp, hpopped, withQueue_stp, withQueue_stp]

end cross

theorem stpLeft_le (mode : StpMode) (m n : Nat) : (stpLeft mode m n).1 ≤ m ∧ (stpLeft mode m n).2 ≤ n := by
  cases mode <;> simp [stpLeft]

theorem stpLeft_lt {mode} {m n : Nat} (hm : 0 < m) (hn : 0 < n) :
    (stpLeft mode m n).1 + (stpLeft mode m n).2 < m + n := by
  cases mode <;> simp only [stpLeft] <;> omega

theorem cutUpdate_congr {o} (hvis : b'.visible o = b.visible o) (hsymbol : b'.symbol = b.symbol)
    (price : Int) (n : Nat) : b'.cutUpdate o price n = b.cutUpdate o price n := by
  unfold cutUpdate generateIncrementalUpdate
  rw [hvis, hsymbol]

/-- What a prevented self-match does: the older order is cut first, then the newer one. -/
structure Prevented (s : MatchState) (newer : Order) (newerRest : List Order) (older : Order)
    (olderRest : List Order) (s' : MatchState) : Prop where
  book : ∃ m, HeadEdit s.book older olderRest
      (afterCut (stpLeft newer.stp.mode newer.quantity older.quantity).2 (s.book.visible older)) 0 false m ∧
    HeadEdit m newer newerRest
      (afterCut (stpLeft newer.stp.mode newer.quantity older.quantity).1 (s.book.visible newer)) 0 false s'.book
  fills : s'.fills = s.fills
  updates : s'.updates = s.updates
  events : s'.book.stp.events = s.book.stp.events ++
    cutEvent older (stpLeft newer.stp.mode newer.quantity older.quantity).2 newer.orderId newer.stp.mode
    s.fills.length ++
    cutEvent newer (stpLeft newer.stp.mode newer.quantity older.quantity).1 older.orderId newer.stp.mode s.fills.length
  stpUpdates : s'.book.stp.updates = s.book.stp.updates ++
    s.book.cutUpdate older older.price (stpLeft newer.stp.mode newer.quantity older.quantity).2 ++
    s.book.cutUpdate newer newer.price (stpLeft newer.stp.mode newer.quantity older.quantity).1

/-- `preventMatch` on the heads `newer` and `older` of opposite sides, which are then put back in either order. -/
theorem preventMatch_spec {s : MatchState} {popped : OrderBook} {newer older : Order}
    {newerRest olderRest : List Order} (hwf : s.book.WF)
    (hnq : s.book.queue newer.side newer.price = newer :: newerRest)
    (hoq : s.book.queue older.side older.price = older :: olderRest) (hside : newer.side ≠ older.side)
    (hpl : popped.orderLookup = s.book.orderLookup) (hpd : popped.displayed = s.book.displayed)
    (hpc : popped.cumFilled = s.book.cumFilled) (hps : popped.symbol = s.book.symbol)
    (hpa : popped.arrival = s.book.arrival) (hpstp : popped.stp = s.book.stp) (hpe : popped.NoEmpty)
    (hpq : ∀ s' p, popped.queue s' p = if newer.side = s' ∧ newer.price = p then newerRest
      else if older.side = s' ∧ older.price = p then olderRest else s.book.queue s' p)
    {final : OrderBook}
    (hfinal : let r := preventMatch s popped newer older
      final = (r.1.requeue r.2.2 false).requeue r.2.1 false ∨ final = (r.1.requeue r.2.1 false).requeue r.2.2 false) :
    Prevented s newer newerRest older olderRest { s with book := final } := by
  obtain ⟨-, -, hnl, -⟩ := hwf.head hnq
  obtain ⟨-, -, hol, -⟩ := hwf.head hoq
  have hne : older.orderId ≠ newer.orderId := by
    intro heq
    have := hwf.eq_of_orderId (hwf.mem_queue hnl) (hwf.mem_queue hol) heq
    exact hside (by rw [this])
  have hpv : ∀ o, popped.visible o = s.book.visible o := fun o => by rw [visible, visible, hpd]
  have hkept : Kept popped.orderLookup popped.arrival popped.cumFilled := by
    rw [hpl, hpa, hpc]
    exact hwf.kept
  obtain ⟨hnd, hnpos, hnle, -⟩ := hwf.visible_eq hnl
  obtain ⟨hod, hopos, hole, -⟩ := hwf.visible_eq hol
  obtain ⟨hln, hlo⟩ := stpLeft_le newer.stp.mode newer.quantity older.quantity
  generalize hleft : stpLeft newer.stp.mode newer.quantity older.quantity = left at hln hlo
  obtain ⟨holder, hot, hol₁, hostp⟩ := @stpCut_spec popped older (by rw [hpl, hol]) (by rw [hpd, hpv, hod])
    (by rw [hpv]; exact hopos) (by rw [hpv]; exact hole) (by rw [hpc]; exact hwf.kept.filled_lt) left.2 hlo older.price
    newer.orderId newer.stp.mode s.fills.length
  obtain ⟨c, hc⟩ : ∃ c, c = (popped.stpCut older older.price left.2 newer.orderId newer.stp.mode s.fills.length).1 :=
    ⟨_, rfl⟩
  rw [← hc] at hot hol₁ hostp
  have hcv : c.visible newer = s.book.visible newer := by rw [visible, hot.displayed, if_neg hne, ← hpv, visible]
  obtain ⟨hnewer, hnt, hnl₁, hnstp⟩ := @stpCut_spec c newer (by rw [hot.lookup, if_neg hne, hpl, hnl])
    (by rw [hot.displayed, if_neg hne, hpd, hcv, hnd]) (by rw [hcv]; exact hnpos) (by rw [hcv]; exact hnle)
    (hot.kept hkept).filled_lt left.1 hln newer.price older.orderId newer.stp.mode s.fills.length
  obtain ⟨d, hd⟩ : ∃ d, d = (c.stpCut newer newer.price left.1 older.orderId newer.stp.mode s.fills.length).1 :=
    ⟨_, rfl⟩
  rw [← hd] at hnt hnl₁ hnstp
  have hprevent : preventMatch s popped newer older = (d, newer.withQuantity left.1, older.withQuantity left.2) := by
    rw [hd, hc, ← hnewer, ← holder, hc, ← hleft]
    rfl
  rw [hprevent] at hfinal
  rw [hpv] at hot
  rw [hcv] at hnt
  have hdq : ∀ s' p, d.queue s' p = if newer.side = s' ∧ newer.price = p then newerRest
      else if older.side = s' ∧ older.price = p then olderRest else s.book.queue s' p := fun s' p => by
    rw [← hpq, queue, queue, hnl₁, hol₁]
  have hde : d.NoEmpty := fun s' p => by rw [hnl₁, hol₁]; exact hpe s' p
  -- the two orders of putting back give the same book, up to what an edit says
  have hfq : ∀ s' p, final.queue s' p = if newer.side = s' ∧ newer.price = p then settled newer newerRest left.1 false
      else if older.side = s' ∧ older.price = p then settled older olderRest left.2 false else s.book.queue s' p := by
    intro s' p
    rcases hfinal with rfl | rfl
    · exact queue_requeue_pair (Ne.symm hside) hdq _ _ _ _ s' p
    have hdq' : ∀ s' p, d.queue s' p = if older.side = s' ∧ older.price = p then olderRest
        else if newer.side = s' ∧ newer.price = p then newerRest else s.book.queue s' p := by
      intro s' p
      rw [hdq]
      by_cases hn : newer.side = s' ∧ newer.price = p
      · rw [if_pos hn, if_neg (fun ho => hside (hn.1.trans ho.1.symm)), if_pos hn]
      · rw [if_neg hn]
        simp only [if_neg hn]
    rw [queue_requeue_pair hside hdq' _ _ _ _ s' p]
    by_cases hn : newer.side = s' ∧ newer.price = p
    · rw [if_neg (fun ho => hside (hn.1.trans ho.1.symm)), if_pos hn, if_pos hn]
    · rw [if_neg hn, if_neg hn]
  have hfields : final.orderLookup = d.orderLookup ∧ final.displayed = d.displayed ∧ final.cumFilled = d.cumFilled ∧
      final.symbol = d.symbol ∧ final.arrival = d.arrival ∧ final.stp = d.stp ∧ final.NoEmpty := by
    rcases hfinal with rfl | rfl
    · exact ⟨by simp, by simp, by simp, by simp, by simp, by simp, NoEmpty.requeue _ _ (NoEmpty.requeue _ _ hde)⟩
    · exact ⟨by simp, by simp, by simp, by simp, by simp, by simp, NoEmpty.requeue _ _ (NoEmpty.requeue _ _ hde)⟩
  obtain ⟨hfl, hfd, hfc, hfs, hfa, hfstp, hfe⟩ := hfields
  have hot' : TableEdit s.book older (afterCut left.2 (s.book.visible older)) 0 c :=
    hot.of_fields hpl.symm hpd.symm hpc.symm hps.symm hpa.symm rfl rfl rfl rfl rfl
  have hsym : c.symbol = s.book.symbol := by rw [hot.symbol, hps]
  refine ⟨?_, rfl, rfl, ?_, ?_⟩
  · rw [hleft]
    refine pair_edit hwf hoq hnq (Ne.symm hside) afterCut_pos afterCut_pos (afterCut_fits hwf hol hlo) hot'
      (hnt.of_fields rfl rfl rfl rfl rfl hfl hfd hfc hfs hfa) (fun s' p => ?_) (fun s' p => ?_) (fun s' p => ?_) hfe
    · rw [← hpq, queue, queue, hol₁]
    · rw [hol₁]
      exact hpe s' p
    · rw [afterCut_elim, afterCut_elim]
      exact hfq s' p
  · show final.stp.events = _
    rw [hfstp, hnstp, hostp, hpstp, hleft]
  · show final.stp.updates = _
    rw [hfstp, hnstp, hostp, hpstp, hleft, cutUpdate_congr (hpv older) hps, cutUpdate_congr hcv hsym]

/-- Every bid is below every offer. -/
def Uncrossed (b : OrderBook) : Prop := ∀ p q, b.queue .buy p ≠ [] → b.queue .sell q ≠ [] → p < q

/-- The best orders of a crossed book are found, and one of them is the newer one. -/
theorem matchStep_heads {s} (hwf : s.book.WF) (agg : Option String) {bidPrice askPrice : Int}
    (hb : s.book.bestPrice .buy = some bidPrice) (ha : s.book.bestPrice .sell = some askPrice)
    (hlt : ¬ bidPrice < askPrice) :
    ∃ bid bidRest ask askRest, ∃ newer : Bool, Heads s.book bidPrice askPrice bid bidRest ask askRest ∧
      matchStep agg s =
        let popped := (s.book.withQueue .buy bidPrice bidRest).withQueue .sell askPrice askRest
        .ok (some (if newer then
          if selfMatch bid ask then
            let r := preventMatch s popped bid ask
            { s with book := (r.1.requeue r.2.1 false).requeue r.2.2 false }
          else crossMatch s popped bid ask true bidPrice askPrice
        else
          if selfMatch ask bid then
            let r := preventMatch s popped ask bid
            { s with book := (r.1.requeue r.2.2 false).requeue r.2.1 false }
          else crossMatch s popped bid ask false bidPrice askPrice)) := by
  obtain ⟨bid, bidRest, hbq, hpop⟩ := popBest_eq hwf.noEmpty hb
  have ha' : (s.book.withQueue .buy bidPrice bidRest).bestPrice .sell = some askPrice := ha
  obtain ⟨ask, askRest, haq, hpop'⟩ := popBest_eq (hwf.noEmpty.withQueue _ _ _) ha'
  rw [queue_withQueue, if_neg (by simp)] at haq
  have hheads : Heads s.book bidPrice askPrice bid bidRest ask askRest := ⟨hb, ha, by omega, hbq, haq⟩
  have hfound : ∀ {o : Order}, s.book.orderLookup[o.orderId]? = some o → ∃ n, s.book.arrival[o.orderId]? = some n := by
    intro o ho
    refine Option.ne_none_iff_exists'.mp fun hnone => ?_
    rw [(hwf.kept.arrival _).mp hnone] at ho
    cases ho
  obtain ⟨n, hn⟩ := hfound (hheads.bid_spec hwf).2.2.1
  obtain ⟨n', hn'⟩ := hfound (hheads.ask_spec hwf).2.2.1
  obtain ⟨newer, hnewer⟩ : ∃ newer, ((s.book.withQueue .buy bidPrice bidRest).withQueue .sell askPrice askRest).bidNewer
      agg bid ask = .ok newer := by
    simp only [bidNewer, withQueue_arrival, hn, hn', Checked.get_some, Checked.ok_bind]
    split
    · exact ⟨_, rfl⟩
    · split <;> exact ⟨_, rfl⟩
  refine ⟨bid, bidRest, ask, askRest, newer, hheads, ?_⟩
  simp only [matchStep, hb, ha, if_neg hlt, hpop, hpop', Checked.get_some, Checked.ok_bind, hnewer]
  cases newer with
  | true => by_cases hself : selfMatch bid ask = true <;> simp only [hself, if_true, if_false, Bool.false_eq_true]
  | false => by_cases hself : selfMatch ask bid = true <;> simp only [hself, if_true, if_false, Bool.false_eq_true]

private theorem matchStep_none {agg s} (hwf : s.book.WF) (h : matchStep agg s = .ok none) :
    s.book.Uncrossed := by
  intro p q hp hq
  rcases hb : s.book.bestPrice .buy with _ | bidPrice
  · exact absurd ((bestPrice_eq_none hwf.noEmpty).mp hb p) hp
  rcases ha : s.book.bestPrice .sell with _ | askPrice
  · exact absurd ((bestPrice_eq_none hwf.noEmpty).mp ha q) hq
  have hbest := ((bestPrice_eq_some hwf.noEmpty).mp hb).2 p hp
  have hask := ((bestPrice_eq_some hwf.noEmpty).mp ha).2 q hq
  simp only [better] at hbest hask
  by_cases hlt : bidPrice < askPrice
  · omega
  obtain ⟨_, _, _, _, _, -, hstep⟩ := matchStep_heads hwf agg hb ha hlt
  rw [hstep] at h
  cases h

/-- A step ends the loop, or it crosses the best bid with the best offer or prevents that; it finds all it looks up.
-/
theorem matchStep_cases {s} (hwf : s.book.WF) (agg : Option String) :
    ∃ r, matchStep agg s = .ok r ∧ ∀ s', r = some s' →
    ∃ bidPrice askPrice bid bidRest ask askRest, Heads s.book bidPrice askPrice bid bidRest ask askRest ∧
      ((∃ newer q, Crossed s bid bidRest ask askRest newer q s') ∨
        (selfMatch bid ask = true ∧ Prevented s bid bidRest ask askRest s') ∨
        (selfMatch ask bid = true ∧ Prevented s ask askRest bid bidRest s')) := by
  rcases hb : s.book.bestPrice .buy with _ | bidPrice
  · exact ⟨none, by simp [matchStep, hb], nofun⟩
  rcases ha : s.book.bestPrice .sell with _ | askPrice
  · exact ⟨none, by simp [matchStep, hb, ha], nofun⟩
  by_cases hlt : bidPrice < askPrice
  · exact ⟨none, by simp [matchStep, hb, ha, hlt], nofun⟩
  obtain ⟨bid, bidRest, ask, askRest, newer, hheads, hstep⟩ := matchStep_heads hwf agg hb ha hlt
  refine ⟨_, hstep, fun s' hs' => ⟨bidPrice, askPrice, bid, bidRest, ask, askRest, hheads, ?_⟩⟩
  obtain ⟨hbs, hbp, _, -⟩ := hheads.bid_spec hwf
  obtain ⟨has, hap, _, -⟩ := hheads.ask_spec hwf
  have hbq : s.book.queue bid.side bid.price = bid :: bidRest := by rw [hbs, hbp, hheads.bidQueue]
  have haq : s.book.queue ask.side ask.price = ask :: askRest := by rw [has, hap, hheads.askQueue]
  have hpq := hheads.queue_popped hwf
  obtain ⟨popped, hpopped⟩ : ∃ popped, popped =
    (s.book.withQueue .buy bidPrice bidRest).withQueue .sell askPrice askRest := ⟨_, rfl⟩
  have hpe : popped.NoEmpty := hpopped ▸ (hwf.noEmpty.withQueue _ _ _).withQueue _ _ _
  simp only [Option.some.injEq] at hs'
  rw [← hpopped] at hs' hpq
  rw [← hs']
  split
  · split
    · refine .inr (.inl ⟨‹_›, preventMatch_spec hwf hbq haq (by rw [hbs, has]; decide) (by simp [hpopped])
        (by simp [hpopped]) (by simp [hpopped]) (by simp [hpopped]) (by simp [hpopped]) (by simp [hpopped]) hpe
        (fun s' p => ?_) (.inr rfl)⟩)
      rw [hpq]
      by_cases hbh : bid.side = s' ∧ bid.price = p
      · rw [if_neg (fun hah => by rw [← hbh.1, has, hbs] at hah; exact absurd hah.1 (by decide)), if_pos hbh,
          if_pos hbh]
      · rw [if_neg hbh, if_neg hbh]
    · rw [hpopped]
      exact .inl ⟨true, _, crossMatch_spec hheads hwf true⟩
  · split
    · exact .inr (.inr ⟨‹_›, preventMatch_spec hwf haq hbq (by rw [hbs, has]; decide) (by simp [hpopped])
        (by simp [hpopped]) (by simp [hpopped]) (by simp [hpopped]) (by simp [hpopped]) (by simp [hpopped]) hpe hpq
        (.inl rfl)⟩)
    · rw [hpopped]
      exact .inl ⟨false, _, crossMatch_spec hheads hwf false⟩

theorem levels_getElem? (h : b.NoEmpty) (s : OrderSide) (p : Int) :
    (b.levels s)[p]? = if b.queue s p = [] then none else some (b.queue s p) := by
  cases hl : (b.levels s)[p]? with
  | none => simp [queue, Levels.queue, hl]
  | some l =>
    have hne : l ≠ [] := fun hnil => h s p (hnil ▸ hl)
    simp [queue, Levels.queue, hl, hne]

private theorem levels_eq_of_queue (h : b.NoEmpty) (h' : b'.NoEmpty) {s}
    (hq : ∀ p, b'.queue s p = b.queue s p) : b'.levels s = b.levels s := by
  refine Std.ExtTreeMap.ext_getElem? fun {p} => ?_
  rw [levels_getElem? h, levels_getElem? h', hq]

private theorem sideQuantity_eq (b : OrderBook) (s : OrderSide) :
    b.sideQuantity s = Maps.total (b.levels s) fun _ l => (l.map Order.quantity).sum := rfl

theorem Edited.sideQuantity (h : Edited b o left traded b') (hwf : b.WF)
    (ho : b.orderLookup[o.orderId]? = some o) (s : OrderSide) :
    b'.sideQuantity s + (if o.side = s then o.quantity else 0) =
      b.sideQuantity s + if o.side = s then left.elim 0 Prod.fst else 0 := by
  by_cases hs : o.side = s
  · subst hs
    have htotal := @Maps.total_eq_of_eq_off Int (List Order) compare _ _ _ Nat _ (b.levels o.side) (b'.levels o.side)
      o.price (fun _ l => (l.map Order.quantity).sum) fun p hp => by
        rw [levels_getElem? hwf.noEmpty, levels_getElem? h.noEmpty, h.elsewhere _ _ fun hh => hp hh.2.symm]
    have hqueue : ∀ c : OrderBook, c.NoEmpty →
        (c.levels o.side)[o.price]?.elim 0 (fun l => (l.map Order.quantity).sum) =
        c.weighed (fun x _ => x.quantity) o.side o.price := fun c hc => by
      rw [levels_getElem? hc, weighed]
      split
      · rename_i hnil
        rw [hnil]
        rfl
      · rfl
    rw [hqueue b hwf.noEmpty, hqueue b' h.noEmpty] at htotal
    have hhere := h.weighed_here hwf ho fun x _ => x.quantity
    have hleft : (left.elim 0 fun l => (o.withQuantity l.1).quantity) = left.elim 0 Prod.fst := by cases left <;> rfl
    rw [hleft] at hhere
    rw [sideQuantity_eq, sideQuantity_eq, if_pos rfl, if_pos rfl]
    omega
  · rw [if_neg hs, if_neg hs, OrderBook.sideQuantity, OrderBook.sideQuantity,
      levels_eq_of_queue hwf.noEmpty h.noEmpty fun p => h.elsewhere s p fun hh => hs hh.1]

/-- What the passive loop can still trade. -/
def bookQuantity (b : OrderBook) : Nat := b.sideQuantity .buy + b.sideQuantity .sell

theorem Edited.bookQuantity (h : Edited b o left traded b') (hwf : b.WF)
    (ho : b.orderLookup[o.orderId]? = some o) :
    b'.bookQuantity + o.quantity = b.bookQuantity + left.elim 0 Prod.fst := by
  have hbuy := h.sideQuantity hwf ho .buy
  have hsell := h.sideQuantity hwf ho .sell
  unfold OrderBook.bookQuantity
  cases hs : o.side <;> simp only [hs, if_true, reduceCtorEq, if_false] at hbuy hsell <;> omega

theorem Edited.pair {m x y xLeft yLeft} {xTraded yTraded : Nat}
    (hx : Edited b x xLeft xTraded m) (hy : Edited m y yLeft yTraded b') (hwf : b.WF)
    (hxl : b.orderLookup[x.orderId]? = some x) (hyl : b.orderLookup[y.orderId]? = some y)
    (hne : x.orderId ≠ y.orderId) (hxfit : Fits x xLeft) (hyfit : Fits y yLeft) :
    m.WF ∧ m.orderLookup[y.orderId]? = some y ∧ b'.WF ∧
      b'.bookQuantity + x.quantity + y.quantity =
        b.bookQuantity + xLeft.elim 0 Prod.fst + yLeft.elim 0 Prod.fst := by
  have hmwf := hx.wf hwf hxl hxfit
  have hyl' : m.orderLookup[y.orderId]? = some y := by rw [hx.lookup, if_neg hne, hyl]
  have hxq := hx.bookQuantity hwf hxl
  have hyq := hy.bookQuantity hmwf hyl'
  exact ⟨hmwf, hyl', hy.wf hmwf hyl' hyfit, by omega⟩

private theorem matchStep_wf (agg : Option String) {s} (hwf : s.book.WF) :
    ∃ r, matchStep agg s = .ok r ∧ ∀ s', r = some s' →
      s'.book.WF ∧ s'.book.bookQuantity < s.book.bookQuantity := by
  obtain ⟨r, hr, hcases⟩ := matchStep_cases hwf agg
  refine ⟨r, hr, fun s' hs' => ?_⟩
  obtain ⟨_, _, bid, bidRest, ask, askRest, hheads, hstep⟩ := hcases s' hs'
  obtain ⟨-, -, hbl, -⟩ := hheads.bid_spec hwf
  obtain ⟨-, -, hal, -⟩ := hheads.ask_spec hwf
  have hne := hheads.orderId_ne hwf
  obtain ⟨-, _, _, -⟩ := hwf.visible_eq hbl
  obtain ⟨-, _, _, -⟩ := hwf.visible_eq hal
  have hprevented : ∀ newer newerRest older olderRest, s.book.orderLookup[newer.orderId]? = some newer →
      s.book.orderLookup[older.orderId]? = some older → older.orderId ≠ newer.orderId →
      Prevented s newer newerRest older olderRest s' → s'.book.WF ∧ s'.book.bookQuantity < s.book.bookQuantity := by
    intro newer newerRest older olderRest hnl hol hne hp
    obtain ⟨_, ho, hn⟩ := hp.book
    obtain ⟨hln, hlo⟩ := stpLeft_le newer.stp.mode newer.quantity older.quantity
    obtain ⟨-, -, hwf', hquantity⟩ := ho.toEdited.pair hn.toEdited hwf hol hnl hne
      (afterCut_fits hwf hol hlo) (afterCut_fits hwf hnl hln)
    have hlt := @stpLeft_lt newer.stp.mode _ _ (hwf.positive _ _ hnl) (hwf.positive _ _ hol)
    rw [afterCut_elim, afterCut_elim] at hquantity
    exact ⟨hwf', by omega⟩
  rcases hstep with ⟨newer, q, hc⟩ | ⟨-, hp⟩ | ⟨-, hp⟩
  · have hq := hc.quantity
    obtain ⟨_, hb, ha⟩ := hc.book
    obtain ⟨-, -, hwf', hquantity⟩ := hb.toEdited.pair ha.toEdited hwf hbl hal hne
      (afterFill_fits hwf hbl (by omega)) (afterFill_fits hwf hal (by omega))
    rw [afterFill_elim, afterFill_elim] at hquantity
    exact ⟨hwf', by omega⟩
  · exact hprevented bid bidRest ask askRest hbl hal (Ne.symm hne) hp
  · exact hprevented ask askRest bid bidRest hal hbl hne hp

/-- The loop ends by itself with an uncrossed book.  What every step keeps holds in the end. -/
theorem matchOrders_uncrossed (hwf : b.WF) {P : MatchState → Prop}
    (hstart : P { book := { b with stp := {} }, fills := [], updates := [] })
    (hstep : ∀ s s', s.book.WF → P s → matchStep b.lastAdded s = .ok (some s') → P s') :
    ∃ s, b.matchOrders = .ok s ∧ P s ∧ s.book.Uncrossed := by
  have hwf₀ : ({ b with stp := {} } : OrderBook).WF :=
    ⟨hwf.noEmpty, hwf.placed, hwf.distinct, hwf.found, hwf.positive, hwf.shown, hwf.unknown, hwf.kept⟩
  obtain ⟨s, hs, ⟨hswf, hP⟩, hdone⟩ := Loop.runM_done (P := fun s : MatchState => s.book.WF ∧ P s)
    (fun s => s.book.bookQuantity) (fun s hs => by
      obtain ⟨r, hr, hnext⟩ := matchStep_wf b.lastAdded hs.1
      exact ⟨r, hr, fun s' hs' => ⟨⟨(hnext s' hs').1, hstep s s' hs.1 hs.2 (hs' ▸ hr)⟩, (hnext s' hs').2⟩⟩)
    ⟨hwf₀, hstart⟩ (Nat.lt_succ_self _)
  exact ⟨s, hs, hP, matchStep_none hswf hdone⟩

end Fxp.OrderBook
