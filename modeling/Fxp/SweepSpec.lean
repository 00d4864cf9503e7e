import Fxp.MatchSpec

/-!
# What a sweep does

A sweep takes the best level out of the book, trades it down and puts the rest back. Its steps are stated over the
book with the level in place, so that a sweep is a sequence of edits of resting orders; `sweep_induct` is its
invariant rule.
-/

namespace Fxp.OrderBook

open List

variable {b b' : OrderBook} {o : Order}
variable {aggressor : Order} {s' : LevelState}

/-- The book of a sweep with the rest of the level put back. -/
def assembled (aggressor : Order) (price : Int) (s : LevelState) : OrderBook :=
  s.book.withQueue aggressor.side.opposite price s.level

/-- The print of a sweep against `top`, which leaves the aggressor with `remaining`. -/
def takeReport (aggressor : Order) (price : Int) (top : Order) (q remaining : Nat) : ExecutionReport :=
  match aggressor.side with
  | .buy =>
    { buyOrderId := aggressor.orderId
      sellOrderId := top.orderId
      tradePrice := price
      tradeQuantity := q
      aggressorSide := aggressor.side
      buyFullyFilled := remaining == 0
      sellFullyFilled := top.quantity - q == 0 }
  | .sell =>
    { buyOrderId := top.orderId
      sellOrderId := aggressor.orderId
      tradePrice := price
      tradeQuantity := q
      aggressorSide := aggressor.side
      buyFullyFilled := top.quantity - q == 0
      sellFullyFilled := remaining == 0 }

/-- What a print of a sweep does: the head of the level is filled from its displayed slice. -/
structure Taken (aggressor : Order) (price : Int) (s : LevelState) (top : Order) (rest : List Order) (q : Nat)
    (s' : LevelState) : Prop where
  quantity : q = min (s.book.visible top) s.sweep.remaining
  book : HeadEdit (assembled aggressor price s) top rest (afterFill top (top.quantity - q) (s.book.visible top - q)) q
    (refreshed top (top.quantity - q) (s.book.visible top - q)) (assembled aggressor price s')
  level : s'.level = settled top rest (top.quantity - q) (refreshed top (top.quantity - q) (s.book.visible top - q))
  levels : ∀ side, s'.book.levels side = s.book.levels side
  remaining : s'.sweep.remaining = s.sweep.remaining - q
  stopped : s'.sweep.stopped = s.sweep.stopped
  fills : s'.sweep.fills = s.sweep.fills ++ [takeReport aggressor price top q (s.sweep.remaining - q)]
  updates : changesOf s'.sweep.fillUpdates = changesOf s.sweep.fillUpdates ++ [fillChange top q] ++
    refreshChange top (top.quantity - q) (s.book.visible top - q)
  stp : s'.book.stp = s.book.stp

/-- What a prevented self-match of a sweep does: the head of the level is cut, then the aggressor. -/
structure TakePrevented (aggressor : Order) (price : Int) (s : LevelState) (top : Order) (rest : List Order)
    (s' : LevelState) : Prop where
  book : HeadEdit (assembled aggressor price s) top rest
    (afterCut (stpLeft aggressor.stp.mode s.sweep.remaining top.quantity).2 (s.book.visible top)) 0 false
    (assembled aggressor price s')
  level : s'.level = settled top rest (stpLeft aggressor.stp.mode s.sweep.remaining top.quantity).2 false
  levels : ∀ side, s'.book.levels side = s.book.levels side
  sweep : s'.sweep =
    if (stpLeft aggressor.stp.mode s.sweep.remaining top.quantity).1 = 0 then { s.sweep with stopped := true }
    else { s.sweep with remaining := (stpLeft aggressor.stp.mode s.sweep.remaining top.quantity).1 }
  events : s'.book.stp.events = s.book.stp.events ++
    cutEvent top (stpLeft aggressor.stp.mode s.sweep.remaining top.quantity).2 aggressor.orderId aggressor.stp.mode
      s.sweep.fills.length ++
    cutEvent (aggressor.withQuantity s.sweep.remaining)
      (stpLeft aggressor.stp.mode s.sweep.remaining top.quantity).1 top.orderId aggressor.stp.mode s.sweep.fills.length
  stpUpdates : s'.book.stp.updates = s.book.stp.updates ++
    s.book.cutUpdate top top.price (stpLeft aggressor.stp.mode s.sweep.remaining top.quantity).2

theorem assembled_visible (order : Order) (price : Int) (s : LevelState) (o : Order) :
    (assembled order price s).visible o = s.book.visible o := by
  rw [visible, visible, assembled, withQueue_displayed]

section fillStep

variable {aggressor : Order} {price : Int} {s s' : LevelState} {top : Order} {rest : List Order}
  (hwf : (assembled aggressor price s).WF) (hlevel : s.level = top :: rest)
include hwf hlevel

theorem assembled_head : top.side = aggressor.side.opposite ∧ top.price = price ∧
    s.book.orderLookup[top.orderId]? = some top ∧ s.book.displayed[top.orderId]? = some (s.book.visible top) ∧
    0 < s.book.visible top ∧ s.book.visible top ≤ top.quantity ∧
    (assembled aggressor price s).queue top.side top.price = top :: rest := by
  have hq : (assembled aggressor price s).queue aggressor.side.opposite price = top :: rest := by
    rw [assembled, queue_withQueue, if_pos ⟨rfl, rfl⟩, hlevel]
  obtain ⟨hside, hprice, hlook, -⟩ := hwf.head hq
  obtain ⟨hdisp, hpos, hle, -⟩ := hwf.visible_eq hlook
  rw [assembled_visible] at hdisp hpos hle
  rw [assembled, withQueue_orderLookup] at hlook
  rw [assembled, withQueue_displayed] at hdisp
  exact ⟨hside, hprice, hlook, hdisp, hpos, hle, by rw [hside, hprice, hq]⟩

theorem assembled_lookup : (assembled aggressor price s).orderLookup[top.orderId]? = some top := by
  rw [assembled, withQueue_orderLookup]
  exact (assembled_head hwf hlevel).2.2.1

private theorem assembled_headEdit {left} {traded : Nat} {back : Bool}
    (ht : TableEdit s.book top left traded s'.book) (hlevels : ∀ side, s'.book.levels side = s.book.levels side)
    (hleft : ∀ l, left = some l → l.1 ≠ 0) (hlevel' : s'.level = settled top rest (left.elim 0 Prod.fst) back) :
    HeadEdit (assembled aggressor price s) top rest left traded back (assembled aggressor price s') := by
  obtain ⟨hside, hprice, -, -, -, -, hq⟩ := assembled_head hwf hlevel
  refine TableEdit.headEdit ?_ hwf hq hleft (fun side p => ?_) ?_
  · exact ht.of_fields (withQueue_orderLookup ..) (withQueue_displayed ..) (withQueue_cumFilled ..)
      (withQueue_symbol ..) (withQueue_arrival ..) (withQueue_orderLookup ..) (withQueue_displayed ..)
      (withQueue_cumFilled ..) (withQueue_symbol ..) (withQueue_arrival ..)
  · rw [assembled, assembled, queue_withQueue, queue_withQueue, hside, hprice, ← hlevel', queue, queue, hlevels]
    split <;> rfl
  intro side p
  have := (hwf.noEmpty.withQueue aggressor.side.opposite price s'.level) side p
  rw [assembled, withQueue_withQueue] at this
  rw [assembled]
  unfold withQueue at this ⊢
  rw [levels_setLevels] at this ⊢
  rw [hlevels, hlevels]
  exact this

private theorem takeFill_spec :
    Taken aggressor price s top rest (min (s.book.visible top) s.sweep.remaining)
      (takeFill aggressor price s top rest) := by
  obtain ⟨_, hprice, hlook, _, _, _, -⟩ := assembled_head hwf hlevel
  obtain ⟨q, hq⟩ : ∃ q, q = min (s.book.visible top) s.sweep.remaining := ⟨_, rfl⟩
  have hsub : Checked.subU32 top.quantity q = top.quantity - q := Checked.subU32_of_le (by omega)
  have t := syncVisibleFill_spec hlook (top.quantity - q) q (s.book.visible top - q)
  obtain ⟨c, hc⟩ : ∃ c, c = s.book.syncVisibleFill (top.withQuantity (top.quantity - q)) q (s.book.visible top - q) :=
    ⟨_, rfl⟩
  have hclevels : ∀ side, c.levels side = s.book.levels side := fun side => by rw [hc, syncVisibleFill_levels]
  have hcstp : c.stp = s.book.stp := by rw [hc, syncVisibleFill_stp]
  rw [← hc] at t
  have hbook : (takeFill aggressor price s top rest).book = (c.replenish (top.withQuantity (top.quantity - q))).1 := by
    rw [hc, ← hsub, hq]
    rfl
  have hlevel' : (takeFill aggressor price s top rest).level =
      settled top rest (top.quantity - q) (refreshed top (top.quantity - q) (s.book.visible top - q)) := by
    have hsome := replenish_isSome c (top.withQuantity (top.quantity - q))
    rw [t.refreshes] at hsome
    have hdef : (takeFill aggressor price s top rest).level =
        if (c.replenish (top.withQuantity (top.quantity - q))).2.isSome then
          rest ++ [top.withQuantity (top.quantity - q)]
        else if 0 < top.quantity - q then top.withQuantity (top.quantity - q) :: rest else rest := by
      rw [hc, ← hsub, hq]
      rfl
    rw [hdef, hsome, settled]
    by_cases hn : top.quantity - q = 0
    · simp [refreshed, hn]
    · rw [if_neg hn, if_pos (show 0 < top.quantity - q by omega)]
  have hlevels : ∀ side, (takeFill aggressor price s top rest).book.levels side = s.book.levels side := fun side => by
    rw [hbook, replenish_levels, hclevels]
  rw [← hq]
  refine ⟨hq, assembled_headEdit hwf hlevel ?_ hlevels afterFill_pos ?_, hlevel', hlevels, ?_, rfl, ?_, ?_, ?_⟩
  · rw [hbook]
    exact t.replenish
  · rw [afterFill_elim]
    exact hlevel'
  · rw [hq]
    rfl
  · rw [hq] at hsub ⊢
    cases hs : aggressor.side <;> simp [takeFill, takeReport, hs, hsub]
  · have hupd : changesOf (takeFill aggressor price s top rest).sweep.fillUpdates =
        changesOf s.sweep.fillUpdates ++ [fillChange top q] ++
          changesOf (c.replenish (top.withQuantity (top.quantity - q))).2.toList := by
      rw [hc, ← hsub, hq, fillChange, hprice]
      exact (changesOf_append ..).trans (congrArg (· ++ _) (changesOf_append ..))
    rw [hupd, changesOf_replenish c t.refreshes]
  · rw [hbook, replenish_stp, hcstp]

private theorem preventFill_spec (hlive : 0 < s.sweep.remaining) :
    TakePrevented aggressor price s top rest (preventFill aggressor price s top rest) := by
  obtain ⟨_, hprice, hlook, hdisp, hpos, hle, -⟩ := assembled_head hwf hlevel
  obtain ⟨hln, hlo⟩ := stpLeft_le aggressor.stp.mode s.sweep.remaining top.quantity
  obtain ⟨left, hleft⟩ : ∃ left, left = stpLeft aggressor.stp.mode s.sweep.remaining top.quantity := ⟨_, rfl⟩
  rw [← hleft] at hln hlo
  obtain ⟨htop, ht, hlev, hstp⟩ := @stpCut_spec s.book top hlook hdisp hpos hle
    (by simpa [assembled] using hwf.kept.filled_lt) left.2 hlo price aggressor.orderId aggressor.stp.mode
    s.sweep.fills.length
  obtain ⟨c, hc⟩ :
    ∃ c, c = (s.book.stpCut top price left.2 aggressor.orderId aggressor.stp.mode s.sweep.fills.length).1 := ⟨_, rfl⟩
  rw [← hc] at ht hlev hstp
  obtain ⟨events, hevents⟩ : ∃ events, events = c.stp.events ++ cutEvent (aggressor.withQuantity s.sweep.remaining)
    left.1 top.orderId aggressor.stp.mode s.sweep.fills.length := ⟨_, rfl⟩
  have heq : preventFill aggressor price s top rest =
      { book := { c with stp := { c.stp with events := events } }
        level := settled top rest left.2 false
        sweep := if left.1 = 0 then { s.sweep with stopped := true } else { s.sweep with remaining := left.1 } } := by
    unfold preventFill settled
    have hlevel' : (if 0 < left.2 then top.withQuantity left.2 :: rest else rest) =
        if left.2 = 0 then rest else top.withQuantity left.2 :: rest := by
      by_cases h : left.2 = 0
      · simp [h]
      · rw [if_pos (Nat.pos_of_ne_zero h), if_neg h]
    simp only [← hleft, ← hc, htop, Order.withQuantity_quantity, Order.withQuantity_orderId, hlevel', hevents, cutEvent]
    by_cases hzero : left.1 = 0
    · simp [hzero, hlive, pushStpEvent]
    by_cases hcut : left.1 < s.sweep.remaining
    · simp [hzero, hcut, Nat.sub_pos_of_lt hcut, pushStpEvent]
    · have hall : left.1 = s.sweep.remaining := by omega
      simp [hall, hlive.ne']
  have hlevels : ∀ side, (preventFill aggressor price s top rest).book.levels side = s.book.levels side :=
    fun side => by
    rw [heq, ← hlev]
    cases side <;> rfl
  refine ⟨assembled_headEdit hwf hlevel ?_ hlevels afterCut_pos ?_, ?_, hlevels, ?_, ?_, ?_⟩
  · rw [heq, ← hleft]
    exact ht.of_fields rfl rfl rfl rfl rfl rfl rfl rfl rfl rfl
  · rw [heq, afterCut_elim, ← hleft]
  · rw [heq, ← hleft]
  · rw [heq, ← hleft]
  · rw [heq, ← hleft]
    simp only [hevents, hstp]
  · rw [heq, ← hleft]
    simp only [hstp, hprice]

end fillStep

theorem fillStep_cases {price : Int} {s}
    (hwf : (assembled aggressor price s).WF) (h : fillStep aggressor price s = some s') :
    s.sweep.live ∧ ∃ top rest, s.level = top :: rest ∧
      ((selfMatch aggressor top = true ∧ TakePrevented aggressor price s top rest s') ∨
        (selfMatch aggressor top = false ∧
          Taken aggressor price s top rest (min (s.book.visible top) s.sweep.remaining) s')) := by
  unfold fillStep at h
  by_cases hlive : s.sweep.live
  · rw [if_pos hlive] at h
    have hpos : 0 < s.sweep.remaining := by
      simp only [Sweep.live, Bool.and_eq_true, decide_eq_true_eq] at hlive
      exact hlive.1
    rcases hlevel : s.level with _ | ⟨top, rest⟩
    · simp [hlevel] at h
    simp only [hlevel] at h
    refine ⟨hlive, top, rest, rfl, ?_⟩
    by_cases hself : selfMatch aggressor top
    · rw [if_pos hself, Option.some.injEq] at h
      exact .inl ⟨hself, h ▸ preventFill_spec hwf hlevel hpos⟩
    · rw [if_neg hself, Option.some.injEq] at h
      exact .inr ⟨by simpa using hself, h ▸ takeFill_spec hwf hlevel⟩
  · simp [hlive] at h

theorem Taken.wf {price : Int} {s top rest} {q : Nat}
    (h : Taken aggressor price s top rest q s') (hwf : (assembled aggressor price s).WF)
    (hlevel : s.level = top :: rest) : (assembled aggressor price s').WF := by
  have hlook := assembled_lookup hwf hlevel
  have hq := h.quantity
  rw [← assembled_visible aggressor price] at hq
  refine h.book.wf hwf hlook ?_
  rw [← assembled_visible aggressor price]
  exact afterFill_fits hwf hlook (by omega)

theorem TakePrevented.wf {price : Int} {s top rest}
    (h : TakePrevented aggressor price s top rest s') (hwf : (assembled aggressor price s).WF)
    (hlevel : s.level = top :: rest) : (assembled aggressor price s').WF := by
  have hlook := assembled_lookup hwf hlevel
  refine h.book.wf hwf hlook ?_
  rw [← assembled_visible aggressor price]
  exact afterCut_fits hwf hlook (stpLeft_le ..).2

/-- What a sweep can still take from a level. -/
def LevelState.quantity (s : LevelState) : Nat :=
  if s.sweep.live then s.sweep.remaining + (s.level.map Order.quantity).sum else 0

theorem sum_settled (o : Order) (rest : List Order) (n : Nat) (back : Bool) :
    ((settled o rest n back).map Order.quantity).sum = n + (rest.map Order.quantity).sum := by
  unfold settled
  split
  · omega
  · split <;> simp [Nat.add_comm]

private theorem fillStep_wf {price : Int} {s} (hwf : (assembled aggressor price s).WF)
    (h : fillStep aggressor price s = some s') :
    (assembled aggressor price s').WF ∧ s'.quantity < s.quantity := by
  obtain ⟨hlive, top, rest, hlevel, hstep⟩ := fillStep_cases hwf h
  have hpos : 0 < s.sweep.remaining := by
    simp only [Sweep.live, Bool.and_eq_true, decide_eq_true_eq] at hlive
    exact hlive.1
  obtain ⟨-, -, _, -, _, _, -⟩ := assembled_head hwf hlevel
  have hold : s.quantity = s.sweep.remaining + (top.quantity + (rest.map Order.quantity).sum) := by
    rw [LevelState.quantity, if_pos hlive, hlevel, map_cons, sum_cons]
  rcases hstep with ⟨-, hp⟩ | ⟨-, ht⟩
  · refine ⟨hp.wf hwf hlevel, ?_⟩
    have hlt := @stpLeft_lt aggressor.stp.mode _ _ hpos (show 0 < top.quantity by omega)
    have hsum := congrArg (fun l => (l.map Order.quantity).sum) hp.level
    rw [sum_settled] at hsum
    rw [LevelState.quantity, hold]
    by_cases hzero : (stpLeft aggressor.stp.mode s.sweep.remaining top.quantity).1 = 0
    · rw [if_neg (by simp [hp.sweep, hzero, Sweep.live])]
      omega
    split
    · rw [hp.sweep, if_neg hzero]
      simp only at hsum ⊢
      omega
    · omega
  · refine ⟨ht.wf hwf hlevel, ?_⟩
    have hsum := congrArg (fun l => (l.map Order.quantity).sum) ht.level
    rw [sum_settled] at hsum
    rw [LevelState.quantity, hold, ht.remaining]
    split <;> omega

section sweep

variable {order : Order} {price : Int}

private theorem fillStep_levels {s} (hwf : (assembled order price s).WF)
    (h : fillStep order price s = some s') (side : OrderSide) : s'.book.levels side = s.book.levels side := by
  obtain ⟨-, _, _, -, ⟨-, hp⟩ | ⟨-, ht⟩⟩ := fillStep_cases hwf h
  · exact hp.levels side
  · exact ht.levels side

private theorem setLevels_levels (b : OrderBook) (side : OrderSide) : b.setLevels side (b.levels side) = b := by
  cases side <;> rfl

private theorem fillLevel_start (h : b.NoEmpty) (sweep : Sweep) :
    assembled order price
      { book := b.setLevels order.side.opposite ((b.levels order.side.opposite).erase price)
        level := b.queue order.side.opposite price
        sweep := sweep } = b := by
  have hput : (b.levels order.side.opposite).put price (b.queue order.side.opposite price) =
      b.levels order.side.opposite := by
    refine Std.ExtTreeMap.ext_getElem? fun {q} => ?_
    rw [Levels.getElem?_put]
    split
    · rename_i hq
      rw [← hq, levels_getElem? h]
      simp only [List.isEmpty_iff]
    · rfl
  rw [assembled, withQueue, levels_setLevels_self, setLevels_setLevels, Levels.erase_put, hput, setLevels_levels]

/-- The invariant rule of a sweep of one level, at whose end the level is used up or the aggressor is done. -/
theorem fillLevel_induct {P : OrderBook → Sweep → Prop} (hwf : b.WF) (sweep : Sweep)
    (hstep : ∀ s s', (assembled order price s).WF →
      (∀ side q, ¬ (order.side.opposite = side ∧ price = q) → (assembled order price s).queue side q = b.queue side q) →
      fillStep order price s = some s' → P (assembled order price s) s.sweep → P (assembled order price s') s'.sweep)
    (hP : P b sweep) :
    P (b.fillLevel order price sweep).1 (b.fillLevel order price sweep).2 ∧ (b.fillLevel order price sweep).1.WF ∧
      (∀ side q, ¬ (order.side.opposite = side ∧ price = q) →
        (b.fillLevel order price sweep).1.queue side q = b.queue side q) ∧
      ((b.fillLevel order price sweep).2.live = false ∨
        (b.fillLevel order price sweep).1.queue order.side.opposite price = []) := by
  obtain ⟨s₀, hs₀⟩ : ∃ s₀ : LevelState, s₀ =
    { book := b.setLevels order.side.opposite ((b.levels order.side.opposite).erase price)
      level := b.queue order.side.opposite price
      sweep := sweep } := ⟨_, rfl⟩
  have hstart : assembled order price s₀ = b := hs₀ ▸ fillLevel_start hwf.noEmpty sweep
  let I : LevelState → Prop := fun s => (assembled order price s).WF ∧
    (∀ side, s.book.levels side = s₀.book.levels side) ∧ P (assembled order price s) s.sweep
  have helse : ∀ s : LevelState, (∀ side, s.book.levels side = s₀.book.levels side) → ∀ side q,
      ¬ (order.side.opposite = side ∧ price = q) → (assembled order price s).queue side q = b.queue side q := by
    intro s hs side q hq
    rw [← hstart, assembled, assembled, queue_withQueue, queue_withQueue, if_neg hq, if_neg hq, queue, queue, hs]
  have hI : ∀ s s', I s → fillStep order price s = some s' → I s' := by
    rintro s s' ⟨h1, h2, h3⟩ h
    exact ⟨(fillStep_wf h1 h).1, fun side => (fillStep_levels h1 h side).trans (h2 side),
      hstep s s' h1 (helse s h2) h h3⟩
  have hI₀ : I s₀ := by
    refine ⟨hstart ▸ hwf, fun _ => rfl, ?_⟩
    rw [hstart, hs₀]
    exact hP
  obtain ⟨sf, hsf⟩ : ∃ sf, sf = Loop.run (fillStep order price)
    (sweep.remaining + ((b.queue order.side.opposite price).map Order.quantity).sum + 1) s₀ := ⟨_, rfl⟩
  obtain ⟨hwff, hlevels, hPf⟩ : I sf := hsf ▸ Loop.run_induct hI _ hI₀
  have hdone : fillStep order price sf = none := by
    rw [hsf]
    refine Loop.run_done LevelState.quantity (fun s s' hs h => ⟨hI s s' hs h, (fillStep_wf hs.1 h).2⟩) hI₀ ?_
    rw [hs₀, LevelState.quantity]
    split
    · exact Nat.lt_succ_self _
    · exact Nat.succ_pos _
  have hresult : b.fillLevel order price sweep = (assembled order price sf, sf.sweep) := by
    have hdef : b.fillLevel order price sweep =
        (if sf.level.isEmpty then sf.book
          else sf.book.setLevels order.side.opposite ((sf.book.levels order.side.opposite).insert price sf.level),
          sf.sweep) := by
      rw [hsf, hs₀]
      rfl
    rw [hdef, assembled, withQueue, Levels.put]
    split
    · have herase : (sf.book.levels order.side.opposite).erase price = sf.book.levels order.side.opposite := by
        rw [hlevels, hs₀, levels_setLevels_self]
        refine Std.ExtTreeMap.ext_getElem? fun {q} => ?_
        simp only [Maps.getElem?_erase]
        split <;> rfl
      rw [herase, setLevels_levels]
    · rfl
  rw [hresult]
  refine ⟨hPf, hwff, helse sf hlevels, ?_⟩
  unfold fillStep at hdone
  by_cases hlive : sf.sweep.live
  · rw [if_pos hlive] at hdone
    right
    rw [assembled, queue_withQueue, if_pos ⟨rfl, rfl⟩]
    cases hl : sf.level with
    | nil => rfl
    | cons =>
      simp only [hl] at hdone
      split at hdone <;> cases hdone
  · exact .inl (by simpa using hlive)

private theorem size_pos (h : b.NoEmpty) {side} (hne : b.queue side price ≠ []) : 0 < (b.levels side).size := by
  rw [h.queue_ne_nil] at hne
  rw [← Std.ExtTreeMap.length_keys]
  exact length_pos_of_mem (Std.ExtTreeMap.mem_keys.mpr hne)

private theorem size_lt (h : b.NoEmpty) (h' : b'.NoEmpty) {side} (hne : b.queue side price ≠ [])
    (hnil : b'.queue side price = []) (helse : ∀ q, price ≠ q → b'.queue side q = b.queue side q) :
    (b'.levels side).size < (b.levels side).size := by
  have hpos := size_pos h hne
  have hlevels : b'.levels side = (b.levels side).erase price := by
    refine Std.ExtTreeMap.ext_getElem? fun {q} => ?_
    rw [Maps.getElem?_erase, levels_getElem? h']
    by_cases hq : price = q
    · rw [← hq, if_pos hnil, if_pos rfl]
    · rw [if_neg hq, helse q hq, levels_getElem? h]
  have hcontains : (b.levels side).contains price := Std.ExtTreeMap.contains_iff_mem.mpr (h.queue_ne_nil.mp hne)
  rw [hlevels, Std.ExtTreeMap.size_erase, if_pos hcontains]
  omega

/-- The levels that a sweep can still take. -/
def sweepSize (order : Order) (s : OrderBook × Sweep) : Nat :=
  if s.2.live then (s.1.levels order.side.opposite).size else 0

variable {crosses : Int → Bool} {P : OrderBook → Sweep → Prop}
  (hstep : ∀ price s s', crosses price → (assembled order price s).WF →
    (∀ q, (assembled order price s).queue order.side.opposite q ≠ [] → better order.side.opposite price q) →
    fillStep order price s = some s' → P (assembled order price s) s.sweep → P (assembled order price s') s'.sweep)
include hstep

private theorem sweepStep_induct {s s'} (hwf : s.1.WF) (hP : P s.1 s.2)
    (h : sweepStep order crosses s = some s') : (s'.1.WF ∧ P s'.1 s'.2) ∧ sweepSize order s' < sweepSize order s := by
  unfold sweepStep at h
  by_cases hlive : s.2.live
  · rw [if_pos hlive] at h
    rcases hbest : s.1.bestPrice order.side.opposite with _ | price
    · simp [hbest] at h
    obtain ⟨hne, hbetter⟩ := (bestPrice_eq_some hwf.noEmpty).mp hbest
    simp only [hbest] at h
    by_cases hcr : crosses price
    · rw [if_pos hcr, Option.some.injEq] at h
      obtain ⟨hP', hwf', helse, hend⟩ := @fillLevel_induct s.1 order price P hwf s.2
        (fun t t' ht hq hf hPt => hstep price t t' hcr ht (fun q hqne => by
          by_cases heq : price = q
          · subst heq
            cases order.side.opposite <;> exact le_refl price
          · rw [hq _ _ fun hh => heq hh.2] at hqne
            exact hbetter q hqne) hf hPt) hP
      rw [h] at hP' hwf' helse hend
      refine ⟨⟨hwf', hP'⟩, ?_⟩
      unfold sweepSize
      rw [if_pos hlive]
      by_cases hlive' : s'.2.live
      · rw [if_pos hlive']
        exact size_lt hwf.noEmpty hwf'.noEmpty hne (hend.resolve_left (by simp [hlive'])) fun q hq =>
          helse _ q fun hh => hq hh.2
      · rw [if_neg hlive']
        exact size_pos hwf.noEmpty hne
    · simp [hcr] at h
  · simp [hlive] at h

/-- The invariant rule of a sweep: every step is at the best price, which the order crosses, until it is done or does
not cross it. -/
theorem sweep_induct (hwf : b.WF) (hP : P b (Sweep.new order)) :
    ∃ b' sw, b.sweep order crosses = (b', sw.finish) ∧ P b' sw ∧ b'.WF ∧
      (sw.live = false ∨ ∀ p, b'.bestPrice order.side.opposite = some p → crosses p = false) := by
  obtain ⟨s, hs⟩ : ∃ s, s = Loop.run (sweepStep order crosses) ((b.levels order.side.opposite).size + 1)
    (b, Sweep.new order) := ⟨_, rfl⟩
  have hround : ∀ s s' : OrderBook × Sweep, s.1.WF ∧ P s.1 s.2 → sweepStep order crosses s = some s' →
      (s'.1.WF ∧ P s'.1 s'.2) ∧ sweepSize order s' < sweepSize order s := fun s s' hs h =>
    sweepStep_induct hstep hs.1 hs.2 h
  obtain ⟨hwfs, hPs⟩ : s.1.WF ∧ P s.1 s.2 :=
    hs ▸ Loop.run_induct (P := fun s => s.1.WF ∧ P s.1 s.2) (fun s s' h1 h2 => (hround s s' h1 h2).1) _ ⟨hwf, hP⟩
  have hdone : sweepStep order crosses s = none := by
    rw [hs]
    refine Loop.run_done (P := fun s => s.1.WF ∧ P s.1 s.2) (sweepSize order) hround ⟨hwf, hP⟩ ?_
    unfold sweepSize
    split
    · exact Nat.lt_succ_self _
    · exact Nat.succ_pos _
  refine ⟨s.1, s.2, by rw [hs]; rfl, hPs, hwfs, ?_⟩
  unfold sweepStep at hdone
  by_cases hlive : s.2.live
  · rw [if_pos hlive] at hdone
    right
    intro p hbest
    simp only [hbest] at hdone
    by_cases hcp : crosses p
    · simp [hcp] at hdone
    · simpa using hcp
  · exact .inl (by simpa using hlive)

end sweep

section opposing

variable {b : OrderBook} {order : Order} {want n : Nat} {id : String}

private theorem fokLevel_opposing {hasSelf : Bool} {queue} {available : Nat}
    (h : b.fokLevel order want hasSelf queue available = (n, some id)) : ∃ o ∈ queue, selfMatch order o = true := by
  induction queue generalizing available with
  | nil => cases h
  | cons o _ ih =>
    rw [fokLevel] at h
    split at h
    · cases h
    split at h
    · rename_i hself
      exact ⟨o, mem_cons_self, hself⟩
    · obtain ⟨o', ho', hself⟩ := ih h
      exact ⟨o', mem_cons_of_mem _ ho', hself⟩

theorem fokScan_opposing {fuel : Nat} {orders} {available : Nat}
    (h : b.fokScan order want fuel orders available = (n, some id)) : ∃ o ∈ orders, selfMatch order o = true := by
  induction fuel generalizing orders available with
  | zero => cases h
  | succ _ ih =>
    rcases orders with _ | ⟨_, _⟩
    · cases h
    rw [fokScan] at h
    split at h
    · cases h
    rw [span_eq_takeWhile_dropWhile] at h
    simp only at h
    split at h
    · rename_i hlevel
      obtain ⟨o, ho, hself⟩ := fokLevel_opposing hlevel
      exact ⟨o, (List.takeWhile_prefix _).subset ho, hself⟩
    · obtain ⟨o, ho, hself⟩ := ih h
      exact ⟨o, (dropWhile_suffix _).subset ho, hself⟩

theorem WF.of_mem_crossing (hwf : b.WF) {o} (ho : o ∈ b.crossing order) :
    o.side ≠ order.side ∧ b.orderLookup[o.orderId]? = some o := by
  have hlevel : ∀ (s : OrderSide) (e : Int × List Order), e ∈ (b.levels s).toList → o ∈ e.2 →
      o.side = s ∧ b.orderLookup[o.orderId]? = some o := by
    intro s e he hmem
    have hqueue : o ∈ b.queue s e.1 := by
      rw [queue, Levels.queue, Std.ExtTreeMap.mem_toList_iff_getElem?_eq_some.mp he]
      exact hmem
    exact ⟨(hwf.placed s e.1 o hqueue).1, hwf.lookup_of_mem hqueue⟩
  unfold crossing at ho
  cases hs : order.side with
  | buy =>
    simp only [hs] at ho
    obtain ⟨e, he, hmem⟩ := mem_flatMap.mp ho
    obtain ⟨hside, hlook⟩ := hlevel .sell e (mem_filter.mp he).1 hmem
    exact ⟨by rw [hside]; decide, hlook⟩
  | sell =>
    simp only [hs] at ho
    obtain ⟨e, he, hmem⟩ := mem_flatMap.mp ho
    obtain ⟨hside, hlook⟩ := hlevel .buy e (mem_filter.mp (mem_reverse.mp he)).1 hmem
    exact ⟨by rw [hside]; decide, hlook⟩

end opposing

end Fxp.OrderBook
