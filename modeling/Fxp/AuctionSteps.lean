import Fxp.Allocation
import Fxp.LeaveSteps

/-!
# Auctions as paths

The orders of an auction are those on the book and the queued market orders.  Every fill of the allocation shrinks two
of them; no order is asked for more than it has, and what is left of the book does not cross.
-/

namespace Fxp

open OrderBook Checked Auction List

variable {R : Type} {x : Context R}

/-- The order that takes part in an auction under this id. -/
def Engine.participant (e : Engine R) (id : String) : Option Order := e.book.orderLookup[id]?.or e.callMarkets[id]?

/-- The auction orders are the participants. -/
structure Enlisted (e : Engine R) (orders : List AuctionOrder) : Prop where
  nodup : (orders.map (·.id)).Nodup
  sound : ∀ a ∈ orders, ∃ o, e.participant a.id = some o ∧ a.side = o.side.toAuction ∧ a.quantity = o.quantity ∧
    0 < o.quantity ∧ (o.orderType ≠ .market → a.limitPrice = some o.price)
  complete : ∀ id o, e.participant id = some o → ∃ a ∈ orders, a.id = id

section participants

variable {w : Progress R}

theorem Inv.participant (hinv : Inv x w) {id o} (h : w.call.engine.participant id = some o) :
    o.orderId = id ∧ 0 < o.quantity ∧ (∃ st, w.call.engine.states[id]? = some st ∧ Agrees id o st) ∧
      ((w.call.engine.book.orderLookup[id]? = some o ∧ w.call.engine.callMarkets[id]? = none) ∨
        (w.call.engine.book.orderLookup[id]? = none ∧ w.call.engine.callMarkets[id]? = some o)) := by
  rw [Engine.participant, Option.or_eq_some_iff] at h
  have hmem : ∃ pl, o ∈ w.slot id pl ∧ (pl = .book ∧ w.call.engine.book.orderLookup[id]? = some o ∨
      pl = .call ∧ w.call.engine.callMarkets[id]? = some o) := by
    rcases h with h | ⟨-, h⟩
    · exact ⟨.book, by simp [Progress.slot, h], .inl ⟨rfl, h⟩⟩
    · exact ⟨.call, by simp [Progress.slot, h], .inr ⟨rfl, h⟩⟩
  obtain ⟨_, hmem, hpl⟩ := hmem
  obtain ⟨hslot, st, hst, hagrees, -⟩ := (hinv.tracked id).of_mem hmem
  refine ⟨hagrees.orderId, hagrees.positive, ⟨st, hst, hagrees⟩, ?_⟩
  rcases hpl with ⟨rfl, ho⟩ | ⟨rfl, ho⟩
  · exact .inl ⟨ho, Progress.slot_call.mp (hslot .call)⟩
  · exact .inr ⟨Progress.slot_book.mp (hslot .book), ho⟩

theorem auctionOrders_spec (hinv : Inv x w) :
    ∃ orders, w.call.engine.auctionOrders = .ok orders ∧ Enlisted w.call.engine orders := by
  obtain ⟨e, he⟩ : ∃ e, e = w.call.engine := ⟨_, rfl⟩
  rw [← he]
  have hpart : ∀ o, o ∈ e.participants ↔ e.participant o.orderId = some o := by
    intro o
    rw [Engine.participants, mem_append, Maps.Iteration.mem_values, Maps.Iteration.mem_values]
    constructor
    · rintro (⟨k, hk⟩ | ⟨k, hk⟩)
      · have hp : e.participant k = some o := by simp [Engine.participant, hk]
        rw [he] at hp
        obtain ⟨hid, -⟩ := hinv.participant hp
        rwa [he, hid]
      have hmem : o ∈ w.slot k .call := by
        rw [he] at hk
        simp [Progress.slot, hk]
      obtain ⟨hslot, _, -, hagrees, -⟩ := (hinv.tracked k).of_mem hmem
      have hnone := Progress.slot_book.mp (hslot .book)
      rw [← he] at hnone
      rw [hagrees.orderId, Engine.participant, hnone, hk]
      rfl
    · intro h
      rw [Engine.participant, Option.or_eq_some_iff] at h
      rcases h with h | ⟨-, h⟩
      · exact .inl ⟨_, h⟩
      · exact .inr ⟨_, h⟩
  obtain ⟨g, hg⟩ : ∃ g : Order → AuctionOrder, ∀ o ∈ e.participants,
      e.auctionOrder o = .ok (g o) ∧ (g o).id = o.orderId ∧ (g o).side = o.side.toAuction ∧
        (g o).quantity = o.quantity ∧ (o.orderType ≠ .market → (g o).limitPrice = some o.price) := by
    refine ⟨fun o =>
      { id := o.orderId
        side := o.side.toAuction
        limitPrice := if o.orderType = .market then none else some o.price
        quantity := o.quantity
        seq := e.book.arrival[o.orderId]?.getD ((e.states[o.orderId]?.map OrderState.arrival).getD 0) },
      fun o ho => ⟨?_, rfl, rfl, rfl, fun h => if_neg h⟩⟩
    have hp := (hpart o).mp ho
    rw [he] at hp
    obtain ⟨-, -, ⟨_, hst, -⟩, -⟩ := hinv.participant hp
    rw [← he] at hst
    simp [Engine.auctionOrder, hst]
  refine ⟨e.participants.map g, mapM_ok fun o ho => (hg o ho).1, ?_, ?_, ?_⟩
  · have hids : ((e.participants.map g).map (·.id)).Perm (e.book.orderLookup.keys ++ e.callMarkets.keys) := by
      rw [map_map, ← Maps.map_values (f := Order.orderId), ← Maps.map_values (f := Order.orderId), ← map_append]
      · have hid : e.participants.map ((·.id) ∘ g) = e.participants.map Order.orderId :=
          map_congr_left fun o ho => (hg o ho).2.1
        rw [hid]
        exact ((e.iterations.orderLookup.values_perm _).append (e.iterations.callMarkets.values_perm _)).map _
      · intro k v hk
        have hmem : v ∈ w.slot k .call := by
          rw [he] at hk
          simp [Progress.slot, hk]
        obtain ⟨-, _, -, hagrees, -⟩ := (hinv.tracked k).of_mem hmem
        exact hagrees.orderId
      · intro k v hk
        rw [he] at hk
        exact hinv.book.orderId_eq hk
    rw [hids.nodup_iff, nodup_append]
    refine ⟨Maps.keys_nodup _, Maps.keys_nodup _, fun k hk _ hk' heq => ?_⟩
    subst heq
    rw [Std.ExtTreeMap.mem_keys, Maps.mem_iff_getElem?] at hk hk'
    obtain ⟨o, ho⟩ := hk
    obtain ⟨_, ho'⟩ := hk'
    have hp : w.call.engine.participant k = some o := by simp [Engine.participant, ← he, ho]
    obtain ⟨-, -, -, hplace⟩ := hinv.participant hp
    rw [← he] at hplace
    simp [ho, ho'] at hplace
  · intro a ha
    obtain ⟨o, ho, rfl⟩ := mem_map.mp ha
    obtain ⟨-, hid, hside, hquantity, hlimit⟩ := hg o ho
    have hp := (hpart o).mp ho
    have hp' := hp
    rw [he] at hp'
    exact ⟨o, by rw [hid]; exact hp, hside, hquantity, (hinv.participant hp').2.1, hlimit⟩
  · intro id o hp
    have hp' := hp
    rw [he] at hp'
    have hid := (hinv.participant hp').1
    have hmem := (hpart o).mpr (by rw [hid]; exact hp)
    exact ⟨g o, mem_map_of_mem hmem, (hg o hmem).2.1.trans hid⟩

end participants

def shrink (o : Order) (q : Nat) : Option Order :=
  if o.quantity - q = 0 then none else some (o.withQuantity (o.quantity - q))

private theorem shrink_shrink {o} {m n : Nat} : (shrink o m).bind (shrink · n) = shrink o (m + n) := by
  by_cases hm : o.quantity - m = 0
  · rw [shrink, if_pos hm, shrink, if_pos (by omega)]
    rfl
  · rw [shrink, if_neg hm, Option.bind_some, shrink, shrink, Order.withQuantity_quantity, Nat.sub_sub]
    rfl

/-- The auction in progress, with the market data that waits for its end and the fills that wait for their trade. -/
def auctioning (c : Call R) (md : List MarketDataIncrementalUpdate) (printed : List (Int × Nat)) : Progress R :=
  { call := c, fills := changesOf md, auction := true, printed := printed }

/-- Every participant of `c` lost `amount` of its quantity. -/
def Shrunk (c : Call R) (amount : String → Nat) (c' : Call R) : Prop :=
  ∀ id, c'.engine.participant id = (c.engine.participant id).bind (shrink · (amount id))

private theorem applyFill_book (c : Call R) (ts : Time) (px : Int) (q : Nat) (auction : Bool) (id : String) :
    (Call.applyFill ts px q auction c id).engine.book = c.engine.book := by
  unfold Call.applyFill
  split
  · rfl
  · simp only
    split <;> rfl

private theorem applyFill_callMarkets (c : Call R) (ts : Time) (px : Int) (q : Nat) (auction : Bool) (id : String) :
    (Call.applyFill ts px q auction c id).engine.callMarkets = c.engine.callMarkets := by
  unfold Call.applyFill
  split
  · rfl
  · simp only
    split <;> rfl

section hit

variable {c : Call R} {md : List MarketDataIncrementalUpdate} {id : String} {o : Order} {q : Nat}

private theorem auctionHit_step {printed} (hinv : Inv x (auctioning c md printed))
    (ho : c.engine.participant id = some o) (hq : 0 < q) (hle : q ≤ o.quantity) (instant : Time) {price : Int}
    (hprinted : printed = [] ∨ printed = [(price, q)]) :
    ∃ c' md', Call.auctionHit instant price q (c, md) id = .ok (c', md') ∧
      Path x (auctioning c md printed) (auctioning c' md' (printed ++ [(price, q)])) ∧
      ∀ id', c'.engine.participant id' = if id = id' then shrink o q else c.engine.participant id' := by
  obtain ⟨hid, -, ⟨st, hst, hagrees⟩, hplace⟩ := hinv.participant ho
  have hleaves : o.quantity - q = (Edit.state o price st (.auction q)).leaves := by
    have := hagrees.quantity
    simp only [OrderState.leaves, Edit.state]
    omega
  have hedited (pl : Place) (w₁ : Progress R) (hshift : Shift x (auctioning c md printed) id o (.auction q) pl w₁) :=
    @Step.edit R x _ w₁ pl id o (.auction q) st (Edit.state o price st (.auction q)) price st.outputTx
      { execType := .filled
        status := if o.quantity - q = 0 then .filled else .partiallyFilled
        lastPx := price
        lastQty := q
        leaves := o.quantity - q
        auction := true } instant hst hshift ⟨ExecutionType.noConfusion, ExecutionType.noConfusion⟩ ⟨rfl, rfl, rfl⟩
      (fun _ => hprinted) ⟨rfl, rfl⟩ (Edit.told hleaves) (fill_isTerminal _) (absurd · not_stpReason_empty)
  rcases hplace with ⟨hbook, hcall⟩ | ⟨hbook, hcall⟩
  · obtain ⟨b, hb, hedit, hstp⟩ := applyAuctionFill_spec hinv.book hbook hle
    have hshift : Shift x (auctioning c md printed) id o (.auction q) .book _ :=
      .book hbook hedit (hstp.trans hinv.stp) ⟨hq, hle⟩ (fun _ _ => rfl) (fun h => by cases h) (fun _ h => by cases h)
    have hstep := hedited .book _ hshift
    have hcontains : c.engine.book.orderLookup.contains id = true := Maps.contains_of_some hbook
    have hmd : changesOf (md ++ [c.engine.book.generateIncrementalUpdate .modifyOrder o.price q o.side]) =
        changesOf md ++ [fillChange o q] := changesOf_append ..
    refine ⟨Call.applyFill instant price q true (c.onEngine fun e => { e with book := b }) id,
      md ++ [c.engine.book.generateIncrementalUpdate .modifyOrder o.price q o.side], ?_, ?_, fun id' => ?_⟩
    · simp only [Call.auctionHit, hcontains, if_true, show c.engine.book.applyAuctionFill id q = _ from hb, ok_bind]
      rfl
    · unfold auctioning
      rw [hmd, @Call.applyFill_eq R id o st (c.onEngine fun e => { e with book := b }) hst hagrees instant
        price q true hle]
      exact .single hstep
    rw [Engine.participant, applyFill_book, applyFill_callMarkets]
    show (b.orderLookup[id']?).or c.engine.callMarkets[id']? = _
    rw [hedit.lookup, hid]
    split
    · rename_i hsame
      rw [← hsame, show c.engine.callMarkets[id]? = none from hcall, Option.or_none]
      exact Edit.left_map (.auction q) o 0
    · rfl
  · have hshift : Shift x (auctioning c md printed) id o (.auction q) .call _ := .call hcall ⟨hq, hle⟩ (.inr ⟨q, rfl⟩)
    have hstep := hedited .call _ hshift
    have hcontains : c.engine.book.orderLookup.contains id = false := Maps.contains_eq_false_iff.mpr hbook
    have hsub := subU32_of_le hle
    obtain ⟨calls, hcalls⟩ : ∃ calls, calls = if o.quantity - q = 0 then c.engine.callMarkets.erase id else
        c.engine.callMarkets.insert id (o.withQuantity (o.quantity - q)) := ⟨_, rfl⟩
    refine ⟨Call.applyFill instant price q true (c.onEngine fun e => { e with callMarkets := calls }) id, md, ?_, ?_,
      fun id' => ?_⟩
    · simp only [Call.auctionHit, hcontains, show c.engine.callMarkets[id]? = _ from hcall, get_some, ok_bind, hsub,
        hcalls]
      rfl
    · unfold auctioning
      rw [@Call.applyFill_eq R id o st (c.onEngine fun e => { e with callMarkets := calls }) hst hagrees
        instant price q true hle, hcalls]
      exact .single hstep
    rw [Engine.participant, applyFill_book, applyFill_callMarkets]
    show (c.engine.book.orderLookup[id']?).or calls[id']? = _
    by_cases hsame : id = id'
    · rw [if_pos hsame, ← hsame, show c.engine.book.orderLookup[id]? = none from hbook, Option.none_or, hcalls, shrink]
      split <;> simp
    rw [if_neg hsame, hcalls, Engine.participant]
    congr 1
    split <;> simp [hsame]

private theorem auctionFill_step {amount : String → Nat} {c₀ f} (hinv : Inv x (auctioning c md []))
    (hshrunk : Shrunk c₀ amount c) {bid ask} (hbid : c₀.engine.participant f.buyId = some bid)
    (hask : c₀.engine.participant f.sellId = some ask) (hne : f.buyId ≠ f.sellId) (hq : 0 < f.quantity)
    (hbidLe : amount f.buyId + f.quantity ≤ bid.quantity) (haskLe : amount f.sellId + f.quantity ≤ ask.quantity)
    (instant : Time) :
    ∃ c' md', Call.auctionFill instant (c, md) f = .ok (c', md') ∧ Path x (auctioning c md []) (auctioning c' md' []) ∧
      Shrunk c₀ (fun id => amount id + ((if f.buyId = id then f.quantity else 0) +
        if f.sellId = id then f.quantity else 0)) c' := by
  have hb : c.engine.participant f.buyId = some (bid.withQuantity (bid.quantity - amount f.buyId)) := by
    rw [hshrunk, hbid, Option.bind_some, shrink, if_neg (by omega)]
  have ha : c.engine.participant f.sellId = some (ask.withQuantity (ask.quantity - amount f.sellId)) := by
    rw [hshrunk, hask, Option.bind_some, shrink, if_neg (by omega)]
  obtain ⟨c₁, _, hhit₁, hpath₁, hpart₁⟩ :=
    auctionHit_step hinv hb hq (by simp only [Order.withQuantity_quantity]; omega) instant (.inl rfl)
  have ha₁ : c₁.engine.participant f.sellId = some (ask.withQuantity (ask.quantity - amount f.sellId)) := by
    rw [hpart₁, if_neg hne, ha]
  obtain ⟨c₂, md₂, hhit₂, hpath₂, hpart₂⟩ := auctionHit_step (hpath₁.inv hinv) ha₁ hq
    (by simp only [Order.withQuantity_quantity]; omega) instant (.inr rfl)
  have hpath₃ : Path x (auctioning c₂ md₂ [(f.price, f.quantity), (f.price, f.quantity)])
      (auctioning (Call.pushTrade instant f.price f.quantity 0 true c₂) md₂ []) := .single (.print rfl)
  refine ⟨_, _, ?_, (hpath₁.trans hpath₂).trans hpath₃, fun id => ?_⟩
  · simp only [Call.auctionFill, hhit₁, hhit₂, ok_bind]
  show c₂.engine.participant id = (c₀.engine.participant id).bind (shrink · (amount id +
    ((if f.buyId = id then f.quantity else 0) + if f.sellId = id then f.quantity else 0)))
  have hshrink : ∀ o : Order, amount id < o.quantity → shrink (o.withQuantity (o.quantity - amount id)) f.quantity =
      shrink o (amount id + f.quantity) := by
    intro o ho
    have hone : shrink o (amount id) = some (o.withQuantity (o.quantity - amount id)) := if_neg (by omega)
    rw [← shrink_shrink, hone, Option.bind_some]
  rw [hpart₂, hpart₁]
  by_cases hsell : f.sellId = id
  · rw [if_pos hsell, if_neg (hsell ▸ hne), if_pos hsell, Nat.zero_add, ← hsell, hask, Option.bind_some]
    subst hsell
    exact hshrink ask (by omega)
  rw [if_neg hsell, if_neg hsell, Nat.add_zero]
  by_cases hbuy : f.buyId = id
  · rw [if_pos hbuy, if_pos hbuy, ← hbuy, hbid, Option.bind_some]
    subst hbuy
    exact hshrink bid (by omega)
  · rw [if_neg hbuy, if_neg hbuy, Nat.add_zero]
    exact hshrunk id

end hit

section run

variable {c : Call R} {orders : List AuctionOrder} {r : AuctionResult}

theorem Enlisted.of_id {e : Engine R} (h : Enlisted e orders) {id : String} {o : Order}
    (ho : e.participant id = some o) : ∃ a ∈ orders, a.id = id ∧ a.side = o.side.toAuction ∧ a.quantity = o.quantity ∧
      (o.orderType ≠ .market → a.limitPrice = some o.price) := by
  obtain ⟨a, ha, hid⟩ := h.complete id o ho
  obtain ⟨_, ho', hside, hquantity, -, hlimit⟩ := h.sound a ha
  rw [hid, ho, Option.some.injEq] at ho'
  subst ho'
  exact ⟨a, ha, hid, hside, hquantity, hlimit⟩

def traded (fills : List AuctionFill) (id : String) : Nat := tradedBy fills .buy id + tradedBy fills .sell id

private theorem foldlM_auctionFill (hinv : Inv x (idle true c)) (henl : Enlisted c.engine orders) (r : AuctionResult)
    (instant : Time) :
    Safe ((allocate orders r).foldlM (Call.auctionFill instant) (c, [])) fun s =>
      Path x (idle true c) (auctioning s.1 s.2 []) ∧ Shrunk c (traded (allocate orders r)) s.1 := by
  have hnone : Shrunk c (traded []) c := by
    intro id
    rcases hp : c.engine.participant id with _ | _
    · rfl
    obtain ⟨-, _, -⟩ := hinv.participant hp
    rw [Option.bind_some, shrink, show traded [] id = 0 from rfl, Nat.sub_zero, if_neg (by omega)]
    rfl
  have hrun := @Safe.foldlM AuctionFill _ (Call.auctionFill (R := R) instant)
    (fun rest s => ∃ done, allocate orders r = done ++ rest ∧ Path x (idle true c) (auctioning s.1 s.2 []) ∧
      Shrunk c (traded done) s.1) ?_ (allocate orders r) (c, []) ⟨[], rfl, .refl, hnone⟩
  · refine hrun.mono ?_
    rintro _ ⟨_, hdone, hpath, hshrunk⟩
    rw [hdone, append_nil]
    exact ⟨hpath, hshrunk⟩
  rintro f rest ⟨_, _⟩ ⟨done, hdone, hpath, hshrunk⟩
  have hf : f ∈ allocate orders r := by rw [hdone]; simp
  obtain ⟨hq, buy, hbuy, hbuySide, hbuyId⟩ := allocate_fills henl.nodup r .buy hf
  obtain ⟨-, sell, hsell, hsellSide, hsellId⟩ := allocate_fills henl.nodup r .sell hf
  obtain ⟨_, hbid, -, _, -⟩ := henl.sound buy hbuy
  obtain ⟨_, hask, -, _, -⟩ := henl.sound sell hsell
  have hne : f.buyId ≠ f.sellId := by
    intro heq
    have hsame := eq_of_id henl.nodup hbuy hsell (hbuyId.trans (heq.trans hsellId.symm))
    rw [hsame, hsellSide] at hbuySide
    cases hbuySide
  -- the fill is one of those that the order gets altogether
  have hle : ∀ o ∈ orders, traded done o.id + (tradedBy [f] .buy o.id + tradedBy [f] .sell o.id) ≤ o.quantity := by
    intro o ho
    have htotal := allocate_traded_le henl.nodup r ho
    have hsplit : done ++ f :: rest = (done ++ [f]) ++ rest := by simp
    rw [hdone, hsplit] at htotal
    simp only [tradedBy_append] at htotal
    unfold traded
    omega
  have hbuyLe := hle buy hbuy
  have hsellLe := hle sell hsell
  simp only [tradedBy_singleton, hbuyId, hsellId, idOf, if_true] at hbuyLe hsellLe
  rw [hbuyId] at hbid
  rw [hsellId] at hask
  obtain ⟨_, _, hfill, hpath', hshrunk'⟩ := auctionFill_step (hpath.inv hinv) hshrunk hbid hask hne hq
    (by omega) (by omega) instant
  rw [hfill]
  refine ⟨done ++ [f], by rw [hdone]; simp, hpath.trans hpath', ?_⟩
  have hamount : traded (done ++ [f]) = fun id => traded done id +
      ((if f.buyId = id then f.quantity else 0) + if f.sellId = id then f.quantity else 0) := by
    funext id
    rw [traded, tradedBy_append, tradedBy_append, tradedBy_singleton, tradedBy_singleton]
    exact Nat.add_add_add_comm ..
  rw [hamount]
  exact hshrunk'

theorem Shrunk.uncrossed {w : Progress R} (hinv : Inv x w) (henl : Enlisted c.engine orders)
    (hclears : Clears orders c.engine.lastTradePrice r) (h : Shrunk c (traded (allocate orders r)) w.call) :
    w.call.engine.book.Uncrossed := by
  -- a resting order comes from an auction order that has something left
  have hleft : ∀ s p, w.call.engine.book.queue s p ≠ [] → ∃ a ∈ orders, a.side = s.toAuction ∧ a.limitPrice = some p ∧
      tradedBy (allocate orders r) s.toAuction a.id < a.quantity := by
    intro s p hne
    obtain ⟨o, ho⟩ := exists_mem_of_ne_nil _ hne
    obtain ⟨rfl, rfl⟩ := hinv.book.placed s p o ho
    have hlookup := hinv.book.lookup_of_mem ho
    obtain ⟨-, -, -, htype, -⟩ := hinv.on_book hlookup
    have hpart := h o.orderId
    rw [Engine.participant, hlookup, Option.some_or] at hpart
    obtain ⟨o₀, ho₀, hshrink⟩ := Option.bind_eq_some_iff.mp hpart.symm
    unfold shrink at hshrink
    split at hshrink
    · cases hshrink
    rename_i hquantity
    rw [Option.some.injEq] at hshrink
    obtain ⟨a, ha, hid, hside, _, hlimit⟩ := henl.of_id ho₀
    have htype₀ : o₀.orderType = .limit := by rw [← htype, ← hshrink]; rfl
    refine ⟨a, ha, by rw [hside, ← hshrink]; rfl, ?_, ?_⟩
    · rw [hlimit (by simp [htype₀]), ← hshrink]
      rfl
    have hle : tradedBy (allocate orders r) o.side.toAuction a.id ≤ traded (allocate orders r) a.id := by
      unfold traded
      cases o.side.toAuction <;> omega
    rw [hid] at hle ⊢
    omega
  intro p q hp hq
  obtain ⟨_, hbid, hbs, hbp, hbl⟩ := hleft .buy p hp
  obtain ⟨_, hask, has, hap, hal⟩ := hleft .sell q hq
  refine allocate_uncrossed hclears henl.nodup (fun a ha => ?_) hbid hask hbs has hbp hap hbl hal
  obtain ⟨_, -, -, _, _, -⟩ := henl.sound a ha
  omega

/-- The auction finds all its orders and leaves a book that does not cross. -/
theorem runAuction_safe (hinv : Inv x (idle true c)) (instant : Time) :
    Safe (c.runAuction instant) fun s => Path x (idle true c) (idle true s.1) ∧ s.1.engine.book.Uncrossed := by
  obtain ⟨orders, horders, henl⟩ := auctionOrders_spec hinv
  obtain ⟨r, hr, hclears⟩ := exists_clears orders c.engine.lastTradePrice
  simp only [Call.runAuction, show c.engine.auctionOrders = .ok orders from horders, ok_bind, hr]
  refine (foldlM_auctionFill hinv henl r instant).bind ?_
  rintro ⟨c', md⟩ ⟨hpath, hshrunk⟩
  have hinv' := hpath.inv hinv
  have hflush : Path x (auctioning c' md []) (idle true (md.foldl (Call.pushMd instant) c')) :=
    Path.flush fun s => rfl
  have hbook : (md.foldl (Call.pushMd instant) c').engine.book = c'.engine.book := by
    rw [foldl_pushMd, Call.send_engine]
  have huncrossed : (md.foldl (Call.pushMd instant) c').engine.book.Uncrossed := by
    rw [hbook]
    exact hshrunk.uncrossed hinv' henl hclears
  have hinv'' := hflush.inv hinv'
  simp only
  split
  · exact ⟨hpath.trans hflush, huncrossed⟩
  · exact ⟨(hpath.trans hflush).tail (.note (hinv''.silent rfl rfl rfl) fun _ => rfl), huncrossed⟩

private theorem signed_imbalance (n : Int) :
    (if (if 0 < n then sideToProto .buy else if n < 0 then sideToProto .sell else 0) = sideToProto .sell
      then -(n.natAbs : Int) else n.natAbs) = n := by
  rcases lt_trichotomy n 0 with hneg | rfl | hpos
  · rw [if_neg hneg.not_gt, if_pos hneg, if_pos rfl]
    omega
  · rfl
  · rw [if_pos hpos, if_neg (by decide)]
    omega

theorem publishIndicative_safe {a : Bool} (hinv : Inv x (idle a c)) (instant : Time) :
    Safe (c.publishIndicative instant) fun c' => Quiet c c' ∧
      c'.engine = { c.engine with lastIndicative := c'.engine.lastIndicative } := by
  simp only [Call.publishIndicative]
  split
  · exact ⟨hinv.silent rfl rfl rfl, rfl⟩
  obtain ⟨orders, horders, -⟩ := auctionOrders_spec hinv
  obtain ⟨r, hr, -⟩ := exists_clears orders c.engine.lastTradePrice
  simp only [show c.engine.auctionOrders = .ok orders from horders, ok_bind, hr]
  split
  · exact ⟨hinv.silent rfl rfl rfl, rfl⟩
  refine ⟨hinv.quiet rfl _ rfl (fun o ho => ?_) fun _ h => h.extend rfl (fun o ho => ?_) fun _ hr' => .inr ⟨_, rfl, ?_⟩,
    rfl⟩
  · rw [mem_singleton.mp ho]
    exact ⟨rfl, rfl, rfl⟩
  · rw [mem_singleton.mp ho]
    rfl
  · cases hr'
    exact ⟨rfl, rfl, signed_imbalance r.imbalance⟩

end run

end Fxp
