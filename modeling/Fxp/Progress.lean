import Fxp.Service
import Fxp.SweepSpec

/-!
# A call in progress

Inside a call an order can be between two containers, and market data can be waiting until the reports are out.
-/

namespace Fxp

open OrderBook

/-- What decides how self-trade prevention treats an order and how it is displayed.  It never changes. -/
structure Traits where
  side : OrderSide
  stpKey : StpKey
  stpMode : StpMode
  iceberg : Bool
deriving DecidableEq

def Order.traits (o : Order) : Traits :=
  { side := o.side, stpKey := o.stpKey, stpMode := o.stp.mode, iceberg := o.isIceberg }

/-- Two orders that self-trade prevention keeps from trading with each other. -/
def Traits.Conflict (a b : Traits) : Prop :=
  a.side ≠ b.side ∧ a.stpKey = b.stpKey ∧ (a.stpMode ≠ .none ∨ b.stpMode ≠ .none)

/-- The containers of live orders. -/
inductive Place
  | book
  | stops
  | call
  | held
  | transit
deriving DecidableEq

/-- An order between two containers: `filled` is what the book will record, `none` if it does not rest; `acked` if its
owner has a report. -/
structure Transit where
  order : Order
  filled : Option Nat
  replaced : Bool
  acked : Bool

structure Progress (R : Type) where
  call : Call R
  transit : List Transit := []
  rested : List MarketOrderUpdate := []
  stp : List MarketOrderUpdate := []
  fills : List MarketOrderUpdate := []
  /-- The book may be crossed although no call is on. -/
  crossed : Bool := false
  /-- An auction is running. -/
  auction : Bool := false
  /-- The price and quantity of the fills that were reported while their public trade is still to come. -/
  printed : List (Int × Nat) := []

/-- The request of a call, the engine that it finds after its tick, and the traits of the orders it can meet. -/
structure Context (R : Type) where
  request : Option (Op R)
  start : Engine R
  known : Traits → Prop

namespace Progress

variable {R : Type}

/-- The orders with this id in a container. -/
def slot (w : Progress R) (id : String) : Place → List Order
  | .book => w.call.engine.book.orderLookup[id]?.toList
  | .stops => w.call.engine.stopBook.parked.filter (·.orderId = id)
  | .call => w.call.engine.callMarkets[id]?.toList
  | .held => w.call.engine.heldClose[id]?.toList
  | .transit => (w.transit.map Transit.order).filter (·.orderId = id)

end Progress

/-- A live order shrinks or leaves: a fill, in an auction or not, a cut by self-trade prevention down to `n`, or its
end. -/
inductive Edit
  | fill (q : Nat)
  | auction (q : Nat)
  | cut (n : Nat)
  | drop

namespace Edit

variable (o : Order)

def rest : Edit → Nat
  | .fill q | .auction q => o.quantity - q
  | .cut n => n
  | .drop => 0

/-- What is left of a resting order that showed `v`, with its slice. -/
def left (v : Nat) : Edit → Option (Nat × Nat)
  | .fill q => afterFill o (o.quantity - q) (v - q)
  | .auction q => afterAuction (o.quantity - q)
  | .cut n => afterCut n v
  | .drop => none

def traded : Edit → Nat
  | .fill q | .auction q => q
  | .cut _ | .drop => 0

/-- The bounds of an edit of a resting order that shows `v`. -/
def Within (v : Nat) : Edit → Prop
  | .fill q => 0 < q ∧ q ≤ v
  | .auction q => 0 < q ∧ q ≤ o.quantity
  | .cut n => n < o.quantity
  | .drop => True

/-- The market data of an order that leaves the book. -/
def restedChanges (v : Nat) : Edit → List MarketOrderUpdate
  | .drop => [{ updateType := .cancelOrder, price := o.price, quantity := v, side := o.side }]
  | .fill _ | .auction _ | .cut _ => []

def stpChanges (v : Nat) : Edit → List MarketOrderUpdate
  | .cut n =>
    if min v n < v then
      [{ updateType := .cancelOrder, price := o.price, quantity := v - min v n, side := o.side }]
    else []
  | .fill _ | .auction _ | .drop => []

def fillChanges (v : Nat) : Edit → List MarketOrderUpdate
  | .fill q => fillChange o q :: refreshChange o (o.quantity - q) (v - q)
  | .auction q => [fillChange o q]
  | .cut _ | .drop => []

/-- The fills that a public trade is to follow. -/
def prints (px : Int) : Edit → List (Int × Nat)
  | .fill q | .auction q => [(px, q)]
  | .cut _ | .drop => []

/-- What the report of an edit says about an execution. -/
def Tells (px : Int) (ev : ReportEvent) : Edit → Prop
  | .fill q | .auction q => ev.execType = .filled ∧ ev.lastPx = px ∧ ev.lastQty = q
  | .cut _ | .drop => ev.execType ≠ .filled ∧ ev.lastQty = 0

/-- The report state of the order if it lives on. -/
def state {R : Type} (px : Int) (st : OrderState R) : Edit → OrderState R
  | .fill q | .auction q => { st with cumQty := st.cumQty + q, notional := st.notional + px * q }
  | .cut n => { st with orderQty := st.orderQty - (o.quantity - n) }
  | .drop => st

end Edit

namespace Call

variable {R : Type}

variable (c : Call R)

def onEngine (f : Engine R → Engine R) : Call R := { engine := f c.engine, out := c.out }

@[simp] theorem onEngine_engine (f : Engine R → Engine R) : (c.onEngine f).engine = f c.engine := rfl

@[simp] theorem onEngine_out (f : Engine R → Engine R) : (c.onEngine f).out = c.out := rfl

def send (out : List (Output R)) : Call R := { engine := c.engine, out := c.out ++ out }

@[simp] theorem send_engine (out : List (Output R)) : (c.send out).engine = c.engine := rfl

@[simp] theorem send_out (out : List (Output R)) : (c.send out).out = c.out ++ out := rfl

/-- The new report state of an order, and the report that tells its owner. -/
def tell (id : String) (new : Option (OrderState R)) (owner : R) (st : OrderState R) (ev : ReportEvent)
    (ts : Time) : Call R :=
  (c.onEngine fun e => { e with states := new.elim (e.states.erase id) (e.states.insert id) }).report owner id
    (some st) ev ts

end Call

section steps

variable {R : Type} (x : Context R)

/-- An edit of a live order in its container. -/
inductive Shift (w : Progress R) (id : String) (o : Order) (k : Edit) : Place → Progress R → Prop
  | book {b} (ho : w.call.engine.book.orderLookup[id]? = some o)
    (hedit : Edited w.call.engine.book o (k.left o (w.call.engine.book.visible o)) k.traded b) (hstp : b.stp = {})
    (hwithin : k.Within o (w.call.engine.book.visible o)) (hauction : ∀ q, k = .auction q → w.auction = true)
    (hdrop : k = .drop → w.rested = [] ∧ w.stp = [] ∧ w.fills = [])
    (hcut : ∀ n, k = .cut n → ∃ t, x.known t ∧ Traits.Conflict o.traits t) :
    Shift w id o k .book
      { w with
        call := w.call.onEngine fun e => { e with book := b }
        rested := w.rested ++ k.restedChanges o (w.call.engine.book.visible o)
        stp := w.stp ++ k.stpChanges o (w.call.engine.book.visible o)
        fills := w.fills ++ k.fillChanges o (w.call.engine.book.visible o) }
  | transit {pre post t} (ht : w.transit = pre ++ t :: post) (ho : t.order = o)
    (hid : o.orderId = id) (hwithin : k.Within o o.quantity) (hauction : ∀ q, k ≠ .auction q)
    (hcut : ∀ n, k = .cut n → ∃ t, x.known t ∧ Traits.Conflict o.traits t) :
    Shift w id o k .transit
      { w with
        transit := pre ++ (if k.rest o = 0 then [] else
          [{ order := o.withQuantity (k.rest o), filled := none, replaced := t.replaced, acked := true }]) ++ post }
  | call (ho : w.call.engine.callMarkets[id]? = some o) (hwithin : k.Within o o.quantity)
    (hkind : k = .drop ∨ ∃ q, k = .auction q) :
    Shift w id o k .call
      { w with
        call := w.call.onEngine fun e =>
          { e with
            callMarkets :=
              if k.rest o = 0 then e.callMarkets.erase id else e.callMarkets.insert id (o.withQuantity (k.rest o)) } }
  | stops {pre post} (hparked : w.call.engine.stopBook.parked = pre ++ o :: post) (hid : o.orderId = id)
    (hkind : k = .drop) :
    Shift w id o k .stops { w with call := w.call.onEngine fun e => { e with stopBook := { parked := pre ++ post } } }
  | held (ho : w.call.engine.heldClose[id]? = some o) (hkind : k = .drop) :
    Shift w id o k .held { w with call := w.call.onEngine fun e => { e with heldClose := e.heldClose.erase id } }

/-- The same orders with the same quantities, slices and fills. -/
structure SameBook (b b' : OrderBook) : Prop where
  queue : ∀ s p, b'.queue s p = b.queue s p
  lookup : ∀ id : String, b'.orderLookup[id]? = b.orderLookup[id]?
  displayed : ∀ id : String, b'.displayed[id]? = b.displayed[id]?
  cumFilled : ∀ id : String, b'.cumFilled[id]?.getD 0 = b.cumFilled[id]?.getD 0
  noEmpty : b'.NoEmpty
  kept : Kept b.orderLookup b.arrival b.cumFilled → Kept b'.orderLookup b'.arrival b'.cumFilled

/-- The market data changes of an output. -/
def mdOf : Output R → List MdChange
  | .marketData u => u.changes
  | _ => []

/-- The market data changes that a list of outputs carries for one side. -/
def mdChanges (side : OrderSide) (out : List (Output R)) : List MdChange :=
  (out.flatMap mdOf).filter (·.side = sideToProto side)

def tradeOf : Output R → Option TradeCaptureReport
  | .trade t => some t
  | _ => none

def infoOf : Output R → Option AuctionInfo
  | .auctionInfo info => some info
  | _ => none

/-- A listener joins, or the phase is announced. -/
def Output.opens : Output R → Bool
  | .snapshot .. | .tradingSessionStatus _ => true
  | .auctionInfo _ | .executionReport .. | .marketData _ | .trade _ | .massCancelCount _ => false

/-- The imbalance with its sign: positive if there is more to buy. -/
def AuctionInfo.imbalance (info : AuctionInfo) : Int :=
  if info.imbalanceSide = sideToProto .sell then -info.imbalanceQuantity else info.imbalanceQuantity

def AuctionInfo.Carries (info : AuctionInfo) (r : AuctionResult) : Prop :=
  info.indicativePrice = r.price ∧ info.indicativeVolume = r.volume ∧ info.imbalance = r.imbalance

/-- Whoever has listened since some output that opens was last sent the indicative that was published last. -/
def Call.Informs (base : List (Output R)) (c : Call R) : Prop :=
  ∀ r, c.engine.lastIndicative = some r → ∀ pre o post, base ++ c.out = pre ++ o :: post → o.opens = true →
    ∃ info, (post.filterMap infoOf).getLast? = some info ∧ info.Carries r

/-- Nothing happened to an order, and nothing was sent about one. -/
structure Quiet (c c' : Call R) : Prop where
  engine : c'.engine =
    { c.engine with
      book := c'.engine.book
      lastTradePrice := c'.engine.lastTradePrice
      lastSeen := c'.engine.lastSeen
      nextArrival := c'.engine.nextArrival
      lastIndicative := c'.engine.lastIndicative }
  book : SameBook c.engine.book c'.engine.book
  stp : c'.engine.book.stp = {}
  out : ∃ l, c'.out = c.out ++ l ∧ ∀ o ∈ l, Engine.reportOf o = none ∧ mdOf o = [] ∧ tradeOf o = none
  informs : ∀ base, c.Informs base → c'.Informs base

/-- The report state of an order and the order itself agree. -/
structure Agrees (id : String) (o : Order) (st : OrderState R) : Prop where
  orderId : o.orderId = id
  quantity : o.quantity + st.cumQty = st.orderQty
  positive : 0 < o.quantity
  small : o.quantity < 2 ^ 31
  total : st.orderQty < 2 ^ 32
  trader : o.traderId = st.sender
  side : sideToProto o.side = st.side
  timeInForce : o.timeInForce = st.timeInForce
  display : o.displayQuantity = st.displayQuantity
  displaySmall : o.displayQuantity < 2 ^ 32
  iceberg : o.displayQuantity ≠ 0 → o.orderType = .limit ∧
    (o.timeInForce = .day ∨ o.timeInForce = .gtc ∨ o.timeInForce = .gtd)

/-- What a container holds. -/
def Place.Holds (o : Order) (st : OrderState R) : Place → Prop
  | .book => o.orderType = .limit
  | .stops => (o.orderType = .stop ∨ o.orderType = .stopLimit) ∧ st.cumQty = 0
  | .call => o.orderType = .market
  | .held => (o.orderType = .market ∨ o.orderType = .limit) ∧ o.timeInForce = .atClose
  | .transit => True

/-- The order that a request is about. -/
def Op.target : Op R → Option String
  | .newOrder order _ => some order.orderId
  | .cancel m => some m.orderId
  | .cancelReplace m => some m.orderId
  | .massCancel _ | .subscribe _ | .beginOpeningCall _ | .tick => none

/-- The trading phase changes in the tick and when the operator starts a call. -/
def Op.setsPhase : Op R → Bool
  | .beginOpeningCall _ | .tick => true
  | .newOrder .. | .cancel _ | .cancelReplace _ | .massCancel _ | .subscribe _ => false

/-- The order is no longer live after a report with this status. -/
def OrderStatus.isTerminal : OrderStatus → Bool
  | .filled | .canceled | .expired | .replaced => true
  | .new | .partiallyFilled | .rejected => false

/-- The text of a report that self-trade prevention caused. -/
def StpReason (reason : String) : Prop := ∃ mode : StpMode, reason = "self-trade prevention (" ++ mode.asStr ++ ")"

/-- One thing that happens in a call. -/
inductive Step (w : Progress R) : Progress R → Prop
  /-- A live order is filled, cut or finished, and its owner is told. -/
  | edit {w₁ pl id o k st rst px owner ev ts} (hst : w.call.engine.states[id]? = some st)
    (hshift : Shift x w id o k pl w₁)
    (hev : ev.execType ≠ .rejected ∧ ev.execType ≠ .replaced) (htells : k.Tells px ev)
    (hprinted : k.traded ≠ 0 → w.printed = [] ∨ w.printed = k.prints px)
    (hcum : rst.cumQty = (k.state o px st).cumQty ∧ rst.notional = (k.state o px st).notional)
    (hrst : if k.rest o = 0 then ev.leaves = 0 else rst = k.state o px st ∧ ev.leaves = rst.leaves)
    (hstatus : ev.status.isTerminal = decide (k.rest o = 0))
    (hreason : StpReason ev.rejectReason → ∃ n, k = .cut n) :
    Step w { w₁ with
      call := w₁.call.tell id (if k.rest o = 0 then none else some (k.state o px st)) owner rst ev ts
      printed := w.printed ++ k.prints px }
  /-- The public trade of the fills that were reported last. -/
  | print {px qty side auction ts} (h : w.printed = [(px, qty), (px, qty)]) :
    Step w { w with call := w.call.pushTrade ts px qty side auction, printed := [] }
  /-- A new order is accepted; it executes as `triggeredType` says. -/
  | enter {order owner arrival o o'} {ack : Bool} {ts ts'} (hreq : x.request = some (.newOrder order owner))
    (hof : Call.orderOf x.start order ts = .ok o)
    (ho' : o' = o ∨ o' = triggeredType o) (hnew : w.call.engine.states[o.orderId]? = none)
    (hknown : x.known o.traits) (hagrees : Agrees o.orderId o' (OrderState.new order o.quantity owner arrival))
    (hiceberg : o.displayQuantity ≠ 0 → w.call.engine.auctionsEnabled = false ∧ w.auction = false)
    (hfirst : w.call.engine.issued = x.start.issued)
    (hentry : entryReason x.start.phase x.start.auctionsEnabled o.orderType o.timeInForce = none)
    (harrival : arrival = x.start.nextArrival + 1) :
    Step w
      { w with
        call :=
          (if ack then w.call.acknowledge owner o.orderId (OrderState.new order o.quantity owner arrival) ts'
            else w.call).setState o.orderId (OrderState.new order o.quantity owner arrival)
        transit := w.transit ++ [{ order := o', filled := some 0, replaced := false, acked := ack }] }
  /-- An order comes to rest on the book. -/
  | rest {pre post t filled b} (ht : w.transit = pre ++ t :: post)
    (hacked : t.acked = true) (htype : t.order.orderType = .limit) (hfilled : t.filled = some filled)
    (htif : t.replaced = true ∨ (t.order.timeInForce ≠ .ioc ∧ t.order.timeInForce ≠ .fok))
    (hadd : Added w.call.engine.book t.order filled b) (hstp : b.stp = {}) :
    Step w
      { w with
        call := w.call.onEngine fun e => { e with book := b }
        transit := pre ++ post
        rested := w.rested ++ [{ updateType := .newOrder, price := t.order.price, quantity := firstSlice t.order
                                 side := t.order.side }]
        crossed := true }
  | park {pre post t} (ht : w.transit = pre ++ t :: post) (hacked : t.acked = true)
    (hfilled : t.filled = some 0) (htype : t.order.orderType = .stop ∨ t.order.orderType = .stopLimit)
    (hcum : ∀ st, w.call.engine.states[t.order.orderId]? = some st → st.cumQty = 0) :
    Step w
      { w with
        call := w.call.onEngine fun e => { e with stopBook := e.stopBook.park t.order }
        transit := pre ++ post }
  /-- A market order joins the auction. -/
  | queue {pre post t} (ht : w.transit = pre ++ t :: post) (hacked : t.acked = true)
    (htype : t.order.orderType = .market) (hphase : isCall w.call.engine.phase = true)
    (htif : t.order.timeInForce ≠ .ioc ∧ t.order.timeInForce ≠ .fok) :
    Step w
      { w with
        call := w.call.onEngine fun e => { e with callMarkets := e.callMarkets.insert t.order.orderId t.order }
        transit := pre ++ post }
  /-- An order is held for the close. -/
  | hold {pre post t} (ht : w.transit = pre ++ t :: post) (hacked : t.acked = true)
    (hfilled : t.filled ≠ none) (htype : t.order.orderType = .market ∨ t.order.orderType = .limit)
    (htif : t.order.timeInForce = .atClose) (hphase : w.call.engine.phase ≠ .closingCall) :
    Step w
      { w with
        call := w.call.onEngine fun e => { e with heldClose := e.heldClose.insert t.order.orderId t.order }
        transit := pre ++ post }
  /-- Parked stops are triggered. -/
  | trigger {triggered remaining} (hperm : (triggered ++ remaining).Perm w.call.engine.stopBook.parked) :
    Step w
      { w with
        call := w.call.onEngine fun e => { e with stopBook := { parked := remaining } }
        transit := triggered.map (fun o =>
          { order := triggeredType o, filled := some 0, replaced := false, acked := true }) ++ w.transit }
  /-- The held orders are released for the closing call. -/
  | release {held : List Order}
    (hheld : ∀ id : String, held.filter (·.orderId = id) = w.call.engine.heldClose[id]?.toList) :
    Step w
      { w with
        call := w.call.onEngine fun e => { e with heldClose := ∅ }
        transit := held.map (fun o => { order := o, filled := some 0, replaced := false, acked := true }) ++ w.transit }
  /-- A live order leaves its container, and its replacement takes its place in `states`. -/
  | swap {w₁ pl m newTif o t st st' ts} (hreq : x.request = some (.cancelReplace m))
    (hshift : Shift x w m.orderId o .drop pl w₁) (hst : w.call.engine.states[m.orderId]? = some st)
    (hstart : w.call.engine.states = x.start.states ∧ w.call.engine.phase = x.start.phase ∧
      w.call.engine.book.orderLookup = x.start.book.orderLookup)
    (htransit : w.transit = []) (hparse : parseReplaceTimeInForce m.newTimeInForce = .ok newTif)
    (htif : t.order.timeInForce = newTif.getD o.timeInForce)
    (hnew : m.newOrderId ≠ m.orderId → w.call.engine.states[m.newOrderId]? = none)
    (hagrees : Agrees m.newOrderId t.order st') (hknown : x.known t.order.traits)
    (hsender : st'.sender = m.sender)
    (hiceberg : t.order.displayQuantity ≠ 0 → w.call.engine.auctionsEnabled = false ∧ w.auction = false)
    (hacked : t.acked = true) (hreplaced : t.replaced = decide (pl = .book))
    (hfilled : t.filled = some (if pl = .book then w.call.engine.book.cumFilled[m.orderId]?.getD 0 else 0))
    (hcum : (pl = .stops → st'.cumQty = 0 ∧ st'.notional = 0) ∧
      (pl ≠ .stops → st'.cumQty = st.cumQty ∧ st'.notional = st.notional))
    (htype : t.order.orderType = o.orderType) (hfirst : w.call.engine.issued = x.start.issued)
    (hentry : ∃ ty, entryReason x.start.phase x.start.auctionsEnabled ty t.order.timeInForce = none)
    (harrival : st'.arrival = x.start.nextArrival + 1)
    (hscope : t.order.traderId = o.traderId ∧ t.order.side = o.side ∧ t.order.stp = o.stp) :
    Step w
      { w₁ with
        call := w₁.call.takeOver m st' ts
        transit := [t] }
  /-- The request is rejected. -/
  | reject {owner id st ev ts} (hreq : x.request.bind Op.target = some id)
    (hev : ev.execType = .rejected ∧ ev.lastQty = 0) : Step w { w with call := w.call.report owner id st ev ts }
  /-- Nothing happens to an order; only the tick, which no request asked for, may move the high-water mark. -/
  | note {c} (h : Quiet w.call c)
    (hseen : x.request.isSome = true → c.engine.lastSeen = w.call.engine.lastSeen) : Step w { w with call := c }
  /-- The waiting market data is sent. -/
  | flush {out} (hmd : ∀ o ∈ out, ∃ u, o = .marketData u ∧ ∀ c ∈ u.changes, ∃ s, c.side = sideToProto s)
    (hout : ∀ s, mdChanges s out =
      ((w.rested ++ w.stp ++ w.fills).filter (·.side = s)).map MarketOrderUpdate.toWire) :
    Step w { w with call := w.call.send out, rested := [], stp := [], fills := [] }
  | settle (h : isCall w.call.engine.phase = true ∨ w.call.engine.book.Uncrossed) : Step w { w with crossed := false }
  | setPhase {phase instant} (h : isCall phase = true ∨
      (w.call.engine.book.Uncrossed ∧ ∀ id : String, w.call.engine.callMarkets[id]? = none))
    (htransit : w.transit = []) (hreq : ∀ op, x.request = some op → op.setsPhase = true) :
    Step w { w with call := w.call.setPhase phase instant }
  /-- The operator starts a call. -/
  | beginCall {seconds t} (hreq : x.request = some (.beginOpeningCall seconds)) (hseconds : seconds ≠ 0)
    (hphase : isCall x.start.phase = false)
    (hstart : w.call.engine.book = x.start.book) (htransit : w.transit = []) :
    Step w { w with call := w.call.onEngine fun e => { e with callUntil := some t } }
  | startAuction {callUntil} (h : w.call.engine.auctionsEnabled = true)
    (hcall : callUntil = none ∨ callUntil = w.call.engine.callUntil) (hreq : ∀ op, x.request = some op → op = .tick) :
    Step w { w with call := w.call.onEngine fun e => { e with callUntil := callUntil }, auction := true }
  | endAuction (h : ∀ id : String, w.call.engine.callMarkets[id]? = none) : Step w { w with auction := false }

end steps

end Fxp
