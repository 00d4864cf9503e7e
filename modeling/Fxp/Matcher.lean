import Fxp.Book
import Fxp.Lib.Loop
import Mathlib

/-!
# Matching

Two ways to cross orders.
-/

namespace Fxp

open Checked

structure ExecutionReport where
  buyOrderId : String
  sellOrderId : String
  tradePrice : Int
  tradeQuantity : Nat
  aggressorSide : OrderSide
  buyFullyFilled : Bool
  sellFullyFilled : Bool
deriving DecidableEq, Repr

/-- Whether `newer` arriving against `older` is a self-match to prevent. -/
def selfMatch (newer older : Order) : Bool := newer.stp.mode != .none && newer.stpKey == older.stpKey

/-- What STP leaves of the newer and of the older order. -/
def stpLeft (mode : StpMode) (newer older : Nat) : Nat × Nat :=
  match mode with
  | .cancelNewest => (0, older)
  | .cancelOldest => (newer, 0)
  | .cancelBoth => (0, 0)
  | _ => (newer - min newer older, older - min newer older)

/-- Progress of an aggressive order sweeping the book; `stopped` when STP canceled the aggressor. -/
structure Sweep where
  remaining : Nat
  fills : List ExecutionReport := []
  fillUpdates : List MarketDataIncrementalUpdate := []
  stopped : Bool := false

structure AggressiveResult where
  fills : List ExecutionReport
  fillUpdates : List MarketDataIncrementalUpdate
  unfilledQty : Nat
  restOnBook : Bool
  stpCanceled : Bool

namespace Sweep

def new (order : Order) : Sweep := { remaining := order.quantity }

def live (sweep : Sweep) : Bool := 0 < sweep.remaining && !sweep.stopped

def finish (sweep : Sweep) : AggressiveResult :=
  { fills := sweep.fills
    fillUpdates := sweep.fillUpdates
    unfilledQty := if sweep.stopped then 0 else sweep.remaining
    restOnBook := false
    stpCanceled := sweep.stopped }

end Sweep

namespace OrderBook

variable (book : OrderBook)

def pushStpEvent (event : StpEvent) : OrderBook :=
  { book with stp := { book.stp with events := book.stp.events ++ [event] } }

def pushStpUpdate (update : MarketDataIncrementalUpdate) : OrderBook :=
  { book with stp := { book.stp with updates := book.stp.updates ++ [update] } }

variable (order : Order)

/-- Cuts an order taken from its level down to `left`: canceled or restated. Reserve is consumed first, then the
displayed slice. -/
def stpCut (price : Int) (left : Nat) (opposing : String) (mode : StpMode)
    (beforeFill : Nat) : OrderBook × Order :=
  let cut := order.quantity - left
  if cut = 0 then (book, order)
  else
    let before := book.visible order
    let visible := min before left
    let order := { order with quantity := left }
    let book :=
      if visible < before then
        book.pushStpUpdate (book.generateIncrementalUpdate .cancelOrder price (before - visible) order.side)
      else book
    let book := book.syncVisibleFill order 0 visible
    (book.pushStpEvent
      { opposingOrder := opposing
        orderId := order.orderId
        action := if left = 0 then .canceled else .restated cut
        mode := mode
        beforeFill := beforeFill }, order)

structure MatchState where
  book : OrderBook
  fills : List ExecutionReport
  updates : List MarketDataIncrementalUpdate

/-- The order that came to rest last is the newer one; between two others the later arrival. -/
def bidNewer (aggressor : Option String) (bid ask : Order) : Except Panic Bool :=
  if aggressor = some bid.orderId then .ok true
  else if aggressor = some ask.orderId then .ok false
  else do
    let bidArrival ← get book.arrival[bid.orderId]?
    let askArrival ← get book.arrival[ask.orderId]?
    .ok (decide (askArrival < bidArrival))

/-- A prevented self-match of the popped orders: the older one is cut first. -/
def preventMatch (s : MatchState) (book : OrderBook) (newer older : Order) : OrderBook × Order × Order :=
  let mode := newer.stp.mode
  let left := stpLeft mode newer.quantity older.quantity
  let (book, older') := book.stpCut older older.price left.2 newer.orderId mode s.fills.length
  let (book, newer') := book.stpCut newer newer.price left.1 older.orderId mode s.fills.length
  (book, newer', older')

/-- A print between the popped orders, at the price of the older one. -/
def crossMatch (s : MatchState) (book : OrderBook) (bid ask : Order) (newer : Bool) (bidPrice askPrice : Int) :
    MatchState :=
  let bidVisible := book.visible bid
  let askVisible := book.visible ask
  let quantity := min bidVisible askVisible
  let bid := { bid with quantity := subU32 bid.quantity quantity }
  let ask := { ask with quantity := subU32 ask.quantity quantity }
  let book := book.syncVisibleFill bid quantity (bidVisible - quantity)
  let book := book.syncVisibleFill ask quantity (askVisible - quantity)
  let fill :=
    { buyOrderId := bid.orderId
      sellOrderId := ask.orderId
      tradePrice := if newer then askPrice else bidPrice
      tradeQuantity := quantity
      aggressorSide := if newer then .buy else .sell
      buyFullyFilled := bid.quantity == 0
      sellFullyFilled := ask.quantity == 0 }
  let modify := [bid, ask].map fun o => book.generateIncrementalUpdate .modifyOrder o.price quantity o.side
  let (book, bidRefresh) := book.replenish bid
  let (book, askRefresh) := book.replenish ask
  let book := book.requeue bid bidRefresh.isSome
  let book := book.requeue ask askRefresh.isSome
  { book := book
    fills := s.fills ++ [fill]
    updates := s.updates ++ modify ++ bidRefresh.toList ++ askRefresh.toList }

def matchStep (aggressor : Option String) (s : MatchState) : Except Panic (Option MatchState) :=
  match s.book.bestPrice .buy, s.book.bestPrice .sell with
  | some bidPrice, some askPrice =>
    if bidPrice < askPrice then .ok none
    else do
      let (bid, book) ← get (s.book.popBest .buy)
      let (ask, book) ← get (book.popBest .sell)
      let newer ← book.bidNewer aggressor bid ask
      if newer then
        if selfMatch bid ask then
          let (book, bid, ask) := preventMatch s book bid ask
          .ok (some { s with book := (book.requeue bid false).requeue ask false })
        else .ok (some (crossMatch s book bid ask true bidPrice askPrice))
      else
        if selfMatch ask bid then
          let (book, ask, bid) := preventMatch s book ask bid
          .ok (some { s with book := (book.requeue bid false).requeue ask false })
        else .ok (some (crossMatch s book bid ask false bidPrice askPrice))
  | _, _ => .ok none

def sideQuantity (side : OrderSide) : Nat :=
  ((book.levels side).toList.map fun e => (e.2.map Order.quantity).sum).sum

/-- Crosses the book after an order was added.  Every step uses up some remaining quantity, which bounds the loop. -/
def matchOrders : Except Panic MatchState :=
  let book := { book with stp := {} }
  Loop.runM (matchStep book.lastAdded) (book.sideQuantity .buy + book.sideQuantity .sell + 1)
    { book := book, fills := [], updates := [] }

structure LevelState where
  book : OrderBook
  level : List Order
  sweep : Sweep

/-- The aggressor meets its own order `top` at the front of the level. -/
def preventFill (aggressor : Order) (price : Int) (s : LevelState) (top : Order) (level : List Order) : LevelState :=
  let mode := aggressor.stp.mode
  let beforeFill := s.sweep.fills.length
  let left := stpLeft mode s.sweep.remaining top.quantity
  let (book, top) := s.book.stpCut top price left.2 aggressor.orderId mode beforeFill
  let aggrCut := s.sweep.remaining - left.1
  let event (action : StpAction) : StpEvent :=
    { opposingOrder := top.orderId
      orderId := aggressor.orderId
      action := action
      mode := mode
      beforeFill := beforeFill }
  let (book, sweep) :=
    if left.1 = 0 then (book.pushStpEvent (event .canceled), { s.sweep with stopped := true })
    else if 0 < aggrCut then
      (book.pushStpEvent (event (.restated aggrCut)), { s.sweep with remaining := left.1 })
    else (book, s.sweep)
  { book := book, level := if 0 < top.quantity then top :: level else level, sweep := sweep }

/-- A print of the aggressor against the displayed slice of `top`. -/
def takeFill (aggressor : Order) (price : Int) (s : LevelState) (top : Order) (level : List Order) : LevelState :=
  let visible := s.book.visible top
  let quantity := min visible s.sweep.remaining
  let top := { top with quantity := subU32 top.quantity quantity }
  let remaining := s.sweep.remaining - quantity
  let book := s.book.syncVisibleFill top quantity (visible - quantity)
  let fill :=
    match aggressor.side with
    | .buy =>
      { buyOrderId := aggressor.orderId
        sellOrderId := top.orderId
        tradePrice := price
        tradeQuantity := quantity
        aggressorSide := aggressor.side
        buyFullyFilled := remaining == 0
        sellFullyFilled := top.quantity == 0 }
    | .sell =>
      { buyOrderId := top.orderId
        sellOrderId := aggressor.orderId
        tradePrice := price
        tradeQuantity := quantity
        aggressorSide := aggressor.side
        buyFullyFilled := top.quantity == 0
        sellFullyFilled := remaining == 0 }
  let modify := book.generateIncrementalUpdate .modifyOrder price quantity top.side
  let (book, refresh) := book.replenish top
  { book := book
    level := if refresh.isSome then level ++ [top] else if 0 < top.quantity then top :: level else level
    sweep :=
      { s.sweep with
        remaining := remaining
        fills := s.sweep.fills ++ [fill]
        fillUpdates := s.sweep.fillUpdates ++ [modify] ++ refresh.toList } }

def fillStep (aggressor : Order) (price : Int) (s : LevelState) : Option LevelState :=
  if s.sweep.live then
    match s.level with
    | [] => none
    | top :: level =>
      if selfMatch aggressor top then some (preventFill aggressor price s top level)
      else some (takeFill aggressor price s top level)
  else none

/-- Fills the aggressor against one price level, which is taken out of the book; what is left of it is put back. -/
def fillLevel (aggressor : Order) (price : Int) (sweep : Sweep) : OrderBook × Sweep :=
  let side := aggressor.side.opposite
  let level := book.queue side price
  let book := book.setLevels side ((book.levels side).erase price)
  let s := Loop.run (fillStep aggressor price) (sweep.remaining + (level.map Order.quantity).sum + 1)
    { book := book, level := level, sweep := sweep }
  (if s.level.isEmpty then s.book else s.book.setLevels side ((s.book.levels side).insert price s.level), s.sweep)

/-- One round of a sweep; `limit` bounds the prices it may take. -/
def sweepStep (crosses : Int → Bool) (s : OrderBook × Sweep) : Option (OrderBook × Sweep) :=
  if s.2.live then
    match s.1.bestPrice order.side.opposite with
    | none => none
    | some price => if crosses price then some (s.1.fillLevel order price s.2) else none
  else none

/-- Every round but the last empties a level, which bounds the loop. -/
def sweep (crosses : Int → Bool) : OrderBook × AggressiveResult :=
  let s := Loop.run (sweepStep order crosses) ((book.levels order.side.opposite).size + 1) (book, Sweep.new order)
  (s.1, s.2.finish)

def executeMarket : OrderBook × AggressiveResult :=
  book.sweep order fun _ => true

def crosses (price : Int) : Bool :=
  match order.side with
  | .buy => price ≤ order.price
  | .sell => order.price ≤ price

def executeIoc : OrderBook × AggressiveResult :=
  book.sweep order (crosses order)

/-- The resting orders a limit order could trade with, best price first, in queue order. -/
def crossing : List Order :=
  match order.side with
  | .buy => (book.sellOrders.toList.filter fun e => e.1 ≤ order.price).flatMap (·.2)
  | .sell => ((book.buyOrders.toList.filter fun e => order.price ≤ e.1).reverse).flatMap (·.2)

/-- One level of the FOK scan: the quantity available after it, or the own order met before; then only displayed
slices count, since it is met in the first rotation. -/
def fokLevel (book : OrderBook) (order : Order) (want : Nat) (hasSelf : Bool) :
    List Order → Nat → Nat × Option String
  | [], available => (available, none)
  | resting :: queue, available =>
    if want ≤ available then (available, none)
    else if selfMatch order resting then (available, some resting.orderId)
    else fokLevel book order want hasSelf queue
      (available + if hasSelf then book.visible resting else resting.quantity)

/-- The FOK liquidity scan over the crossing orders, level by level. -/
def fokScan (book : OrderBook) (order : Order) (want : Nat) : Nat → List Order → Nat → Nat × Option String
  | 0, _, available => (available, none)
  | _, [], available => (available, none)
  | fuel + 1, first :: rest, available =>
    if want ≤ available then (available, none)
    else
      let (queue, later) := (first :: rest).span (·.price = first.price)
      match fokLevel book order want (queue.any (selfMatch order)) queue available with
      | (available, some id) => (available, some id)
      | (available, none) => fokScan book order want fuel later available

/-- Fills everything or kills the order.  A self-match before the quantity is covered kills it without touching the
book. -/
def executeFok : OrderBook × AggressiveResult :=
  let orders := book.crossing order
  match book.fokScan order order.quantity orders.length orders 0 with
  | (_, some opposing) =>
    (book.pushStpEvent
      { orderId := order.orderId
        opposingOrder := opposing
        action := .canceled
        mode := order.stp.mode
        beforeFill := 0 },
      { fills := [], fillUpdates := [], unfilledQty := 0, restOnBook := false, stpCanceled := true })
  | (available, none) =>
    if available < order.quantity then
      (book, { fills := [], fillUpdates := [], unfilledQty := order.quantity, restOnBook := false
               stpCanceled := false })
    else
      let (book, result) := book.executeIoc order
      (book, { result with restOnBook := false })

/-- A resting limit order: the caller adds it to the book and matches. -/
def restResult : AggressiveResult :=
  { fills := [], fillUpdates := [], unfilledQty := order.quantity, restOnBook := true, stpCanceled := false }

def processLimit : OrderBook × AggressiveResult :=
  match order.timeInForce with
  | .ioc => book.executeIoc order
  | .fok => book.executeFok order
  | .day | .gtc | .gtd | .atOpen | .atClose => (book, restResult order)

/-- A triggered stop executes as a market order, a triggered stop-limit as a limit order with its own time in force.
-/
def processAggressive : OrderBook × AggressiveResult :=
  match order.orderType with
  | .market | .stop => book.executeMarket order
  | .limit => book.processLimit order
  | .stopLimit => book.processLimit { order with orderType := .limit }

/-- Whether a print at `price` triggers the stop. -/
def stopFires (price : Int) : Bool :=
  match order.side with
  | .buy => order.stopPrice ≤ price
  | .sell => price ≤ order.stopPrice

/-- Splits the parked stops into those that a print triggers, farthest from the print first, and those that stay. -/
def drainTriggeredStops (stopBook : List Order) (lastTradePrice : Int) : List Order × List Order :=
  let (triggered, remaining) := stopBook.partition (stopFires · lastTradePrice)
  (triggered.insertionSort fun a b =>
      (b.stopPrice - lastTradePrice).natAbs ≤ (a.stopPrice - lastTradePrice).natAbs,
    remaining)

end OrderBook

end Fxp
