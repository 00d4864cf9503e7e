import Fxp.Engine

/-!
# Session phases

Trading phases, expiry and the opening and closing auctions.  `Call.advance` walks from the last instant seen to the
current one and stops at every instant at which something is due: a boundary of the schedule, the end of an operator's
opening call, or the expiry of a good-till-date order.
-/

namespace Fxp

open Checked

def entryReason (phase : TradingPhase) (full : Bool) (ty : OrderType) (tif : TimeInForce) : Option String :=
  if phase = .closed then some "market closed"
  else if (tif = .atOpen ∨ tif = .atClose) ∧ !full then some "no auction scheduled"
  else if (tif = .atOpen ∨ tif = .atClose) ∧ (ty = .stop ∨ ty = .stopLimit) then
    some "auction time in force requires limit or market"
  else if tif = .atOpen ∧ phase ≠ .openingCall then some "opening auction not in progress"
  else if isCall phase ∧ (tif = .ioc ∨ tif = .fok) then some "IOC/FOK not supported during auction call"
  else none

def OrderSide.toAuction : OrderSide → AuctionSide
  | .buy => .buy
  | .sell => .sell

namespace Engine

variable {R : Type}

/-- The live orders that satisfy `P`, in arrival order. -/
def targets (e : Engine R) (P : String → OrderState R → Bool) : List String :=
  ((((e.iterations.states.entries e.states).filter fun s => P s.1 s.2).map fun s => (s.2.arrival, s.1)).insertionSort
    fun a b => a.1 < b.1 ∨ (a.1 = b.1 ∧ a.2 ≤ b.2)).map (·.2)

def auctionOrder (e : Engine R) (o : Order) : Except Panic AuctionOrder := do
  let state ← get e.states[o.orderId]?
  .ok
    { id := o.orderId
      side := o.side.toAuction
      limitPrice := if o.orderType = .market then none else some o.price
      quantity := o.quantity
      seq := e.book.arrival[o.orderId]?.getD state.arrival }

def participants (e : Engine R) : List Order :=
  e.iterations.orderLookup.values e.book.orderLookup ++ e.iterations.callMarkets.values e.callMarkets

def auctionOrders (e : Engine R) : Except Panic (List AuctionOrder) := e.participants.mapM e.auctionOrder

/-- Takes a live order out of its container; the market data is that of an order on the book. -/
def removeLive (e : Engine R) (id : String) : Except Panic (Engine R × Option MarketDataIncrementalUpdate) :=
  match e.book.cancelOrder id with
  | some (book, md) => .ok ({ e with book := book }, some md)
  | none =>
    if e.callMarkets.contains id then .ok ({ e with callMarkets := e.callMarkets.erase id }, none)
    else if e.heldClose.contains id then .ok ({ e with heldClose := e.heldClose.erase id }, none)
    else do
      let state ← get e.states[id]?
      match e.stopBook.cancelFor id state.sender with
      | .error _ => .error .missing
      | .ok (stops, _) => .ok ({ e with stopBook := stops }, none)

end Engine

namespace Call

variable {R : Type}

def setPhase (phase : TradingPhase) (instant : Time) (c : Call R) : Call R :=
  if c.engine.phase = phase then c
  else
    { engine := { c.engine with phase := phase, lastIndicative := none }
      out := c.out ++
        [.tradingSessionStatus { symbol := c.engine.symbol, phase := phase, timestamp := instant }] }

variable (instant : Time)

/-- In a call, publishes the indicative uncross when it changed. -/
def publishIndicative (c : Call R) : Except Panic (Call R) :=
  let e := c.engine
  if !isCall e.phase then .ok c
  else do
    let orders ← e.auctionOrders
    let result ← uncross orders e.lastTradePrice
    if e.lastIndicative = some result then .ok c
    else
      .ok
        { engine := { e with lastIndicative := some result }
          out := c.out ++
            [.auctionInfo
              { symbol := e.symbol
                phase := e.phase
                indicativePrice := result.price
                indicativeVolume := result.volume
                imbalanceQuantity := result.imbalance.natAbs
                imbalanceSide :=
                  if 0 < result.imbalance then sideToProto .buy
                  else if result.imbalance < 0 then sideToProto .sell
                  else 0
                referencePrice := e.lastTradePrice.getD 0
                timestamp := instant }] }

/-- Takes a live order out and reports `ev` to the connection that `owner` picks. -/
def finish (id : String) (owner : OrderState R → R) (ev : ReportEvent) (ts : Time) (c : Call R) :
    Except Panic (Call R) := do
  let (e, md) ← c.engine.removeLive id
  let state ← get e.states[id]?
  let c := ({ c with engine := e }.dropState id).report (owner state) id (some state) ev ts
  .ok (md.toList.foldl (pushMd ts) c)

def finishOrder (expired : Bool) (instant : Time) (c : Call R) (id : String) : Except Panic (Call R) :=
  let ev : ReportEvent :=
    if expired then { execType := .expired, status := .expired, origOrderId := id }
    else { execType := .canceled, status := .canceled, origOrderId := id }
  c.finish id OrderState.outputTx ev instant

/-- Whether an order expires at `at`: a day order at the end of the day, a good-till-date order after its date. -/
def expires (day : Bool) (s : OrderState R) : Bool :=
  (day && s.timeInForce = .day) ||
    (s.timeInForce = .gtd &&
      match expiryInstant s.expireDate with
      | .ok t => decide (Time.ofSeconds t ≤ instant)
      | .error _ => false)

def expire (day : Bool) (c : Call R) : Except Panic (Call R) :=
  (c.engine.targets fun _ s => expires instant day s).foldlM (finishOrder true instant) c

def cancelRemainders (tif : TimeInForce) (instant : Time) (c : Call R) : Except Panic (Call R) :=
  (c.engine.targets fun id s => s.timeInForce = tif || c.engine.callMarkets.contains id).foldlM
    (finishOrder false instant) c

/-- Applies one side of an auction fill to the book or the queued market order; market data waits for the end. -/
def auctionHit (price : Int) (quantity : Nat) (s : Call R × List MarketDataIncrementalUpdate)
    (id : String) : Except Panic (Call R × List MarketDataIncrementalUpdate) := do
  let e := s.1.engine
  let (e, md) ←
    if e.book.orderLookup.contains id then do
      let (book, update) ← e.book.applyAuctionFill id quantity
      .ok ({ e with book := book }, s.2 ++ [update])
    else do
      let order ← get e.callMarkets[id]?
      let left := subU32 order.quantity quantity
      let callMarkets :=
        if left = 0 then e.callMarkets.erase id else e.callMarkets.insert id { order with quantity := left }
      .ok ({ e with callMarkets := callMarkets }, s.2)
  .ok (applyFill instant price quantity true { s.1 with engine := e } id, md)

def auctionFill (s : Call R × List MarketDataIncrementalUpdate) (f : AuctionFill) :
    Except Panic (Call R × List MarketDataIncrementalUpdate) := do
  let s ← auctionHit instant f.price f.quantity s f.buyId
  let s ← auctionHit instant f.price f.quantity s f.sellId
  .ok (pushTrade instant f.price f.quantity 0 true s.1, s.2)

/-- Runs the auction; the result is the auction price if there was volume. -/
def runAuction (c : Call R) : Except Panic (Call R × Option Int) := do
  let orders ← c.engine.auctionOrders
  let result ← uncross orders c.engine.lastTradePrice
  let (c, md) ← (allocate orders result).foldlM (auctionFill instant) (c, [])
  let c := md.foldl (pushMd instant) c
  if result.volume = 0 then .ok (c, none)
  else .ok ({ c with engine := { c.engine with lastTradePrice := some result.price } }, some result.price)

/-- Executes one stop that the auction price triggered. -/
def openStop (s : OrderBook × Execution) (stop : Order) : Except Panic (OrderBook × Execution) := do
  let (book, exec, _) ← s.1.executeInto stop { s.2 with triggered := s.2.triggered ++ [stop.orderId] }
  .ok (book, exec)

/-- Executes the stops that the auction price triggered, and the cascade they start. -/
def openStops (price : Int) (c : Call R) : Except Panic (Call R) := do
  let (triggered, stops) := c.engine.stopBook.drainTriggered price
  let (book, exec) ← triggered.foldlM openStop (c.engine.book, {})
  cascade instant exec { c with engine := { c.engine with book := book, stopBook := stops } }

/-- A held order joins the closing call. -/
def releaseHeld (c : Call R) (order : Order) : Call R :=
  let e := c.engine
  if order.orderType = .market then
    { c with engine := { e with callMarkets := e.callMarkets.insert order.orderId order } }
  else
    let (book, md) := e.book.addOrder order
    pushMd instant { c with engine := { e with book := book } } md

/-- All held orders join the closing call in arrival order. -/
def releaseAll (c : Call R) : Except Panic (Call R) := do
  let held ← (c.engine.iterations.heldClose.values c.engine.heldClose).mapM fun o => do
    let state ← get c.engine.states[o.orderId]?
    .ok (state.arrival, o)
  let held := (held.insertionSort fun a b => a.1 ≤ b.1).map (·.2)
  .ok (held.foldl (releaseHeld instant) { c with engine := { c.engine with heldClose := ∅ } })

def sessionBoundary (boundary : Boundary) (instant : Time) (c : Call R) : Except Panic (Call R) :=
  match boundary with
  | .openCall => .ok (c.setPhase .openingCall instant)
  | .open => do
    let (c, price) ← c.runAuction instant
    let c ← c.cancelRemainders .atOpen instant
    let c := c.setPhase .continuous instant
    match price with
    | none => .ok c
    | some price => c.openStops instant price
  | .closeCall => (c.setPhase .closingCall instant).releaseAll instant
  | .close => do
    let (c, _) ← c.runAuction instant
    let c ← c.cancelRemainders .atClose instant
    (c.setPhase .closed instant).expire instant true

/-- The next instant after `cursor` at which something is due, with the boundary of the schedule there. -/
def nextDue (e : Engine R) (cursor : Time) : Option (Int × Option Boundary) :=
  let scheduled := e.schedule.map (·.nextBoundary cursor.seconds)
  let expiries := ((e.iterations.states.values e.states).filter (·.timeInForce = .gtd)).filterMap fun s =>
    match expiryInstant s.expireDate with
    | .ok t => if cursor < Time.ofSeconds t then some t else none
    | .error _ => none
  let due := (scheduled.map (·.1)).toList ++ expiries.min?.toList ++ (e.callUntil.map (·.seconds)).toList
  due.min?.map fun seconds => (seconds, (scheduled.filter (·.1 = seconds)).map (·.2))

/-- The end of an operator's call, or the boundary of a full schedule. -/
def dueBoundary (operatorOpen full : Bool) (boundary : Option Boundary) (instant : Time) (c : Call R) :
    Except Panic (Call R) :=
  if operatorOpen then sessionBoundary .open instant { c with engine := { c.engine with callUntil := none } }
  else
    match boundary with
    | some kind => if full then c.sessionBoundary kind instant else .ok c
    | none => .ok c

/-- One round of `advance`: everything due at the next instant. -/
def advanceStep (now : Time) (s : Time × Call R) : Except Panic (Option (Time × Call R)) :=
  let (cursor, c) := s
  if cursor < now then
    match nextDue c.engine cursor with
    | none => .ok none
    | some (seconds, boundary) =>
      let instant := Time.ofSeconds seconds
      if now < instant then .ok none
      else do
        let full := c.engine.fullSchedule
        let operatorOpen := c.engine.callUntil.map (·.seconds)
        let c ← c.expire instant (!full && boundary = some .close)
        let c ← c.dueBoundary (operatorOpen = some seconds) full boundary instant
        let c ← c.publishIndicative instant
        .ok (some (instant, c))
  else .ok none

/-- Rounds that `advance` can need: the cursor moves on by a second at least, except once at the end of an operator's
call. -/
def advanceFuel (e : Engine R) (now : Time) : Nat :=
  2 * (now.seconds - e.lastSeen.seconds).toNat +
    (e.callUntil.elim 0 fun t => 2 * (now.seconds - t.seconds).toNat + 1) + 2

def advance (now : Time) (e : Engine R) : Except Panic (Call R) := do
  let (_, c) ← Loop.runM (advanceStep now) (advanceFuel e now) (e.lastSeen, { engine := e })
  .ok { c with engine := { c.engine with lastSeen := if c.engine.lastSeen < now then now else c.engine.lastSeen } }

end Call

end Fxp
