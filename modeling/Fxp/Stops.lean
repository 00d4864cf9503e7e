import Fxp.Matcher

/-!
# Parked stops and the trigger cascade

Every print is checked against the parked stops in the order the prints happened.  Triggered stops execute first in,
first out; their own prints can trigger more.
-/

namespace Fxp

open Checked

/-- Changes requested by a cancel/replace of a parked stop (`0` or `none` keeps the value). -/
structure StopReplace where
  newPrice : Int
  newStopPrice : Int
  newQuantity : Nat
  newTimeInForce : Option TimeInForce
  clientOrderId : String
  timestamp : Nat

/-- Parked stop and stop-limit orders, in arrival order. -/
structure StopBook where
  parked : List Order := []

namespace StopBook

variable (stops : StopBook)

def park (order : Order) : StopBook := { parked := stops.parked ++ [order] }

def contains (orderId : String) : Bool := stops.parked.any (·.orderId = orderId)

/-- The parked stop with this id, if `owner` owns it. -/
def ownedBy (orderId owner : String) : Except OrderReject Order :=
  match stops.parked.find? (·.orderId = orderId) with
  | none => .error .unknownOrder
  | some o => if o.traderId ≠ owner then .error .notOwner else .ok o

def remove (orderId : String) : StopBook :=
  { parked := stops.parked.eraseP (·.orderId = orderId) }

def cancelFor (orderId owner : String) : Except OrderReject (StopBook × Order) := do
  let order ← stops.ownedBy orderId owner
  .ok (stops.remove orderId, order)

def replacement (orig : Order) (newId : String) (changes : StopReplace) : Order :=
  { orig with
    orderId := newId
    price := if 0 < changes.newPrice then changes.newPrice else orig.price
    stopPrice := if 0 < changes.newStopPrice then changes.newStopPrice else orig.stopPrice
    quantity := if 0 < changes.newQuantity then changes.newQuantity else orig.quantity
    timeInForce := changes.newTimeInForce.getD orig.timeInForce
    timestamp := changes.timestamp
    clientOrderId := changes.clientOrderId }

/-- The replacement is parked again at the back.  `idInUse` tells whether `newId` is live on the order book. -/
def replaceFor (origId newId : String) (changes : StopReplace) (owner : String) (idInUse : Bool) :
    Except OrderReject (StopBook × Order) := do
  let orig ← stops.ownedBy origId owner
  if newId ≠ origId ∧ (idInUse ∨ stops.contains newId) then
    .error .duplicateOrderId
  let replacement := replacement orig newId changes
  .ok ((stops.remove origId).park replacement, replacement)

/-- Removes the stops triggered by a print at `price`, in firing order. -/
def drainTriggered (price : Int) : List Order × StopBook :=
  let (triggered, remaining) := OrderBook.drainTriggeredStops stops.parked price
  (triggered, { parked := remaining })

end StopBook

/-- Everything an incoming order, and any stops it triggers, did to the book. -/
structure Execution where
  fills : List ExecutionReport := []
  fillUpdates : List MarketDataIncrementalUpdate := []
  rested : List MarketDataIncrementalUpdate := []
  cancels : List String := []
  triggered : List String := []
  stp : List StpEvent := []
  stpUpdates : List MarketDataIncrementalUpdate := []

namespace Execution

/-- Moves the STP results of the last matching call into the execution; `base` prints happened before it. -/
def absorbStp (out : Execution) (book : OrderBook) (base : Nat) : Execution × OrderBook :=
  ({ out with
      stp := out.stp ++ book.stp.events.map fun e => { e with beforeFill := e.beforeFill + base }
      stpUpdates := out.stpUpdates ++ book.stp.updates },
    { book with stp := {} })

end Execution

namespace OrderBook

/-- Crosses the book, after an order was added, and records the result. -/
def matchInto (book : OrderBook) (out : Execution) : Except Panic (OrderBook × Execution) := do
  let s ← book.matchOrders
  let (out, book) := out.absorbStp s.book out.fills.length
  .ok (book, { out with fills := out.fills ++ s.fills, fillUpdates := out.fillUpdates ++ s.updates })

/-- The type an order executes as: a triggered stop is a market order, a triggered stop-limit a limit order. -/
def triggeredType (order : Order) : Order :=
  { order with
    orderType :=
      match order.orderType with
      | .stop => .market
      | .stopLimit => .limit
      | other => other }

/-- Executes an order by its type and time in force; the last component tells whether a remainder rested. -/
def executeInto (book : OrderBook) (order : Order) (out : Execution) : Except Panic (OrderBook × Execution × Bool) :=
  let order := triggeredType order
  let base := out.fills.length
  let (book, result) := book.processAggressive order
  let (out, book) := out.absorbStp book base
  let out := { out with fills := out.fills ++ result.fills, fillUpdates := out.fillUpdates ++ result.fillUpdates }
  if result.stpCanceled ∨ result.unfilledQty = 0 then .ok (book, out, false)
  else if !result.restOnBook then .ok (book, { out with cancels := out.cancels ++ [order.orderId] }, false)
  else do
    let (book, md) := book.addOrder { order with quantity := result.unfilledQty }
    let (book, out) ← book.matchInto { out with rested := out.rested ++ [md] }
    .ok (book, out, true)

end OrderBook

structure CascadeState where
  book : OrderBook
  stops : StopBook
  lastTradePrice : Option Int
  out : Execution
  scanned : Nat
  queue : List Order

namespace CascadeState

/-- Checks one print against the parked stops. -/
def scanPrint (s : CascadeState) (fill : ExecutionReport) : CascadeState :=
  let (triggered, stops) := s.stops.drainTriggered fill.tradePrice
  { s with
    stops := stops
    lastTradePrice := some fill.tradePrice
    scanned := s.scanned + 1
    queue := s.queue ++ triggered }

/-- Checks every print that was not checked yet. -/
def scan (s : CascadeState) : CascadeState := (s.out.fills.drop s.scanned).foldl scanPrint s

/-- Executes the next triggered stop and checks its prints. -/
def step (s : CascadeState) : Except Panic (Option CascadeState) :=
  match s.queue with
  | [] => .ok none
  | stop :: queue => do
    let (book, out, _) ← s.book.executeInto stop { s.out with triggered := s.out.triggered ++ [stop.orderId] }
    .ok (some { s with book := book, out := out, queue := queue }.scan)

end CascadeState

/-- Checks every print against the parked stops until none triggers. Every step executes one of them, which bounds the
loop. -/
def runStopCascade (book : OrderBook) (stops : StopBook) (lastTradePrice : Option Int) (out : Execution) :
    Except Panic CascadeState :=
  Loop.runM CascadeState.step (stops.parked.length + 1)
    (CascadeState.scan
      { book := book, stops := stops, lastTradePrice := lastTradePrice, out := out, scanned := 0, queue := [] })

end Fxp
