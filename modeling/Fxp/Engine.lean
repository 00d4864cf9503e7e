import Fxp.Auction
import Fxp.Proto
import Fxp.Stops

/-!
# The engine: state and reports

An engine owns the book of one symbol, the parked stops, the market orders queued for an auction call, the orders held
for the closing call, and `states`, the report state of every live order.
-/

namespace Fxp

open Checked

structure SymbolRules where
  priceScale : Nat := 2
  tickSize : Int := 1
  lotSize : Nat := 1
  minQuantity : Nat := 1
  maxQuantity : Nat := 2 ^ 31 - 1
deriving DecidableEq

namespace SymbolRules

def validatePrice (rules : SymbolRules) (price : Int) : Option String :=
  if rules.tickSize ≤ 0 ∨ price ≤ 0 ∨ price % rules.tickSize ≠ 0 then
    some "price must be positive and a multiple of symbol tick size"
  else none

def validateQuantity (rules : SymbolRules) (quantity : Nat) : Option String :=
  if rules.lotSize = 0 ∨ quantity < rules.minQuantity ∨ rules.maxQuantity < quantity ∨
      quantity % rules.lotSize ≠ 0 then
    some "quantity outside symbol lot/min/max rules"
  else none

end SymbolRules

/-- Report state of a live order: its quantity, its fills so far and the connection of its owner. -/
structure OrderState (R : Type) where
  sender : String
  timeInForce : TimeInForce
  expireDate : String
  arrival : Nat
  side : Int32
  orderQty : Nat
  displayQuantity : Nat
  cumQty : Nat
  notional : Int
  account : String
  clientOrderId : String
  outputTx : R
deriving DecidableEq

namespace OrderState

variable {R : Type}

def new (order : NewOrderSingle) (orderQty : Nat) (outputTx : R) (arrival : Nat) : OrderState R :=
  { sender := order.sender
    timeInForce :=
      match parseOrderEnums order with
      | .ok (_, _, tif) => tif
      | .error _ => .gtc
    expireDate := order.expireDate
    arrival := arrival
    side := order.side
    orderQty := orderQty
    displayQuantity := asU32 (max order.displayQuantity.toInt 0)
    cumQty := 0
    notional := 0
    account := order.account
    clientOrderId := order.clientOrderId
    outputTx := outputTx }

def leaves (s : OrderState R) : Nat := s.orderQty - s.cumQty

def avgPx (s : OrderState R) : Int := if s.cumQty = 0 then 0 else s.notional.tdiv s.cumQty

end OrderState

/-- The orders in which the hash maps of an engine iterate. -/
structure Iterations where
  orderLookup : Maps.Iteration String
  callMarkets : Maps.Iteration String
  heldClose : Maps.Iteration String
  states : Maps.Iteration String
  statusHistory : Maps.Iteration String

def Iterations.sorted : Iterations :=
  { orderLookup := .sorted _, callMarkets := .sorted _, heldClose := .sorted _, states := .sorted _
    statusHistory := .sorted _ }

/-- What an engine is built and started with; `now` is the clock at its start. -/
structure Settings where
  symbol : String
  now : Time
  ids : Nat → String
  schedule : Option SessionSchedule
  stpDefault : StpMode
  symbolRules : SymbolRules
  iterations : Iterations
  arithmetic : Arithmetic

structure Engine (R : Type) where
  symbol : String
  book : OrderBook
  stopBook : StopBook := {}
  lastTradePrice : Option Int := none
  tradeSeq : Nat := 0
  states : HashMap (OrderState R) := ∅
  /-- The source of execution ids, and how many of them were used. -/
  ids : Nat → String
  issued : Nat := 0
  schedule : Option SessionSchedule
  callUntil : Option Time := none
  lastSeen : Time
  nextArrival : Nat := 0
  phase : TradingPhase
  callMarkets : HashMap Order := ∅
  heldClose : HashMap Order := ∅
  lastIndicative : Option AuctionResult := some {}
  stpDefault : StpMode := .none
  symbolRules : SymbolRules := {}
  statusHistory : HashMap (String × Report) := ∅
  terminalHistory : List (String × String) := []
  /-- How the maps above iterate.  Nothing that is observed depends on it. -/
  iterations : Iterations
  arithmetic : Arithmetic

namespace Engine

variable {R : Type}

def new (cfg : Settings) : Engine R :=
  { symbol := cfg.symbol
    book := OrderBook.new cfg.symbol
    ids := cfg.ids
    schedule := cfg.schedule
    lastSeen := cfg.now
    phase :=
      match cfg.schedule with
      | none => .continuous
      | some s => s.phase cfg.now.seconds
    stpDefault := cfg.stpDefault
    symbolRules := cfg.symbolRules
    iterations := cfg.iterations
    arithmetic := cfg.arithmetic }

def fullSchedule (e : Engine R) : Bool := e.schedule.any SessionSchedule.isFull

def auctionsEnabled (e : Engine R) : Bool := e.callUntil.isSome || e.fullSchedule

end Engine

/-- The fields of a report that come from the event, not from the order. -/
structure ReportEvent where
  execType : ExecutionType
  status : OrderStatus
  lastPx : Int := 0
  lastQty : Nat := 0
  leaves : Nat := 0
  /-- The id of a cancel or replace request, in place of the client order id of the order. -/
  clientOrderId : Option String := none
  origOrderId : String := ""
  rejectReason : String := ""
  auction : Bool := false

def buildReport {R : Type} (executionId orderId symbol : String) (state : Option (OrderState R)) (ev : ReportEvent)
    (ts : Time) : Report :=
  { executionId := executionId
    orderId := orderId
    symbol := symbol
    executionType := ev.execType
    orderStatus := ev.status
    executionPrice := ev.lastPx
    executedQuantity := asI32 ev.lastQty
    timestamp := ts
    leavesQuantity := asI32 ev.leaves
    avgPx := state.elim 0 OrderState.avgPx
    cumQuantity := state.elim 0 fun s => asI32 s.cumQty
    account := state.elim "" OrderState.account
    clientOrderId := (ev.clientOrderId.or (state.map OrderState.clientOrderId)).getD ""
    origOrderId := ev.origOrderId
    rejectReason := ev.rejectReason
    side := state.elim 0 OrderState.side
    orderQuantity := state.elim 0 fun s => asI32 s.orderQty
    auction := ev.auction
    displayQuantity := state.elim 0 fun s => asI32 s.displayQuantity }

def MarketUpdateType.toWire : MarketUpdateType → Nat
  | .newOrder => 0
  | .modifyOrder => 1
  | .cancelOrder => 2

def MarketOrderUpdate.toWire (c : MarketOrderUpdate) : MdChange :=
  { updateType := c.updateType.toWire, price := c.price, quantity := asI32 c.quantity, side := sideToProto c.side }

def buildMdUpdate (inc : MarketDataIncrementalUpdate) (ts : Time) : MdUpdate :=
  { symbol := inc.symbol, timestamp := ts, changes := inc.changes.map MarketOrderUpdate.toWire }

def buildTrade (symbol : String) (seq : Nat) (px : Int) (qty : Nat) (aggressorSide : Int32) (isAuction : Bool)
    (ts : Time) : TradeCaptureReport :=
  { tradeId := symbol ++ ":" ++ toString seq
    symbol := symbol
    tradePrice := px
    tradeQuantity := asI32 qty
    timestamp := ts
    aggressorSide := aggressorSide
    seq := seq
    isAuction := isAuction }

/-- An engine in the middle of a call, with the outputs so far. -/
structure Call (R : Type) where
  engine : Engine R
  out : List (Output R) := []

namespace Call

variable {R : Type}

def push (c : Call R) (o : Output R) : Call R := { c with out := c.out ++ [o] }

/-- Builds a report with the next execution id and sends it to `owner`. -/
def report (c : Call R) (owner : R) (orderId : String) (state : Option (OrderState R)) (ev : ReportEvent)
    (ts : Time) : Call R :=
  let e := c.engine
  { engine := { e with issued := e.issued + 1 }
    out := c.out ++ [.executionReport owner (buildReport (e.ids e.issued) orderId e.symbol state ev ts)] }

/-- Rejects a cancel or replace request; the target order is unchanged. -/
def rejectRequest (c : Call R) (owner : R) (orderId requestId reason : String) (ts : Time) : Call R :=
  c.report owner orderId none
    { execType := .rejected
      status := .rejected
      clientOrderId := some requestId
      origOrderId := orderId
      rejectReason := reason } ts

variable (ts : Time)

def pushMd (c : Call R) (inc : MarketDataIncrementalUpdate) : Call R :=
  c.push (.marketData (buildMdUpdate inc ts))

def setState (c : Call R) (orderId : String) (state : OrderState R) : Call R :=
  { c with engine := { c.engine with states := c.engine.states.insert orderId state } }

def dropState (c : Call R) (orderId : String) : Call R :=
  { c with engine := { c.engine with states := c.engine.states.erase orderId } }

/-- Applies a fill to a live order and reports it to its owner.  A filled order leaves `states`. -/
def applyFill (px : Int) (qty : Nat) (auction : Bool) (c : Call R) (orderId : String) : Call R :=
  match c.engine.states[orderId]? with
  | none => c
  | some st =>
    let st := { st with cumQty := wrapU32 (st.cumQty + qty), notional := st.notional + px * qty }
    let c := c.report st.outputTx orderId (some st)
      { execType := .filled
        status := if st.leaves = 0 then .filled else .partiallyFilled
        lastPx := px
        lastQty := qty
        leaves := st.leaves
        auction := auction } ts
    if st.leaves = 0 then c.dropState orderId else c.setState orderId st

def pushTrade (px : Int) (qty : Nat) (aggressorSide : Int32) (isAuction : Bool) (c : Call R) : Call R :=
  let seq := c.engine.tradeSeq + 1
  { engine := { c.engine with tradeSeq := seq }
    out := c.out ++ [.trade (buildTrade c.engine.symbol seq px qty aggressorSide isAuction ts)] }

/-- Reports a prevented self-match: the order is canceled, or restated with what is left of it. -/
def reportStp (c : Call R) (event : StpEvent) : Call R :=
  let reason := "self-trade prevention (" ++ event.mode.asStr ++ ")"
  match c.engine.states[event.orderId]? with
  | none => c
  | some st =>
    match event.action with
    | .canceled =>
      (c.dropState event.orderId).report st.outputTx event.orderId (some st)
        { execType := .canceled, status := .canceled, rejectReason := reason } ts
    | .restated cut =>
      let st := { st with orderQty := st.orderQty - cut }
      (c.setState event.orderId st).report st.outputTx event.orderId (some st)
        { execType := .restated
          status := if 0 < st.cumQty then .partiallyFilled else .new
          leaves := st.leaves
          rejectReason := reason } ts

/-- Reports one print: the fills of both orders, then the public trade. -/
def reportFill (c : Call R) (f : ExecutionReport) : Call R :=
  let c := applyFill ts f.tradePrice f.tradeQuantity false c f.buyOrderId
  let c := applyFill ts f.tradePrice f.tradeQuantity false c f.sellOrderId
  pushTrade ts f.tradePrice f.tradeQuantity (sideToProto f.aggressorSide) false c

/-- Reports the prints from index `i` on, each after the self-matches prevented before it, and returns the others. -/
def reportFills (ts : Time) : List ExecutionReport → Nat → List StpEvent → Call R → Call R × List StpEvent
  | [], _, stp, c => (c, stp)
  | f :: fills, i, stp, c =>
    let (due, later) := stp.span (·.beforeFill ≤ i)
    reportFills ts fills (i + 1) later (reportFill ts (due.foldl (reportStp ts) c) f)

def reportCancel (c : Call R) (orderId : String) : Call R :=
  match c.engine.states[orderId]? with
  | none => c
  | some st =>
    (c.dropState orderId).report st.outputTx orderId (some st) { execType := .canceled, status := .canceled } ts

/-- Fill reports, then remainder cancels, then the market data of rested orders, self-trade prevention and fills. -/
def reportExecution (exec : Execution) (c : Call R) : Call R :=
  let (c, stp) := reportFills ts exec.fills 0 exec.stp c
  let c := stp.foldl (reportStp ts) c
  let c := exec.cancels.foldl (reportCancel ts) c
  (exec.rested ++ exec.stpUpdates ++ exec.fillUpdates).foldl (pushMd ts) c

/-- Runs the stop cascade after `exec` and reports everything. -/
def cascade (exec : Execution) (c : Call R) : Except Panic (Call R) := do
  let e := c.engine
  let s ← runStopCascade e.book e.stopBook e.lastTradePrice exec
  .ok (reportExecution ts s.out
    { c with engine := { e with book := s.book, stopBook := s.stops, lastTradePrice := s.lastTradePrice } })

end Call

/-- Full-depth snapshot: the best price first on both sides. -/
def snapshot (arithmetic : Arithmetic) (book : OrderBook) (now : Time) : Except Panic MdSnapshot := do
  let snap ← book.getMarketSnapshot arithmetic
  let level (side : OrderSide) (l : Int × Nat) : MdLevel :=
    { price := l.1, size := asI32 l.2, side := sideToProto side }
  .ok
    { symbol := snap.symbol
      bidLevels := snap.bids.reverse.map (level .buy)
      askLevels := snap.asks.map (level .sell)
      timestamp := now }

end Fxp
