import Fxp.Order
import Fxp.Session

/-!
# Messages

The requests an engine takes and the messages it puts out.  Enumerations in requests are raw 32-bit integers, as they
come off the wire; `parse*` turns them into the types of the order book.
-/

namespace Fxp

structure NewOrderSingle where
  orderId : String
  sender : String
  price : Int
  side : Int32
  quantity : Int32
  orderType : Int32
  timeInForce : Int32
  stopPrice : Int := 0
  expireDate : String := ""
  account : String := ""
  clientOrderId : String := ""
  stpMode : Int32 := 0
  stpGroup : String := ""
  displayQuantity : Int32 := 0
  symbol : String := ""

structure CancelMsg (R : Type) where
  orderId : String
  sender : String
  clientCancelId : String := ""
  outputTx : R

/-- Zero keeps a value; `newDisplayQuantity` keeps it when absent. -/
structure CancelReplaceMsg (R : Type) where
  orderId : String
  sender : String
  newOrderId : String
  clientReplaceId : String := ""
  newPrice : Int := 0
  newQuantity : Int32 := 0
  newTimeInForce : Int32 := 0
  newStopPrice : Int := 0
  newDisplayQuantity : Option Int32 := none
  outputTx : R

structure MassCancelMsg where
  sender : String
  side : Int32
  reason : Int32

structure OrderCancelRequest where
  symbol : String
  orderId : String
  sender : String
  clientCancelId : String

structure OrderCancelReplaceRequest where
  symbol : String
  orderId : String
  sender : String
  newOrderId : String
  clientReplaceId : String
  newPrice : Int
  newQuantity : Int32
  newTimeInForce : Int32
  newStopPrice : Int
  newDisplayQuantity : Option Int32

structure OrderMassCancelRequest where
  symbol : String
  sender : String
  side : Int32
  clientRequestId : String
  reason : Int32

structure SessionControl where
  requestId : String
  sender : String
  openingCallSeconds : Nat
  symbol : String

inductive ExecutionType
  | new
  | filled
  | canceled
  | replaced
  | rejected
  | expired
  | restated
  | orderStatus
deriving DecidableEq, Repr

inductive OrderStatus
  | new
  | filled
  | partiallyFilled
  | canceled
  | rejected
  | replaced
  | expired
deriving DecidableEq, Repr

structure Report where
  executionId : String
  orderId : String
  symbol : String
  executionType : ExecutionType
  orderStatus : OrderStatus
  executionPrice : Int
  executedQuantity : Int
  timestamp : Time
  leavesQuantity : Int
  avgPx : Int
  cumQuantity : Int
  account : String
  clientOrderId : String
  origOrderId : String
  rejectReason : String
  side : Int32
  orderQuantity : Int
  auction : Bool
  displayQuantity : Int
deriving DecidableEq

/-- One change of a market data message: `updateType` is `0` for a new, `1` for a modified and `2` for a canceled
order. -/
structure MdChange where
  updateType : Nat
  price : Int
  quantity : Int
  side : Int32
deriving DecidableEq

structure MdUpdate where
  symbol : String
  timestamp : Time
  changes : List MdChange
deriving DecidableEq

structure MdLevel where
  price : Int
  size : Int
  side : Int32
deriving DecidableEq

structure MdSnapshot where
  symbol : String
  bidLevels : List MdLevel
  askLevels : List MdLevel
  timestamp : Time
deriving DecidableEq

structure TradingSessionStatus where
  symbol : String
  phase : TradingPhase
  timestamp : Time
deriving DecidableEq

/-- `imbalanceSide` and `aggressorSide` are `0` when there is none. -/
structure AuctionInfo where
  symbol : String
  phase : TradingPhase
  indicativePrice : Int
  indicativeVolume : Nat
  imbalanceQuantity : Nat
  imbalanceSide : Int32
  referencePrice : Int
  timestamp : Time
deriving DecidableEq

structure TradeCaptureReport where
  tradeId : String
  symbol : String
  tradePrice : Int
  tradeQuantity : Int
  timestamp : Time
  aggressorSide : Int32
  seq : Nat
  isAuction : Bool
deriving DecidableEq

/-- What an engine puts out; `R` is the connection a report or snapshot is addressed to. -/
inductive Output (R : Type)
  | tradingSessionStatus (status : TradingSessionStatus)
  | auctionInfo (info : AuctionInfo)
  | executionReport (owner : R) (report : Report)
  | marketData (update : MdUpdate)
  | trade (report : TradeCaptureReport)
  | snapshot (owner : R) (snapshot : MdSnapshot)
  | massCancelCount (count : Nat)
deriving DecidableEq

def sideToProto : OrderSide → Int32
  | .buy => 1
  | .sell => 2

variable (value : Int32)

def parseSide : Except String OrderSide :=
  if value = 1 then .ok .buy
  else if value = 2 then .ok .sell
  else if value = 0 then .error "side is required"
  else .error ("unknown side " ++ toString value.toInt)

def parseOrderType : Except String OrderType :=
  if value = 1 then .ok .market
  else if value = 2 then .ok .limit
  else if value = 3 then .ok .stop
  else if value = 4 then .ok .stopLimit
  else if value = 0 then .error "order_type is required"
  else .error ("unknown order_type " ++ toString value.toInt)

/-- The time in force of a wire value: `none` for an unknown value, `some none` for the unspecified one. -/
def timeInForceOf : Option (Option TimeInForce) :=
  if value = 0 then some none
  else if value = 1 then some (some .day)
  else if value = 2 then some (some .gtc)
  else if value = 3 then some (some .ioc)
  else if value = 4 then some (some .fok)
  else if value = 5 then some (some .atOpen)
  else if value = 6 then some (some .atClose)
  else if value = 7 then some (some .gtd)
  else none

def parseTimeInForce : Except String TimeInForce :=
  match timeInForceOf value with
  | some (some tif) => .ok tif
  | some none => .error "time_in_force is required"
  | none => .error ("unknown time_in_force " ++ toString value.toInt)

def parseOrderEnums (order : NewOrderSingle) : Except String (OrderSide × OrderType × TimeInForce) := do
  let side ← parseSide order.side
  let orderType ← parseOrderType order.orderType
  let timeInForce ← parseTimeInForce order.timeInForce
  .ok (side, orderType, timeInForce)

/-- The STP mode of an order, and whether it asked for prevention itself. -/
def parseStp (default : StpMode) : Except String (StpMode × Bool) :=
  if value = 0 then .ok (default, false)
  else if value = 1 then .ok (.none, false)
  else if value = 2 then .ok (.cancelNewest, true)
  else if value = 3 then .ok (.cancelOldest, true)
  else if value = 4 then .ok (.cancelBoth, true)
  else if value = 5 then .ok (.decrementAndCancel, true)
  else .error ("unknown stp_mode " ++ toString value.toInt)

def parseReplaceTimeInForce : Except String (Option TimeInForce) :=
  match timeInForceOf value with
  | some tif => .ok tif
  | none => .error ("unknown new_time_in_force " ++ toString value.toInt)

end Fxp
