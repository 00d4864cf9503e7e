import Fxp.Lib.Checked
import Fxp.Lib.Maps
import Fxp.Order

/-!
# The order book

Price levels with a FIFO queue each, and the side tables kept by order id: the live orders with what is left of them,
the quantity filled so far, the arrival number and the displayed slice.
-/

namespace Fxp

open Checked

abbrev HashMap (V : Type) := Std.ExtTreeMap String V

abbrev Levels := Std.ExtTreeMap Int (List Order)

inductive MarketUpdateType
  | newOrder
  | modifyOrder
  | cancelOrder
deriving DecidableEq, Repr

structure MarketOrderUpdate where
  updateType : MarketUpdateType
  price : Int
  quantity : Nat
  side : OrderSide
deriving DecidableEq, Repr

structure MarketDataIncrementalUpdate where
  symbol : String
  changes : List MarketOrderUpdate
deriving DecidableEq, Repr

structure MarketDataSnapshot where
  symbol : String
  bids : List (Int × Nat)
  asks : List (Int × Nat)
deriving DecidableEq, Repr

inductive StpAction
  | canceled
  | restated (cut : Nat)
deriving DecidableEq, Repr

/-- A self-match prevented instead of printed, before the fill with the index `beforeFill`. -/
structure StpEvent where
  opposingOrder : String
  orderId : String
  action : StpAction
  mode : StpMode
  beforeFill : Nat
deriving DecidableEq, Repr

structure StpOutcome where
  events : List StpEvent := []
  updates : List MarketDataIncrementalUpdate := []
deriving DecidableEq, Repr

inductive OrderReject
  | unknownOrder
  | duplicateOrderId
  | notOwner
  | quantityNotAboveFilled
deriving DecidableEq, Repr

/-- `notOwner` shares the text of `unknownOrder`, so rejects do not reveal other traders' orders. -/
def OrderReject.reason : OrderReject → String
  | .unknownOrder | .notOwner => "Unknown order (filled, cancelled or never existed)"
  | .duplicateOrderId => "Duplicate order id"
  | .quantityNotAboveFilled => "Replace quantity not above filled quantity"

structure OrderReplace where
  newPrice : Int
  newTotalQty : Nat
  newDisplayQuantity : Option Nat
  newTimeInForce : Option TimeInForce
  clientOrderId : String
  timestamp : Nat

structure OrderBook where
  symbol : String
  buyOrders : Levels := ∅
  sellOrders : Levels := ∅
  orderLookup : HashMap Order := ∅
  cumFilled : HashMap Nat := ∅
  arrival : HashMap Nat := ∅
  nextArrival : Nat := 0
  displayed : HashMap Nat := ∅
  lastAdded : Option String := none
  stp : StpOutcome := {}

namespace Levels

/-- The queue at a price; a missing level is an empty queue. -/
def queue (levels : Levels) (price : Int) : List Order := levels[price]?.getD []

/-- Writes a level back, dropping it when it is empty. -/
def put (levels : Levels) (price : Int) (level : List Order) : Levels :=
  if level.isEmpty then levels.erase price else levels.insert price level

end Levels

namespace OrderBook

def new (symbol : String) : OrderBook := { symbol := symbol }

variable (book : OrderBook)

def levels : OrderSide → Levels
  | .buy => book.buyOrders
  | .sell => book.sellOrders

def setLevels (side : OrderSide) (levels : Levels) : OrderBook :=
  match side with
  | .buy => { book with buyOrders := levels }
  | .sell => { book with sellOrders := levels }

def queue (side : OrderSide) (price : Int) : List Order :=
  Levels.queue (book.levels side) price

/-- The best price of a side: the highest bid, the lowest offer. -/
def bestPrice : OrderSide → Option Int
  | .buy => book.buyOrders.keys.getLast?
  | .sell => book.sellOrders.keys.head?

def generateIncrementalUpdate (updateType : MarketUpdateType) (price : Int) (quantity : Nat)
    (side : OrderSide) : MarketDataIncrementalUpdate :=
  { symbol := book.symbol
    changes := [{ updateType := updateType, price := price, quantity := quantity, side := side }] }

variable (order : Order)

/-- The slice of an order that is shown when it comes to rest. -/
def firstSlice : Nat :=
  if order.displayQuantity = 0 then order.quantity else min order.displayQuantity order.quantity

def addOrder : OrderBook × MarketDataIncrementalUpdate :=
  let levels := book.levels order.side
  let book := book.setLevels order.side (levels.insert order.price (levels.queue order.price ++ [order]))
  let visible := firstSlice order
  ({ book with
      displayed := book.displayed.insert order.orderId visible
      lastAdded := some order.orderId
      orderLookup := book.orderLookup.insert order.orderId order
      nextArrival := book.nextArrival + 1
      arrival := book.arrival.insert order.orderId (book.nextArrival + 1) },
    book.generateIncrementalUpdate .newOrder order.price visible order.side)

/-- `none` when the order is not live: the book is then unchanged. -/
def cancelOrder (orderId : String) : Option (OrderBook × MarketDataIncrementalUpdate) :=
  match book.orderLookup[orderId]? with
  | none => none
  | some order =>
    let visible := book.displayed[orderId]?.getD order.quantity
    let book :=
      { book with
        orderLookup := book.orderLookup.erase orderId
        displayed := book.displayed.erase orderId
        cumFilled := book.cumFilled.erase orderId
        arrival := book.arrival.erase orderId }
    let levels := book.levels order.side
    let book :=
      match levels[order.price]? with
      | none => book
      | some orders => book.setLevels order.side (levels.put order.price (orders.filter (·.orderId ≠ orderId)))
    some (book, book.generateIncrementalUpdate .cancelOrder order.price visible order.side)

def checkOwner (orderId owner : String) : Except OrderReject Unit :=
  match book.orderLookup[orderId]? with
  | none => .error .unknownOrder
  | some o => if o.traderId ≠ owner then .error .notOwner else .ok ()

def cancelOrderFor (orderId owner : String) :
    Except OrderReject (OrderBook × MarketDataIncrementalUpdate) := do
  book.checkOwner orderId owner
  match book.cancelOrder orderId with
  | none => .error .unknownOrder
  | some r => .ok r

/-- Records a fill against a live order, which leaves the tables when nothing remains. -/
def syncFill (orderId : String) (remaining tradeQty : Nat) : OrderBook :=
  if remaining = 0 then
    { book with
      orderLookup := book.orderLookup.erase orderId
      cumFilled := book.cumFilled.erase orderId
      arrival := book.arrival.erase orderId }
  else
    match book.orderLookup[orderId]? with
    | none => book
    | some o =>
      { book with
        orderLookup := book.orderLookup.insert orderId { o with quantity := remaining }
        cumFilled := book.cumFilled.insert orderId (wrapU32 (book.cumFilled[orderId]?.getD 0 + tradeQty)) }

/-- Decrements an auction participant without running continuous matching. -/
def applyAuctionFill (id : String) (quantity : Nat) :
    Except Panic (OrderBook × MarketDataIncrementalUpdate) := do
  let order ← get book.orderLookup[id]?
  let levels := book.levels order.side
  let level ← get levels[order.price]?
  let resting ← get (level.find? (·.orderId = id))
  let remaining := subU32 resting.quantity quantity
  let level := level.replaceF fun o => if o.orderId = id then some { o with quantity := remaining } else none
  let book := book.setLevels order.side (levels.put order.price (level.filter (0 < ·.quantity)))
  let book := book.syncFill id remaining quantity
  let book :=
    if remaining = 0 then { book with displayed := book.displayed.erase id }
    else { book with displayed := book.displayed.insert id remaining }
  .ok (book, book.generateIncrementalUpdate .modifyOrder order.price quantity order.side)

def visible : Nat := book.displayed[order.orderId]?.getD order.quantity

/-- `order` carries its remaining quantity already. -/
def syncVisibleFill (tradeQty visible : Nat) : OrderBook :=
  let book := book.syncFill order.orderId order.quantity tradeQty
  if order.quantity = 0 then { book with displayed := book.displayed.erase order.orderId }
  else { book with displayed := book.displayed.insert order.orderId visible }

/-- Shows the next slice of an iceberg whose displayed slice is used up. -/
def replenish : OrderBook × Option MarketDataIncrementalUpdate :=
  if order.quantity = 0 ∨ order.displayQuantity = 0 ∨ 0 < book.visible order then (book, none)
  else
    let visible := min order.quantity order.displayQuantity
    ({ book with
        displayed := book.displayed.insert order.orderId visible
        nextArrival := book.nextArrival + 1
        arrival := book.arrival.insert order.orderId (book.nextArrival + 1) },
      some (book.generateIncrementalUpdate .newOrder order.price visible order.side))

/-- Puts an order back into its level, at the back or at the front; a finished order is dropped. -/
def requeue (back : Bool) : OrderBook :=
  if order.quantity = 0 then book
  else
    let levels := book.levels order.side
    let level := levels.queue order.price
    book.setLevels order.side (levels.insert order.price (if back then level ++ [order] else order :: level))

def popBest (side : OrderSide) : Option (Order × OrderBook) :=
  match book.bestPrice side with
  | none => none
  | some price =>
    match book.queue side price with
    | [] => none
    | order :: level => some (order, book.setLevels side ((book.levels side).put price level))

/-- The order that a replace puts in place of `orig`; a price of `0` keeps the price. -/
def replacement (orig : Order) (newId : String) (changes : OrderReplace) (leaves : Nat) : Order :=
  { orig with
    orderId := newId
    price := if 0 < changes.newPrice then changes.newPrice else orig.price
    quantity := leaves
    displayQuantity := changes.newDisplayQuantity.getD orig.displayQuantity
    timeInForce := changes.newTimeInForce.getD orig.timeInForce
    timestamp := changes.timestamp
    clientOrderId := changes.clientOrderId }

/-- What the replacement rests with: a total of `0` keeps it, otherwise the total less what was filled. -/
def replaceLeaves (orig : Order) (filled : Nat) (changes : OrderReplace) : Except OrderReject Nat :=
  if changes.newTotalQty = 0 then .ok orig.quantity
  else if filled < changes.newTotalQty then .ok (changes.newTotalQty - filled)
  else .error .quantityNotAboveFilled

/-- Puts `new` in place of a live order, with what was filled of it.  One update carries both legs. -/
def swapOrder (origId : String) (new : Order) (filled : Nat) :
    OrderBook × Order × MarketDataIncrementalUpdate :=
  let removed := book.cancelOrder origId
  let book := (removed.map (·.1)).getD book
  let (book, inc) := book.addOrder new
  let inc := { inc with changes := ((removed.map (·.2.changes)).getD []) ++ inc.changes }
  let book := if 0 < filled then { book with cumFilled := book.cumFilled.insert new.orderId filled } else book
  (book, new, inc)

/-- Cancel/replace of a live order.  The caller runs the matching. -/
def replaceOrder (origId newId : String) (changes : OrderReplace) (owner : String) :
    Except OrderReject (OrderBook × Order × MarketDataIncrementalUpdate) := do
  book.checkOwner origId owner
  let orig ←
    match book.orderLookup[origId]? with
    | none => .error .unknownOrder
    | some o => .ok o
  if newId ≠ origId ∧ book.orderLookup.contains newId then
    .error .duplicateOrderId
  let filled := book.cumFilled[origId]?.getD 0
  let leaves ← replaceLeaves orig filled changes
  .ok (book.swapOrder origId (replacement orig newId changes leaves) filled)

/-- The levels of one side with their displayed quantity, in increasing price. -/
def levelSizes (arithmetic : Arithmetic) (side : OrderSide) : Except Panic (List (Int × Nat)) :=
  (book.levels side).toList.mapM fun (price, orders) => do
    .ok (price, ← sumU32 arithmetic (orders.map book.visible))

def getMarketSnapshot (arithmetic : Arithmetic) : Except Panic MarketDataSnapshot := do
  .ok
    { symbol := book.symbol
      bids := ← book.levelSizes arithmetic .buy
      asks := ← book.levelSizes arithmetic .sell }

end OrderBook

end Fxp
