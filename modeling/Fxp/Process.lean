import Fxp.Phases

/-!
# Requests

New orders, cancels and cancel/replaces.  `preflight` handles what concerns orders queued for an auction or held for
the close and rejects bad replaces; the rest goes to the book and the parked stops.
-/

namespace Fxp

open Checked

/-- The places in a call that read the clock. -/
inductive ClockSite
  | advance
  | preflight
  | request
  | report
  | publish
deriving DecidableEq

abbrev Clock := ClockSite → Time

def validateExpiry (date : String) (now : Time) : Option String :=
  match expiryInstant date with
  | .error reason => some reason
  | .ok seconds => if Time.ofSeconds seconds ≤ now then some "expire_date is in the past" else none

/-- Hidden reserve is supported in limit sessions without auctions only. -/
def icebergReason (display : Int) (total : Nat) (ty : OrderType) (tif : TimeInForce) (fullSchedule : Bool)
    (lot : Nat) : Option String :=
  if display < 0 then some "display quantity must be nonnegative"
  else if display = 0 then none
  else if total < asU32 display ∨ asU32 display % lot ≠ 0 then
    some "display quantity must not exceed total and must be a multiple of lot size"
  else if fullSchedule ∨ ty ≠ .limit ∨ ¬ (tif = .day ∨ tif = .gtc ∨ tif = .gtd) then
    some "icebergs require limit DAY/GTC/GTD without auction sessions"
  else none

inductive SymbolMsg (R : Type)
  | order (order : NewOrderSingle) (outputTx : R)
  | cancel (msg : CancelMsg R)
  | cancelReplace (msg : CancelReplaceMsg R)

namespace Engine

variable {R : Type}

/-- The type that the checks of a replace assume for a live order. -/
def liveType (e : Engine R) (id : String) : OrderType :=
  if e.callMarkets.contains id then .market
  else if e.stopBook.contains id then .stop
  else .limit

/-- Checks of the numeric fields of a replace. -/
def replaceFieldsReason (e : Engine R) (m : CancelReplaceMsg R) : Option String :=
  if m.newQuantity < 0 ∨ m.newPrice < 0 ∨ m.newStopPrice < 0 then some "negative replace fields are invalid"
  else
    -- an omitted quantity keeps the live total, which may be below the entry rules
    (if 0 < m.newQuantity then e.symbolRules.validateQuantity (asU32 m.newQuantity.toInt) else none).or <|
    (if 0 < m.newPrice then e.symbolRules.validatePrice m.newPrice else none).or <|
    if 0 < m.newStopPrice then e.symbolRules.validatePrice m.newStopPrice else none

/-- Checks of the displayed quantity of a replace. -/
def replaceDisplayReason (e : Engine R) (m : CancelReplaceMsg R) (state : OrderState R) (tif : TimeInForce) :
    Option String :=
  if 0 < state.displayQuantity ∧ ¬ (tif = .day ∨ tif = .gtc ∨ tif = .gtd) then
    some ("iceberg replacements require DAY/GTC/GTD; " ++
      "cancel and enter a new order to change to IOC/FOK/auction")
  else
    let ceiling :=
      if m.newQuantity = 0 ∧ m.newDisplayQuantity.isNone then max state.orderQty state.displayQuantity
      else if m.newQuantity = 0 then state.orderQty
      else asU32 m.newQuantity.toInt
    icebergReason ((m.newDisplayQuantity.map Int32.toInt).getD (asI32 state.displayQuantity)) ceiling
      (e.liveType m.orderId) tif e.auctionsEnabled e.symbolRules.lotSize

/-- Why `preflight` rejects a replace. -/
def replaceReason (e : Engine R) (m : CancelReplaceMsg R) (now : Time) : Option String :=
  if e.phase = .closed then some "market closed"
  else
    match e.states[m.orderId]? with
    | none => some OrderReject.unknownOrder.reason
    | some state =>
      if state.sender ≠ m.sender then some OrderReject.unknownOrder.reason
      else if e.heldClose.contains m.orderId then some "replace of held AT_CLOSE order is not supported"
      else if m.newOrderId ≠ m.orderId ∧ e.states.contains m.newOrderId then
        some OrderReject.duplicateOrderId.reason
      else
        match parseReplaceTimeInForce m.newTimeInForce with
        | .error reason => some reason
        | .ok newTif =>
          let tif := newTif.getD state.timeInForce
          (entryReason e.phase e.auctionsEnabled (e.liveType m.orderId) tif).or <|
          (if tif = .gtd then validateExpiry state.expireDate now else none).or <|
          (e.replaceFieldsReason m).or <|
          e.replaceDisplayReason m state tif

end Engine

namespace Call

variable {R : Type}

/-- The execution reports of a replace: one for the original order and one for the replacement. -/
def sendReplaceReports (m : CancelReplaceMsg R) (state : OrderState R) (ts : Time) (c : Call R) : Call R :=
  let c := c.report m.outputTx m.orderId (some state)
    { execType := .replaced, status := .replaced, leaves := state.leaves, origOrderId := m.orderId } ts
  c.report m.outputTx m.newOrderId (some state)
    { execType := .new, status := .new, leaves := state.leaves, origOrderId := m.orderId } ts

/-- The state of the replacement takes the place of that of the original order. -/
def takeOver (m : CancelReplaceMsg R) (state : OrderState R) (ts : Time) (c : Call R) : Call R :=
  ((c.dropState m.orderId).sendReplaceReports m state ts).setState m.newOrderId state

variable (clock : Clock)

/-- Cancels an order that is queued for an auction or held for the close. -/
def preflightCancel (m : CancelMsg R) (c : Call R) : Except Panic (Call R) := do
  let state ← get c.engine.states[m.orderId]?
  if state.sender ≠ m.sender then
    .ok (c.rejectRequest m.outputTx m.orderId m.clientCancelId OrderReject.notOwner.reason (clock .report))
  else do
    let (e, _) ← c.engine.removeLive m.orderId
    let state ← get e.states[m.orderId]?
    .ok (({ c with engine := e }.dropState m.orderId).report m.outputTx m.orderId (some state)
      { execType := .canceled
        status := .canceled
        clientOrderId := some m.clientCancelId
        origOrderId := m.orderId } (clock .report))

variable (m : CancelReplaceMsg R)

/-- Replaces a market order that is queued for an auction. -/
def replaceCallMarket (old : Order) (c : Call R) :
    Except Panic (Call R) := do
  let state ← get c.engine.states[m.orderId]?
  if 0 < m.newQuantity ∧ asU32 m.newQuantity.toInt ≤ state.cumQty then
    .ok (c.rejectRequest m.outputTx m.orderId m.clientReplaceId OrderReject.quantityNotAboveFilled.reason
      (clock .report))
  else do
    let quantity := if 0 < m.newQuantity then asU32 m.newQuantity.toInt - state.cumQty else old.quantity
    let newTif ← get (parseReplaceTimeInForce m.newTimeInForce).toOption
    let replacement : Order :=
      { old with
        orderId := m.newOrderId
        quantity := quantity
        timeInForce := newTif.getD old.timeInForce
        timestamp := (clock .request).asMillis
        clientOrderId := m.clientReplaceId }
    let orderQty ← addU32 c.engine.arithmetic state.cumQty quantity
    let state :=
      { state with
        orderQty := orderQty
        timeInForce := replacement.timeInForce
        clientOrderId := m.clientReplaceId
        outputTx := m.outputTx
        arrival := c.engine.nextArrival }
    let c : Call R := { c with engine := { c.engine with callMarkets := c.engine.callMarkets.erase m.orderId } }
    let c := c.takeOver m state (clock .report)
    let e := c.engine
    if replacement.timeInForce = .atClose ∧ e.phase ≠ .closingCall then
      .ok { c with engine := { e with heldClose := e.heldClose.insert m.newOrderId replacement } }
    else .ok { c with engine := { e with callMarkets := e.callMarkets.insert m.newOrderId replacement } }

/-- Whether the request was handled here. -/
def preflight (msg : SymbolMsg R) (c : Call R) : Except Panic (Call R × Bool) :=
  match msg with
  | .order _ _ => .ok (c, false)
  | .cancel m =>
    if c.engine.callMarkets.contains m.orderId ∨ c.engine.heldClose.contains m.orderId then do
      .ok (← c.preflightCancel clock m, true)
    else .ok (c, false)
  | .cancelReplace m =>
    match c.engine.replaceReason m (clock .preflight) with
    | some reason => .ok (c.rejectRequest m.outputTx m.orderId m.clientReplaceId reason (clock .report), true)
    | none =>
      match c.engine.callMarkets[m.orderId]? with
      | none => .ok (c, false)
      | some old => do .ok (← c.replaceCallMarket clock m old, true)

/-- Cancels an order of the book or, if the book does not know it, a parked stop. -/
def cancelLive (e : Engine R) (orderId sender : String) :
    Except OrderReject (Engine R × Option MarketDataIncrementalUpdate) :=
  match e.book.cancelOrderFor orderId sender with
  | .error .unknownOrder => do
    let (stops, _) ← e.stopBook.cancelFor orderId sender
    .ok ({ e with stopBook := stops }, none)
  | .error reject => .error reject
  | .ok (book, md) => .ok ({ e with book := book }, some md)

def processCancel (m : CancelMsg R) (c : Call R) : Call R :=
  let ts := clock .request
  match cancelLive c.engine m.orderId m.sender with
  | .error reject => c.rejectRequest m.outputTx m.orderId m.clientCancelId reject.reason ts
  | .ok (e, md) =>
    let state := e.states[m.orderId]?
    let c := ({ c with engine := e }.dropState m.orderId).report m.outputTx m.orderId state
      { execType := .canceled
        status := .canceled
        clientOrderId := some m.clientCancelId
        origOrderId := m.orderId } ts
    md.toList.foldl (pushMd ts) c

/-- The report state of a replacement. -/
def replacementState (arrival : Nat) (replacement : Order) (orderQty cumQty : Nat)
    (notional : Int) : OrderState R :=
  { sender := replacement.traderId
    timeInForce := replacement.timeInForce
    expireDate := replacement.expireDate
    arrival := arrival
    side := sideToProto replacement.side
    orderQty := orderQty
    displayQuantity := replacement.displayQuantity
    cumQty := cumQty
    notional := notional
    account := replacement.account
    clientOrderId := m.clientReplaceId
    outputTx := m.outputTx }

/-- Executes a parked stop. -/
def fireStop (stop : Order) (ts : Time) (c : Call R) : Except Panic (Call R) :=
  match c.engine.stopBook.cancelFor stop.orderId stop.traderId with
  | .error _ => .error .missing
  | .ok (stops, order) => do
    let (book, exec, _) ← c.engine.book.executeInto order { triggered := [order.orderId] }
    cascade ts exec { c with engine := { c.engine with book := book, stopBook := stops } }

/-- Replaces a parked stop.  The new stop price may already be through the last print. -/
def replaceStop (newTif : Option TimeInForce) (arrival : Nat) (c : Call R) :
    Except Panic (Call R) :=
  let ts := clock .request
  let e := c.engine
  let changes : StopReplace :=
    { newPrice := m.newPrice
      newStopPrice := m.newStopPrice
      newQuantity := asU32 (max m.newQuantity.toInt 0)
      newTimeInForce := newTif
      clientOrderId := m.clientReplaceId
      timestamp := ts.asMillis }
  match e.stopBook.replaceFor m.orderId m.newOrderId changes m.sender (e.book.orderLookup.contains m.newOrderId) with
  | .error reject => .ok (c.rejectRequest m.outputTx m.orderId m.clientReplaceId reject.reason ts)
  | .ok (stops, replacement) =>
    let state := replacementState m arrival replacement replacement.quantity 0 0
    let c := { c with engine := { e with stopBook := stops } }.takeOver m state ts
    if e.phase = .continuous ∧ e.lastTradePrice.any (OrderBook.stopFires replacement) then c.fireStop replacement ts
    else .ok c

/-- The request of a replace to the order book. -/
def bookChanges (newTif : Option TimeInForce) : OrderReplace :=
  { newPrice := m.newPrice
    newTotalQty := asU32 (max m.newQuantity.toInt 0)
    newDisplayQuantity := m.newDisplayQuantity.map fun q => asU32 q.toInt
    newTimeInForce := newTif
    clientOrderId := m.clientReplaceId
    timestamp := (clock .request).asMillis }

/-- Replaces an order on the book: AT_CLOSE leaves it until the closing call, otherwise the replacement may match. -/
def replaceResting (newTif : Option TimeInForce) (arrival : Nat)
    (c : Call R) : Except Panic (Call R) :=
  let ts := clock .request
  let e := c.engine
  let original := e.book.orderLookup[m.orderId]?
  let originalVisible := original.elim 0 e.book.visible
  match e.book.replaceOrder m.orderId m.newOrderId (bookChanges clock m newTif) m.sender with
  | .error reject => .ok (c.rejectRequest m.outputTx m.orderId m.clientReplaceId reject.reason ts)
  | .ok (book, replacement, inc) => do
    let filled := e.states[m.orderId]?.elim (0, 0) fun s => (s.cumQty, s.notional)
    let orderQty ← addU32 e.arithmetic filled.1 replacement.quantity
    let state := replacementState m arrival replacement orderQty filled.1 filled.2
    let c := { c with engine := { e with book := book } }.takeOver m state ts
    if replacement.timeInForce = .atClose ∧ e.phase ≠ .closingCall then do
      let book := ((book.cancelOrder replacement.orderId).map (·.1)).getD book
      let orig ← get original
      let md := book.generateIncrementalUpdate .cancelOrder orig.price originalVisible orig.side
      .ok (pushMd ts
        { c with
          engine :=
            { c.engine with
              book := book
              heldClose := c.engine.heldClose.insert replacement.orderId replacement } } md)
    else if e.phase ≠ .continuous then .ok (pushMd ts c inc)
    else do
      -- the market data of the replacement goes out before the reports of what it traded
      let (book, exec) ← c.engine.book.matchInto {}
      cascade ts exec (pushMd ts { c with engine := { c.engine with book := book } } inc)

def processReplace (arrival : Nat) (c : Call R) : Except Panic (Call R) :=
  let ts := clock .request
  let reject (reason : String) := c.rejectRequest m.outputTx m.orderId m.clientReplaceId reason ts
  match parseReplaceTimeInForce m.newTimeInForce with
  | .error reason => .ok (reject reason)
  | .ok newTif =>
    let expired :=
      match newTif, c.engine.states[m.orderId]? with
      | some .gtd, some state => if state.sender = m.sender then validateExpiry state.expireDate ts else none
      | _, _ => none
    match expired with
    | some reason => .ok (reject reason)
    | none =>
      if c.engine.stopBook.contains m.orderId then c.replaceStop clock m newTif arrival
      else c.replaceResting clock m newTif arrival

/-- Why a new order is rejected before it touches anything. -/
def invalidReason (e : Engine R) (order : NewOrderSingle) (now : Time) : Option String :=
  match parseOrderEnums order with
  | .error reason => some reason
  | .ok (_, ty, tif) =>
    let isLimit := ty = .limit ∨ ty = .stopLimit
    let isStop := ty = .stop ∨ ty = .stopLimit
    (if order.quantity ≤ 0 then some "quantity must be positive"
      else if isLimit ∧ order.price ≤ 0 then some "limit price must be positive"
      else if e.states.contains order.orderId then some "Duplicate order id"
      else
        match parseStp order.stpMode e.stpDefault with
        | .error reason => some reason
        | .ok (mode, explicit) =>
          if (tif = .atOpen ∨ tif = .atClose) ∧ explicit ∧ mode ≠ .none then
            some "self-trade prevention is not supported for auction orders"
          else
            (entryReason e.phase e.auctionsEnabled ty tif).or
              (if tif = .gtd then validateExpiry order.expireDate now else none)).or <|
    (e.symbolRules.validateQuantity (asU32 order.quantity.toInt)).or <|
    (if isLimit then e.symbolRules.validatePrice order.price else none).or <|
    (if order.stopPrice ≠ 0 ∧ isStop then e.symbolRules.validatePrice order.stopPrice else none).or <|
    icebergReason order.displayQuantity.toInt (asU32 order.quantity.toInt) ty tif e.auctionsEnabled
      e.symbolRules.lotSize

def orderOf (e : Engine R) (order : NewOrderSingle) (now : Time) : Except Panic Order :=
  match parseOrderEnums order, parseStp order.stpMode e.stpDefault with
  | .ok (side, orderType, timeInForce), .ok (mode, _) =>
    .ok
      { orderId := order.orderId
        traderId := order.sender
        symbol := e.symbol
        price := order.price
        quantity := asU32 order.quantity.toInt
        displayQuantity := asU32 order.displayQuantity.toInt
        side := side
        orderType := orderType
        timeInForce := timeInForce
        timestamp := now.asMillis
        stopPrice := order.stopPrice
        expireDate := order.expireDate
        account := order.account
        clientOrderId := order.clientOrderId
        stp := { mode := mode, group := order.stpGroup } }
  | _, _ => .error .missing

/-- Acknowledges an order that rests, is parked or waits for an auction. -/
def acknowledge (owner : R) (orderId : String) (state : OrderState R) (ts : Time) (c : Call R) : Call R :=
  c.report owner orderId (some state) { execType := .new, status := .new, leaves := state.leaves } ts

/-- Queues an accepted order: held for the close, for the auction of this call, or on the book without matching. -/
def queueOrder (order : Order) (ts : Time) (c : Call R) : Call R :=
  let e := c.engine
  if order.timeInForce = .atClose ∧ e.phase ≠ .closingCall then
    { c with engine := { e with heldClose := e.heldClose.insert order.orderId order } }
  else if order.orderType = .market then
    { c with engine := { e with callMarkets := e.callMarkets.insert order.orderId order } }
  else
    let (book, md) := e.book.addOrder order
    pushMd ts { c with engine := { e with book := book } } md

def executeOrder (owner : R) (order : Order) (ts : Time) (c : Call R) : Except Panic (Call R) := do
  let (book, exec, rested) ← c.engine.book.executeInto order {}
  let c := { c with engine := { c.engine with book := book } }
  let c :=
    match rested, c.engine.states[order.orderId]? with
    | true, some state => c.acknowledge owner order.orderId state ts
    | _, _ => c
  cascade ts exec c

def processOrder (order : NewOrderSingle) (owner : R) (arrival : Nat) (c : Call R) :
    Except Panic (Call R) :=
  let ts := clock .request
  let rejectOrder (reason : String) (orderQty : Nat) : Call R :=
    c.report owner order.orderId (some (OrderState.new order orderQty owner arrival))
      { execType := .rejected, status := .rejected, rejectReason := reason } ts
  match invalidReason c.engine order ts with
  | some reason => .ok (rejectOrder reason (asU32 (max order.quantity.toInt 0)))
  | none => do
    let o ← orderOf c.engine order ts
    let state := OrderState.new order o.quantity owner arrival
    let isStop := o.orderType = .stop ∨ o.orderType = .stopLimit
    if isStop ∧ o.stopPrice = 0 then .ok (rejectOrder "stop_price is required" o.quantity)
    else if isStop ∧ ¬ (c.engine.phase = .continuous ∧ c.engine.lastTradePrice.any (OrderBook.stopFires o)) then
      let c := (c.acknowledge owner o.orderId state ts).setState o.orderId state
      .ok { c with engine := { c.engine with stopBook := c.engine.stopBook.park o } }
    else if c.engine.phase ≠ .continuous ∨ o.timeInForce = .atClose then
      .ok (((c.acknowledge owner o.orderId state ts).setState o.orderId state).queueOrder o ts)
    else (c.setState o.orderId state).executeOrder owner o ts

/-- Handles a request that has its arrival number. -/
def dispatch (msg : SymbolMsg R) (arrival : Nat) (c : Call R) : Except Panic (Call R) := do
  let (c, handled) ← preflight clock msg c
  if handled then .ok c
  else
    match msg with
    | .cancel m => .ok (c.processCancel clock m)
    | .cancelReplace m => c.processReplace clock m arrival
    | .order order owner => c.processOrder clock order owner arrival

/-- Handles a request, after the tick that every call starts with. -/
def process (msg : SymbolMsg R) (c : Call R) : Except Panic (Call R) := do
  let arrival := c.engine.nextArrival + 1
  let c ← dispatch clock msg arrival { c with engine := { c.engine with nextArrival := arrival } }
  c.publishIndicative (clock .publish)

end Call

end Fxp
