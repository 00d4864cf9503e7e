import Fxp.Gateway.Ownership
import Fxp.Lib.Machine
import Mathlib

/-!
# The gateway and the core

Client connections `C` send requests to the gateway, which writes them on pooled connections `K` to the core.
-/

namespace Fxp.Gateway

open Machine

variable {C K : Type}

/-- A request on its way; the connection and the place among its messages are not sent. -/
structure Entry (C : Type) where
  client : C
  serial : Nat
  request : Request
deriving DecidableEq

/-- A report on its way from the core, with the request that the engine was handling, if there was one. -/
structure Sent (C : Type) where
  report : Report
  source : Option (Entry C)
deriving DecidableEq

/-- A report that a client has got, and the one of the core it was made from. -/
structure Delivery (C : Type) where
  client : C
  report : Report
  source : Option (Sent C)
deriving DecidableEq

/-- Where reports about an order go; `request` remembers the request that registered the route. -/
structure OrderRoute (C : Type) where
  conn : C
  owner : String
  provisional : Bool
  request : Entry C
deriving DecidableEq

def Entry.route (e : Entry C) (provisional : Bool) : OrderRoute C :=
  { conn := e.client, owner := e.request.sender, provisional, request := e }

/-- Where the handler of a client connection is: each state but the first is before an operation. -/
inductive Handler (C : Type)
  | idle
  /-- `registerRoute` of the replacement -/
  | registerNew (e : Entry C)
  | storePending (e : Entry C)
  /-- the registration in `SendFramedToCore` -/
  | register (e : Entry C)
  /-- the second half of `registerRequest` -/
  | lookup (e : Entry C)
  | storeInflight (e : Entry C)
  | write (e : Entry C) (stored : Bool)
  /-- the write has failed -/
  | forget (e : Entry C)
  | forgetInflight (e : Entry C)
deriving DecidableEq

def Handler.entry : Handler C → Option (Entry C)
  | .idle => none
  | .registerNew e => some e
  | .storePending e => some e
  | .register e => some e
  | .lookup e => some e
  | .storeInflight e => some e
  | .write e _ => some e
  | .forget e => some e
  | .forgetInflight e => some e

/-- Where the reader of a pooled connection is in `routeFromCore`. -/
inductive Reader (C : Type)
  | idle
  | load (r : Sent C)
  | reply (route : OrderRoute C) (r : Sent C)
  | deliver (route : OrderRoute C) (targets : List C) (r : Sent C)
  | dropRoute (route : OrderRoute C) (r : Sent C)
  | takePending (r : Sent C)
  /-- `dropProvisional` -/
  | dropLoad (newID : String) (r : Sent C)
  | dropDelete (newID : String) (r : Sent C)
  | clearPending (route : OrderRoute C) (r : Sent C)
  | finish (route : OrderRoute C) (r : Sent C)
deriving DecidableEq

def Reader.sent : Reader C → Option (Sent C)
  | .idle => none
  | .load r => some r
  | .reply _ r => some r
  | .deliver _ _ r => some r
  | .dropRoute _ r => some r
  | .takePending r => some r
  | .dropLoad _ r => some r
  | .dropDelete _ r => some r
  | .clearPending _ r => some r
  | .finish _ r => some r

/-- The core rejects a cancel or replace; the order itself is unchanged. -/
def requestReject (rep : Report) : Bool := rep.orderStatus = .rejected && rep.origOrderId ≠ ""

def fullCancel (rep : Report) : Bool := rep.orderStatus = .canceled && rep.leavesQuantity = 0

def isRequestReply (rep : Report) : Bool := requestReject rep || rep.orderStatus = .replaced || fullCancel rep

/-- The report takes the order out of the table. -/
def terminal (rep : Report) : Bool :=
  rep.orderStatus = .filled || rep.orderStatus = .rejected || rep.orderStatus = .replaced ||
    rep.orderStatus = .expired || fullCancel rep

/-- The report is the answer of the core to the request. -/
def Entry.answeredBy [DecidableEq C] (e : Entry C) (r : Sent C) : Bool :=
  e.request.isChange && r.source = some e && r.report.orderId = e.request.orderId && isRequestReply r.report

/-- The task of a symbol: it sends all reports of a call before it takes the next message; after a panic there is no
engine. -/
structure Task (C K : Type) where
  engine : Option (Engine K)
  queue : List (K × Entry C) := []
  emitting : List (K × Sent C) := []
  received : List (Entry C) := []

/-- The admission settings of the core, and the engines it makes. -/
structure Config (K : Type) where
  allowedSymbols : Option (List String) := none
  maxSymbols : Option Nat := none
  engine : String → Time → Engine K

/-- The call of an engine for a request that came on connection `k`. -/
def Request.op (k : K) : Request → Op K
  | .newOrder m => .newOrder m k
  | .orderCancel m =>
    .cancel { orderId := m.orderId, sender := m.sender, clientCancelId := m.clientCancelId, outputTx := k }
  | .orderCancelReplace m =>
    .cancelReplace
      { orderId := m.orderId, sender := m.sender, newOrderId := m.newOrderId, clientReplaceId := m.clientReplaceId
        newPrice := m.newPrice, newQuantity := m.newQuantity, newTimeInForce := m.newTimeInForce
        newStopPrice := m.newStopPrice, newDisplayQuantity := m.newDisplayQuantity, outputTx := k }

/-- A call that is not for an order-entry request. -/
def isOther : Op K → Bool
  | .newOrder _ _ => false
  | .cancel _ => false
  | .cancelReplace _ => false
  | _ => true

/-- The execution reports among the outputs of a call, with the connections they go to. -/
def sends (source : Option (Entry C)) (out : List (Output K)) : List (K × Sent C) :=
  out.filterMap fun
    | .executionReport k report => some (k, { report, source })
    | _ => none

def serverReject (now : Time) (reason : String) (m : Request) : Report :=
  { Engine.emptyReport with
    orderId := m.orderId
    symbol := m.symbol
    executionType := .rejected
    orderStatus := .rejected
    timestamp := now
    account :=
      match m with
      | .newOrder order => order.account
      | _ => ""
    clientOrderId :=
      match m with
      | .newOrder order => order.clientOrderId
      | .orderCancel cancel => cancel.clientCancelId
      | .orderCancelReplace cr => cr.clientReplaceId
    origOrderId := if m.isChange then m.orderId else ""
    rejectReason := reason
    side :=
      match m with
      | .newOrder order => order.side
      | _ => 0
    orderQuantity :=
      match m with
      | .newOrder order => order.quantity.toInt
      | _ => 0 }

/-- The channel of a symbol, or why there is none: `get_or_admit` for a new order, else `get_existing`. -/
def Config.channel (cfg : Config K) (now : Time) (m : Request) (tasks : HashMap (Task C K)) :
    Except String (Task C K) :=
  if m.isChange then
    match tasks[m.symbol]? with
    | some task => .ok task
    | none => .error (if m.symbol = "" then "symbol must not be empty" else "unknown symbol")
  else if m.symbol = "" then .error "symbol must not be empty"
  else
    match tasks[m.symbol]? with
    | some task => .ok task
    | none =>
      if cfg.allowedSymbols.any (m.symbol ∉ ·) then .error "symbol is not allowed"
      else if cfg.maxSymbols.any (· ≤ tasks.size) then .error "maximum symbol count reached"
      else .ok { engine := some (cfg.engine m.symbol now) }

structure Network (C K : Type) where
  /-- The trader a connection is authenticated as. -/
  sessions : C → Option String := fun _ => none
  closed : C → Bool := fun _ => false
  /-- The number of messages a connection has sent. -/
  sent : C → Nat := fun _ => 0
  handlers : C → Handler C := fun _ => .idle
  orderClientMap : HashMap (OrderRoute C) := ∅
  /-- The replacement of an order, with the request that registered it. -/
  pendingReplace : HashMap (String × Entry C) := ∅
  inflightRequests : HashMap C := ∅
  up : K → List (Entry C) := fun _ => []
  /-- The request that the reader of a connection in the core is at work on. -/
  hand : K → Option (Entry C) := fun _ => none
  tasks : HashMap (Task C K) := ∅
  down : K → List (Sent C) := fun _ => []
  readers : K → Reader C := fun _ => .idle
  /-- The cancels and replaces whose answer has not been routed yet. -/
  outstanding : List (Entry C) := []
  /-- Those that the core has rejected, once the reject has been routed. -/
  refused : List (Entry C) := []
  /-- All reports of the core. -/
  emitted : List (K × Sent C) := []
  delivered : List (Delivery C) := []

/-- What happens: to a connection of a client, in the core, or on a pooled connection. -/
inductive Action (C K : Type)
  | logon (c : C) (trader : String)
  | close (c : C)
  | message (c : C) (m : Request)
  /-- the next operation of the handler of `c` -/
  | handler (c : C)
  | write (c : C) (k : K)
  | fail (c : C)
  | coreRead (k : K)
  | coreRoute (k : K) (now : Time)
  | receive (symbol : String) (clock : Clock)
  | other (symbol : String) (clock : Clock) (op : Op K)
  | emit (symbol : String)
  | read (k : K)
  /-- the next operation of the reader of `k` -/
  | reader (k : K)

namespace Network

variable [DecidableEq C] [DecidableEq K]

def setHandler (c : C) (h : Handler C) (s : Network C K) : Network C K :=
  { s with handlers := Function.update s.handlers c h }

def setReader (k : K) (r : Reader C) (s : Network C K) : Network C K :=
  { s with readers := Function.update s.readers k r }

def storeRoute (id : String) (route : OrderRoute C) (s : Network C K) : Network C K :=
  { s with orderClientMap := s.orderClientMap.insert id route }

def deleteRoute (id : String) (s : Network C K) : Network C K :=
  { s with orderClientMap := s.orderClientMap.erase id }

def deletePending (id : String) (s : Network C K) : Network C K :=
  { s with pendingReplace := s.pendingReplace.erase id }

def deleteInflight (id : String) (s : Network C K) : Network C K :=
  { s with inflightRequests := s.inflightRequests.erase id }

variable (symbol : String)

def setTask (task : Task C K) (s : Network C K) : Network C K :=
  { s with tasks := s.tasks.insert symbol task }

/-- Where the handler begins with a request. -/
def firstState (e : Entry C) : Handler C :=
  if e.request.newOrderId ≠ "" then .registerNew e else .register e

/-- The next message of a client: bound to its trader, checked, and taken up by the handler. -/
def message (c : C) (m : Request) (s : Network C K) : Option (Network C K) :=
  match s.sessions c, s.handlers c, s.closed c with
  | some trader, .idle, false =>
    let m := bindOwner trader m
    let e : Entry C := { client := c, serial := s.sent c, request := m }
    let s := { s with sent := Function.update s.sent c (s.sent c + 1) }
    if validateOrderEnums m ≠ "" then
      let delivery : Delivery C := { client := c, report := orderReject m (validateOrderEnums m), source := none }
      some { s with delivered := s.delivered ++ [delivery] }
    else
      some { s.setHandler c (firstState e) with
        outstanding := if m.isChange then s.outstanding ++ [e] else s.outstanding }
  | _, _, _ => none

/-- The next operation of a handler, except for the write. -/
def handler (c : C) (s : Network C K) : Option (Network C K) :=
  match s.handlers c with
  | .registerNew e =>
    if s.orderClientMap.contains e.request.newOrderId then some (s.setHandler c (.register e))
    else some ((s.setHandler c (.storePending e)).storeRoute e.request.newOrderId (e.route true))
  | .storePending e =>
    some { s.setHandler c (.register e) with
      pendingReplace := s.pendingReplace.insert e.request.orderId (e.request.newOrderId, e) }
  | .register e =>
    if e.request.isChange then
      if s.orderClientMap.contains e.request.orderId then some (s.setHandler c (.lookup e))
      else some ((s.setHandler c (.write e true)).storeRoute e.request.orderId (e.route true))
    else some ((s.setHandler c (.write e true)).storeRoute e.request.orderId (e.route false))
  | .lookup e =>
    -- a route that is gone by now is not registered again
    if s.orderClientMap[e.request.orderId]?.any (·.conn ≠ e.client) then some (s.setHandler c (.storeInflight e))
    else some (s.setHandler c (.write e false))
  | .storeInflight e =>
    some { s.setHandler c (.write e false) with
      inflightRequests := s.inflightRequests.insert e.request.orderId e.client }
  | .forget e => some ((s.setHandler c (.forgetInflight e)).deleteRoute e.request.orderId)
  | .forgetInflight e =>
    some { (s.setHandler c .idle).deleteInflight e.request.orderId with
      outstanding := s.outstanding.filter (· ≠ e) }
  | .idle => none
  | .write _ _ => none

/-- The write on a pooled connection that `acquire` gave. -/
def write (c : C) (k : K) (s : Network C K) : Option (Network C K) :=
  match s.handlers c with
  | .write e _ => some { s.setHandler c .idle with up := Function.update s.up k (s.up k ++ [e]) }
  | _ => none

/-- The write and its retry after a reconnect fail. -/
def fail (c : C) (s : Network C K) : Option (Network C K) :=
  match s.handlers c with
  | .write e stored => some (s.setHandler c (if stored then .forget e else .forgetInflight e))
  | _ => none

def coreRead (k : K) (s : Network C K) : Option (Network C K) :=
  match s.hand k, s.up k with
  | none, e :: rest =>
    some { s with hand := Function.update s.hand k (some e), up := Function.update s.up k rest }
  | _, _ => none

/-- The reader of a connection sends a request to the task of its symbol. -/
def coreRoute (cfg : Config K) (k : K) (now : Time) (s : Network C K) : Option (Network C K) :=
  match s.hand k with
  | none => none
  | some e =>
    let s := { s with hand := Function.update s.hand k none }
    match cfg.channel now e.request s.tasks with
    | .ok task =>
      -- the channel of a task that has panicked is closed
      if task.engine.isNone then some s
      else some (s.setTask e.request.symbol { task with queue := task.queue ++ [(k, e)] })
    | .error reason =>
      let r : Sent C := { report := serverReject now reason e.request, source := some e }
      some { s with down := Function.update s.down k (s.down k ++ [r]), emitted := s.emitted ++ [(k, r)] }

/-- A call of an engine, with what its tick does. -/
def outcome (clock : Clock) (op : Op K) (engine : Engine K) : Except Panic (Call K × Call K) := do
  let ticked ← engine.tick (clock .advance)
  let done ← ticked.handle clock op
  .ok (ticked, done)

/-- The reports of a call: those of its tick, and those that are about the request it is for. -/
def outcomeSends (source : Option (Entry C)) (ticked done : Call K) : List (K × Sent C) :=
  sends none ticked.out ++ sends source (done.out.drop ticked.out.length)

/-- A task calls its engine; `source` is the request it took for that. -/
def call (clock : Clock) (op : Op K) (source : Option (Entry C)) (task : Task C K)
    (s : Network C K) : Option (Network C K) :=
  match task.engine, task.emitting with
  | some engine, [] =>
    match outcome clock op engine with
    | .ok (ticked, done) =>
      some { s.setTask symbol { task with engine := some done.engine, emitting := outcomeSends source ticked done } with
        emitted := s.emitted ++ outcomeSends source ticked done }
    | .error _ => some (s.setTask symbol { task with engine := none })
  | _, _ => none

def receive (clock : Clock) (s : Network C K) : Option (Network C K) :=
  match s.tasks[symbol]? with
  | none => none
  | some task =>
    match task.queue with
    | [] => none
    | (k, e) :: rest =>
      s.call symbol clock (e.request.op k) (some e) { task with queue := rest, received := task.received ++ [e] }

/-- A task ticks, or takes a message that is not an order-entry request. -/
def other (clock : Clock) (op : Op K) (s : Network C K) : Option (Network C K) :=
  match s.tasks[symbol]? with
  | none => none
  | some task => if isOther op then s.call symbol clock op none task else none

def emit (s : Network C K) : Option (Network C K) :=
  match s.tasks[symbol]? with
  | none => none
  | some task =>
    match task.emitting with
    | [] => none
    | (k, r) :: rest =>
      some { s.setTask symbol { task with emitting := rest } with
        down := Function.update s.down k (s.down k ++ [r]) }

def read (k : K) (s : Network C K) : Option (Network C K) :=
  match s.readers k, s.down k with
  | .idle, r :: rest => some { s.setReader k (.load r) with down := Function.update s.down k rest }
  | _, _ => none

/-- The reader is done with a report; if it was the answer to a request, the request is no longer outstanding. -/
def settle (k : K) (r : Sent C) (s : Network C K) : Network C K :=
  { s.setReader k .idle with
    outstanding := s.outstanding.filter fun e => !e.answeredBy r
    refused := s.refused ++ if requestReject r.report then r.source.toList.filter (·.answeredBy r) else [] }

/-- The next operation of a reader in `routeFromCore`. -/
def reader (k : K) (s : Network C K) : Option (Network C K) :=
  match s.readers k with
  | .idle => none
  | .load r =>
    match s.orderClientMap[r.report.orderId]? with
    | none => some (s.settle k r)
    | some route =>
      if isRequestReply r.report then some (s.setReader k (.reply route r))
      else some (s.setReader k (.deliver route [route.conn] r))
  | .reply route r =>
    match s.inflightRequests[r.report.orderId]? with
    | none => some (s.setReader k (.deliver route [route.conn] r))
    | some req =>
      -- a reject is only for the connection that asked
      let targets := if requestReject r.report then [req] else [route.conn, req]
      some ((s.setReader k (.deliver route targets r)).deleteInflight r.report.orderId)
  | .deliver route (c :: rest) r =>
    let delivery : Delivery C := { client := c, report := stripOwner route.owner r.report, source := some r }
    some { s.setReader k (.deliver route rest r) with
      delivered := if s.closed c then s.delivered else s.delivered ++ [delivery] }
  | .deliver route [] r =>
    some (s.setReader k
      (if requestReject r.report then .dropRoute route r
      else if r.report.orderStatus = .replaced then .clearPending route r
      else .finish route r))
  | .dropRoute route r =>
    some ((if route.provisional then s.deleteRoute r.report.orderId else s).setReader k (.takePending r))
  | .takePending r =>
    match s.pendingReplace[r.report.orderId]? with
    | none => some (s.settle k r)
    | some (newID, _) => some ((s.setReader k (.dropLoad newID r)).deletePending r.report.orderId)
  | .dropLoad newID r =>
    if s.orderClientMap[newID]?.any (·.provisional) then some (s.setReader k (.dropDelete newID r))
    else some (s.settle k r)
  | .dropDelete newID r => some ((s.deleteRoute newID).settle k r)
  | .clearPending route r => some ((s.setReader k (.finish route r)).deletePending r.report.orderId)
  | .finish route r =>
    if terminal r.report then some ((s.deleteRoute r.report.orderId).settle k r)
    else if route.provisional then
      some ((s.storeRoute r.report.orderId { route with provisional := false }).settle k r)
    else some (s.settle k r)

def step (cfg : Config K) (a : Action C K) (s : Network C K) : Option (Network C K) :=
  match a with
  | .logon c trader =>
    if s.handlers c = .idle ∧ s.closed c = false ∧ trader ≠ "" then
      some { s with sessions := Function.update s.sessions c (some trader) }
    else none
  | .close c => some { s with closed := Function.update s.closed c true }
  | .message c m => s.message c m
  | .handler c => s.handler c
  | .write c k => s.write c k
  | .fail c => s.fail c
  | .coreRead k => s.coreRead k
  | .coreRoute k now => s.coreRoute cfg k now
  | .receive symbol clock => s.receive symbol clock
  | .other symbol clock op => s.other symbol clock op
  | .emit symbol => s.emit symbol
  | .read k => s.read k
  | .reader k => s.reader k

/-- A run from the first state on leads to the state, and all its actions meet `ok`. -/
abbrev Reached (cfg : Config K) (ok : Action C K → Network C K → Prop) : Network C K → Prop := Reach (step cfg) ok {}

def anyAction (_ : Action C K) (_ : Network C K) : Bool := true

theorem Reached.of_exec (cfg : Config K) (ok : Action C K → Network C K → Prop) [∀ a s, Decidable (ok a s)]
    (actions : List (Action C K)) (P : Network C K → Bool) (h : (exec (step cfg) ok actions {}).any P = true) :
    ∃ s, Reached cfg ok s ∧ P s = true :=
  Reach.of_exec actions .refl h

end Network

end Fxp.Gateway
