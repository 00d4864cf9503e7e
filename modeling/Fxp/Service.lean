import Fxp.Process

/-!
# Public calls

Every public call starts with a tick and ends by remembering the reports it put out, so that an order status query can
answer from `statusHistory`.  `Engine.apply` is a call, `Calls` a sequence of calls, and `Run` one without overflow.
-/

namespace Fxp

open Checked

namespace Engine

variable {R : Type}

def reportOf : Output R → Option Report
  | .executionReport _ r => some r
  | _ => none

/-- Whether the last report about `id` in `outputs` is not a reject. -/
def acceptedIn (id : String) (outputs : List (Output R)) : Bool :=
  match (outputs.filterMap reportOf).reverse.find? (·.orderId = id) with
  | some r => r.executionType ≠ .rejected
  | none => false

/-- A report that says nothing; it has no order id. -/
def emptyReport : Report :=
  { executionId := "", orderId := "", symbol := "", executionType := .new, orderStatus := .new, executionPrice := 0
    executedQuantity := 0, timestamp := { seconds := 0, nanos := 0 }, leavesQuantity := 0, avgPx := 0
    cumQuantity := 0, account := "", clientOrderId := "", origOrderId := "", rejectReason := "", side := 0
    orderQuantity := 0, auction := false, displayQuantity := 0 }

/-- The sender of a request becomes the owner of the status of `id` if the call accepted it. -/
def bindStatusOwner (id sender : String) (outputs : List (Output R)) (e : Engine R) : Engine R :=
  if acceptedIn id outputs then
    let report := (e.statusHistory[id]?.map (·.2)).getD emptyReport
    { e with statusHistory := e.statusHistory.insert id (sender, report) }
  else e

/-- Remembers a report as the status of its order. -/
def rememberReport (e : Engine R) (r : Report) : Engine R :=
  if r.executionType = .rejected then e
  else
    let known := e.statusHistory[r.orderId]?
    if known.any (·.2.executionId = r.executionId) then e
    else
      let e :=
        match known with
        | none => e
        | some (owner, _) =>
          { e with
            statusHistory := e.statusHistory.insert r.orderId (owner, r)
            terminalHistory :=
              if r.leavesQuantity = 0 then e.terminalHistory ++ [(r.orderId, r.executionId)] else e.terminalHistory }
      if r.origOrderId ≠ "" ∧ r.executionType = .replaced then
        match e.statusHistory[r.origOrderId]? with
        | none => e
        | some (owner, old) =>
          { e with
            statusHistory := e.statusHistory.insert r.origOrderId
              (owner, { old with orderStatus := .replaced, leavesQuantity := 0 })
            terminalHistory := e.terminalHistory ++ [(r.origOrderId, old.executionId)] }
      else e

/-- The number of terminal transitions that are remembered. -/
def historyLimit : Nat := 100000

/-- Forgets the oldest terminal transition, with the status of its order if that is still the one it left. -/
def forgetStep (e : Engine R) : Option (Engine R) :=
  if historyLimit < e.terminalHistory.length then
    match e.terminalHistory with
    | [] => none
    | (id, exec) :: rest =>
      let e := { e with terminalHistory := rest }
      if e.statusHistory[id]?.any fun s => s.2.executionId = exec && s.2.leavesQuantity = 0 then
        some { e with statusHistory := e.statusHistory.erase id }
      else some e
  else none

def rememberStatus (outputs : List (Output R)) (e : Engine R) : Engine R :=
  let e := (outputs.filterMap reportOf).foldl rememberReport e
  Loop.run forgetStep (e.terminalHistory.length + 1) e

/-- The status of the orders of `sender`, all or one id, on both sides or one. -/
def orderStatus (e : Engine R) (sender id : String) (side : Int32) : List Report :=
  if sender.isEmpty then []
  else
    let reports := ((e.iterations.statusHistory.entries e.statusHistory).filter fun s =>
      s.2.1 = sender && (id.isEmpty || s.1 = id) && !s.2.2.orderId.isEmpty && (side = 0 || side = s.2.2.side)).map
        fun s =>
          { s.2.2 with
            executionType := .orderStatus
            executionId := "0"
            executedQuantity := 0
            executionPrice := 0 }
    reports.insertionSort fun a b => a.orderId ≤ b.orderId

def tick (now : Time) (e : Engine R) : Except Panic (Call R) := do
  let c ← Call.advance now e
  .ok { c with engine := c.engine.rememberStatus c.out }

end Engine

inductive Op (R : Type)
  | newOrder (order : NewOrderSingle) (owner : R)
  | cancel (msg : CancelMsg R)
  | cancelReplace (msg : CancelReplaceMsg R)
  | massCancel (msg : MassCancelMsg)
  | subscribe (owner : R)
  | beginOpeningCall (seconds : Nat)
  | tick

namespace Call

variable {R : Type}

def rememberStatus (c : Call R) : Call R := { c with engine := c.engine.rememberStatus c.out }

def bindStatusOwner (id sender : String) (c : Call R) : Call R :=
  { c with engine := c.engine.bindStatusOwner id sender c.out }

variable (clock : Clock)

def newOrder (order : NewOrderSingle) (owner : R) (c : Call R) : Except Panic (Call R) := do
  let c ← c.process clock (.order order owner)
  .ok (c.bindStatusOwner order.orderId order.sender).rememberStatus

def cancel (m : CancelMsg R) (c : Call R) : Except Panic (Call R) := do
  let c ← c.process clock (.cancel m)
  .ok c.rememberStatus

def cancelReplace (m : CancelReplaceMsg R) (c : Call R) : Except Panic (Call R) := do
  let c ← c.process clock (.cancelReplace m)
  .ok (c.bindStatusOwner m.newOrderId m.sender).rememberStatus

def massCancel (m : MassCancelMsg) (c : Call R) : Except Panic (Call R) := do
  let targets := c.engine.targets fun _ s => s.sender = m.sender && (m.side = 0 || s.side = m.side)
  let reason := if m.reason = 2 then "cancel on disconnect" else "mass cancel"
  let c ← targets.foldlM (fun c id => c.finish id OrderState.outputTx
    { execType := .canceled, status := .canceled, rejectReason := reason } (clock .request)) c
  let c ← (c.push (.massCancelCount (targets.length % 2 ^ 32))).publishIndicative (clock .publish)
  .ok c.rememberStatus

def subscribe (owner : R) (c : Call R) : Except Panic (Call R) := do
  let now := clock .request
  let snap ← snapshot c.engine.arithmetic c.engine.book now
  let c := c.push (.snapshot owner snap)
  let c := c.push (.tradingSessionStatus { symbol := c.engine.symbol, phase := c.engine.phase, timestamp := now })
  -- a late joiner sees the current indicative
  publishIndicative now { c with engine := { c.engine with lastIndicative := none } }

def beginOpeningCall (seconds : Nat) (c : Call R) : Except Panic (Call R) :=
  if seconds = 0 ∨ isCall c.engine.phase then .ok c
  else do
    let now := clock .request
    let e := { c.engine with callUntil := some (Time.ofSeconds (now.seconds + seconds)) }
    let c ← ({ c with engine := e }.setPhase .openingCall now).publishIndicative now
    .ok c.rememberStatus

/-- A call after its tick. -/
def handle (op : Op R) (c : Call R) : Except Panic (Call R) :=
  match op with
  | .newOrder order owner => c.newOrder clock order owner
  | .cancel m => c.cancel clock m
  | .cancelReplace m => c.cancelReplace clock m
  | .massCancel m => c.massCancel clock m
  | .subscribe owner => c.subscribe clock owner
  | .beginOpeningCall seconds => c.beginOpeningCall clock seconds
  | .tick => .ok c

end Call

namespace Engine

variable {R : Type}

/-- A public call, with the readings of the clock during it. -/
def apply (clock : Clock) (op : Op R) (e : Engine R) : Except Panic (Call R) := do
  let c ← e.tick (clock .advance)
  c.handle clock op

end Engine

/-- Whether the new order quantity of a replace is a `u32`.  A build with overflow checks ends where it is not. -/
def Engine.inRange {R : Type} (e : Engine R) : Op R → Bool
  | .cancelReplace m =>
    e.arithmetic = .checked || !e.book.orderLookup.contains m.orderId || e.states[m.orderId]?.all fun st =>
      st.cumQty + (asU32 (max m.newQuantity.toInt 0) - e.book.cumFilled[m.orderId]?.getD 0) < 2 ^ 32
  | _ => true

/-- A sequence of calls leads from `e₀` to `e` and puts out `out`; `ok` holds of the engine before each call, after
its tick, and of the request. -/
inductive Calls {R : Type} (ok : Engine R → Engine R → Op R → Prop) (e₀ : Engine R) : Engine R → List (Output R) → Prop
  | nil : Calls ok e₀ e₀ []
  | call {e out clock op c c'} :
    Calls ok e₀ e out → e.tick (clock .advance) = .ok c → ok e c.engine op → c.handle clock op = .ok c' →
      Calls ok e₀ c'.engine (out ++ c'.out)

/-- The calls of a run stay in the range of the quantities: in a build with overflow checks, all calls that return. -/
abbrev Run {R : Type} (ok : Engine R → Engine R → Op R → Prop) : Engine R → Engine R → List (Output R) → Prop :=
  Calls fun e e' op => e'.inRange op ∧ ok e e' op

end Fxp
