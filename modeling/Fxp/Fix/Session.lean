import Fxp.Fix.Resend
import Fxp.Lib.Loop
import Mathlib

/-!
# A FIX session

`Session.dispatch` takes the next inbound message of a connection.
-/

namespace Fxp.Fix

inductive SessionState
  | connected
  | loggedOn
  | loggingOut
  | disconnected
deriving DecidableEq, Repr

def SessionState.isOpen : SessionState → Bool
  | .loggedOn | .loggingOut => true
  | .connected | .disconnected => false

/-- The result of an operation on an `int` of 64 bits. -/
def goInt (n : Int) : Int := n.bmod (2 ^ 64)

structure Violation where
  tag : Nat
  reason : Bytes
  text : Bytes

structure SessionKey where
  beginString : Bytes
  senderCompID : Bytes
  targetCompID : Bytes
deriving DecidableEq

inductive Event
  | persisted (n : Int)
  | reset (durable : Bool)
  | handled (seq : Int)
deriving DecidableEq, Repr

/-- The stores by session: the next inbound number in memory, whether a connection holds the session, and what
happened. -/
structure Registry where
  nextIn : SessionKey → Int := fun _ => 1
  active : SessionKey → Bool := fun _ => false
  events : List (SessionKey × Event) := []

namespace Registry

def eventsOf (r : Registry) (k : SessionKey) : List Event :=
  r.events.filterMap fun (k', e) => if k' = k then some e else none

def record (r : Registry) (k : SessionKey) (e : Event) : Registry := { r with events := r.events ++ [(k, e)] }

def setNextIn (r : Registry) (k : SessionKey) (n : Int) : Registry :=
  { r with nextIn := Function.update r.nextIn k n }

/-- `opens` is the error of opening a store. -/
def acquire (r : Registry) (opens : SessionKey → Option Bytes) (k : SessionKey) : Except Bytes Registry :=
  if r.active k then .error (text "session already logged on")
  else
    match opens k with
    | some err => .error err
    | none => .ok { r with active := Function.update r.active k true }

def release (r : Registry) (k : SessionKey) : Registry := { r with active := Function.update r.active k false }

end Registry

def durable (events : List Event) : Int :=
  events.foldl (fun n e => match e with
    | .persisted m => m
    | .reset true => 1
    | .reset false | .handled _ => n) 1

/-- What becomes of a number given to the store: it reaches memory and disk, only memory, or neither. -/
inductive Write
  | done
  | failed
  | refused
deriving DecidableEq, Repr

/-- What becomes of a message that is sent: it is queued, it is stored but not queued, or it cannot be stored. -/
inductive Send
  | queued
  | dropped
  | unsaved
deriving DecidableEq, Repr

/-- What `AdvanceEpoch` does: a reset that fails may have reached the numbers in memory and on the disk. -/
inductive Epoch
  | same
  | advanced
  | failed (memory disk : Bool)
  | refused
deriving DecidableEq

/-- The session schedule at the time of a call. -/
structure Calendar where
  contains : Bool
  epoch : Epoch

inductive Outbound
  | logonAck (heartBtInt : Int) (reset : Bool)
  | logout (reason : Bytes)
  | reject (refSeqNum : Int) (refTagID : Nat) (refMsgType reason text : Bytes)
  | heartbeat (testReqID : Bytes)
  | testRequest (testReqID : Bytes)
  | resendRequest («begin» : Int)
  | replay (request : Message)
  | application (b : Builder)
deriving DecidableEq

structure Env where
  senderCompID : Bytes
  authenticate : Bytes → Bytes → Bool := fun _ _ => true
  /-- The dictionary. -/
  validate : Message → Option Violation := fun _ => none
  /-- The verb `%q` of `fmt`. -/
  quote : Bytes → Bytes := fun v => 34 :: v ++ [34]
  /-- `parseFIXTime`. -/
  parseTime : Bytes → Option Int := fun _ => some 0
  now : Int := 0
  maxLatency : Int := 120
  schedule : Option Calendar := none
  supportsApplicationMessage : Bytes → Bool := fun _ => true
  prepareInbound : Message → Message := id
  resetOnLogon : Bool := false
  resetOnLogout : Bool := false
  resetOnDisconnect : Bool := false
  silentLogonFailures : Bool := false
  /-- Whether a session that waits for the Logout of its peer reads one. -/
  peerLogout : Bool := false
  opens : SessionKey → Option Bytes := fun _ => none
  /-- The text of a store that fails. -/
  storeError : Bytes := text "FIX store closed"
  /-- The results of the writes to the store, and of the sends. -/
  disk : Nat → Write := fun _ => .done
  sends : Nat → Send := fun _ => .queued

structure Session where
  state : SessionState := .connected
  /-- The connection is closed once. -/
  closed : Bool := false
  target : Bytes := []
  heartBtInt : Int := 30
  inSeqNum : Int := 1
  pending : Std.ExtTreeMap Int Message := ∅
  /-- The highest number covered by a pending ResendRequest, or zero. -/
  resendTo : Int := 0
  /-- The session that is held since Logon; before it the store is one of the connection, which nothing reads. -/
  regKey : Option SessionKey := none
  resetAtClose : Bool := false
  loggedOn : Bool := false
  writes : Nat := 0
  sent : Nat := 0
  out : List Outbound := []
  registry : Registry := {}

inductive Result
  | ok
  | eof
  | error (text : Bytes)
deriving DecidableEq

def validMsgType (t : Bytes) : Bool :=
  (t.length = 1 || t.length = 2) && t.all fun c => isDigit c || (65 ≤ c && c ≤ 90) || (97 ≤ c && c ≤ 122)

def failure (tag : Nat) (name reason txt : String) : Violation :=
  ⟨tag, text reason, text txt ++ text ": " ++ text name ++ text " (" ++ decimal tag ++ text ")"⟩

def identityField (m : Message) (tag : Nat) (name : String) : Option Violation :=
  match m.field? tag with
  | none => some (failure tag name "1" "Required tag missing")
  | some [] => some (failure tag name "4" "Tag specified without a value")
  | some (_ :: _) => none

def validateIdentity (m : Message) : Option Violation :=
  (identityField m 49 "SenderCompID").or (identityField m 56 "TargetCompID")

abbrev Rejection := Bytes × Bytes

namespace Env

variable (env : Env)

def validateSendingTime (msg : Message) : Option Rejection :=
  if env.maxLatency ≤ 0 then none
  else
    match env.parseTime (msg.get 52) with
    | none => some (text "6", text "SendingTime (52) is not a UTCTimestamp")
    | some sendingTime =>
      let latency := if env.now < sendingTime then sendingTime - env.now else env.now - sendingTime
      if env.maxLatency < latency then some (text "10", text "SendingTime (52) outside MaxLatency") else none

def checkPossDup (msg : Message) : Option Rejection :=
  let orig := msg.get 122
  if orig = [] then some (text "1", text "OrigSendingTime (122) required with PossDupFlag=Y")
  else
    match env.parseTime orig, env.parseTime (msg.get 52) with
    | some ot, some st =>
      if st < ot then some (text "10", text "OrigSendingTime later than SendingTime") else none
    | _, _ => some (text "6", text "OrigSendingTime/SendingTime not a UTCTimestamp")

def keyOf (msg : Message) : SessionKey := ⟨msg.get 8, env.senderCompID, msg.get 49⟩

end Env

namespace Session

def close (s : Session) : Session := if s.closed then s else { s with closed := true, state := .disconnected }

def withStore (f : Registry → SessionKey → Registry) (s : Session) : Session :=
  match s.regKey with
  | none => s
  | some k => { s with registry := f s.registry k }

def record (e : Event) (s : Session) : Session := s.withStore fun r k => r.record k e

def setNextIn (n : Int) (s : Session) : Session := s.withStore fun r k => r.setNextIn k n

/-- `Store.Save` also writes the next inbound number. -/
def save (s : Session) : Session := s.withStore fun r k => r.record k (.persisted (r.nextIn k))

def queue (o : Outbound) (s : Session) : Session := { s with out := s.out ++ [o] }

variable (env : Env)

/-- `SendWithSeq`: a message that cannot be stored or queued closes the session. -/
def send (o : Outbound) (s : Session) : Session :=
  let s' := { s with sent := s.sent + 1 }
  match env.sends s.sent with
  | .queued => s'.save.queue o
  | .dropped => s'.save.close
  | .unsaved => s'.close

def sendRejectRef (refSeq : Int) (refTagID : Nat) (refMsgType reason txt : Bytes) (s : Session) : Session :=
  s.send env (.reject refSeq refTagID refMsgType reason txt)

def sendReject (refSeq : Int) (reason txt : Bytes) (s : Session) : Session :=
  s.sendRejectRef env refSeq 0 [] reason txt

variable (msg : Message)

variable (seq : Int)

def sendPossDupReject (reason txt : Bytes) (s : Session) : Session :=
  s.sendRejectRef env seq (if reason = text "1" ∨ reason = text "6" then 122 else 0) msg.msgType reason txt

def rejectLogon (reason : Bytes) (s : Session) : Session × Result :=
  (if env.silentLogonFailures then s else s.send env (.logout reason), .eof)

variable (s : Session)

/-- The replay of stored messages is sent without new numbers. -/
def handleResendRequest : Session :=
  let s' := { s with sent := s.sent + 1 }
  if env.sends s.sent = .queued then s'.queue (.replay msg) else s'.close

def handleLogout : Session × Result :=
  let s := if env.resetOnLogout then { s with resetAtClose := true } else s
  (if s.state ≠ .loggingOut then { s with state := .loggingOut }.send env (.logout []) else s, .eof)

def sendLogout (reason : Bytes) (s : Session) : Session :=
  if s.state = .loggedOn then { s with state := .loggingOut }.send env (.logout reason) else s

/-- A session that ends by itself may wait for the Logout of its peer. -/
def finishFatal (reason : Bytes) (s : Session) : Session :=
  let s := s.sendLogout env reason
  if env.peerLogout then (s.handleLogout env).1 else s

/-- The result says whether the number could be persisted. -/
def setInSeq (n : Int) (s : Session) : Session × Bool :=
  let s' := { s with inSeqNum := n, pending := s.pending.filter fun seq _ => ¬ seq < n, writes := s.writes + 1 }
  match env.disk s.writes with
  | .done => ((s'.setNextIn n).record (.persisted n), true)
  | .failed => ((s'.setNextIn n).close, false)
  | .refused => (s'.close, false)

def resetStore : Session :=
  let s' := { s with writes := s.writes + 1 }
  match env.disk s.writes with
  | .done => (s'.setNextIn 1).record (.reset true)
  | .failed => (s'.setNextIn 1).record (.reset false)
  | .refused => s'.record (.reset false)

/-- A ResendRequest that is answered is no longer pending. -/
def clearResend : Session :=
  if s.resendTo ≠ 0 ∧ s.resendTo < s.inSeqNum then { s with resendTo := 0 } else s

/-- Moves the expected number past messages that need not be asked for. -/
def advance (n : Int) (s : Session) : Session × Bool :=
  match s.setInSeq env n with
  | (s, false) => (s, false)
  | (s, true) => (s.clearResend, true)

def requestResend : Session :=
  if s.resendTo ≠ 0 then { s with resendTo := if s.resendTo < seq then seq else s.resendTo }
  else { s with resendTo := seq }.send env (.resendRequest s.inSeqNum)

def applyNewSeqNo : Session :=
  let newSeq := msg.getInt 36
  if newSeq ≤ 0 then s.sendReject env seq (text "1") (text "NewSeqNo (36) missing")
  else if newSeq < s.inSeqNum then
    s.sendRejectRef env seq 0 (text "4") (text "5")
      (text "NewSeqNo " ++ itoa newSeq ++ text " lower than expected " ++ itoa s.inSeqNum)
  else (s.advance env newSeq).1

/-- Resets the store, which then expects the number `n`. -/
def restart (n : Int) (s : Session) : Session × Bool := (s.resetStore env).setInSeq env n

def handleInSessionReset : Session :=
  if seq ≠ 1 then s.sendReject env seq (text "5") (text "Logon with ResetSeqNumFlag=Y must have MsgSeqNum=1")
  else
    match { s with pending := ∅ }.restart env 2 with
    | (s, false) => s
    | (s, true) => { s with resendTo := 0 }.send env (.logonAck s.heartBtInt true)

def acquireStore (k : SessionKey) (s : Session) : Except Bytes Session := do
  let registry ← s.registry.acquire env.opens k
  .ok { s with registry, regKey := some k, inSeqNum := registry.nextIn k }

/-- The expected number becomes the one of the store. -/
def syncInSeq : Session :=
  match s.regKey with
  | none => s
  | some k => { s with inSeqNum := s.registry.nextIn k }

def advanceSchedule : Session × Option Bytes :=
  match env.schedule with
  | none => (s, none)
  | some ⟨_, .same⟩ => (s.syncInSeq, none)
  | some ⟨_, .advanced⟩ => (((s.setNextIn 1).record (.reset true)).syncInSeq, none)
  | some ⟨_, .failed memory disk⟩ => ((if memory then s.setNextIn 1 else s).record (.reset disk), some env.storeError)
  | some ⟨_, .refused⟩ => (s, some env.storeError)

/-- The end of a Logon that is accepted. -/
def acceptLogon (reset gap : Bool) (s : Session) : Session :=
  let heartBtInt := if 0 < msg.getInt 108 then msg.getInt 108 else s.heartBtInt
  let s := { s with target := msg.get 49, heartBtInt, state := .loggedOn }
  let s := s.send env (.logonAck heartBtInt reset)
  let s := if gap then s.requestResend env seq else s
  { s with loggedOn := true }

/-- A Logon whose session is held and whose store is in the current epoch. -/
def logonWithStore (reset : Bool) (s : Session) : Session × Result :=
  match if reset then s.restart env 1 else (s, true) with
  | (s, false) => (s, .error env.storeError)
  | (s, true) =>
    if seq < s.inSeqNum then
      s.rejectLogon env (text "MsgSeqNum too low, expecting " ++ itoa s.inSeqNum ++ text " but received " ++ itoa seq)
    else if s.inSeqNum < seq then (s.acceptLogon env msg seq reset true, .ok)
    else
      match s.setInSeq env (goInt (seq + 1)) with
      | (s, false) => (s, .error env.storeError)
      | (s, true) => (s.acceptLogon env msg seq reset false, .ok)

/-- The checks of a Logon: the text of its rejection. -/
def checkLogon : Option Bytes :=
  if msg.get 49 = [] then some (text "Logon missing SenderCompID (49)")
  else if msg.get 56 ≠ env.senderCompID then some (text "invalid TargetCompID (56)")
  else if ¬ env.authenticate (msg.get 49) (msg.get 554) then some (text "authentication failed")
  else
    match env.validateSendingTime msg with
    | some (_, txt) => some txt
    | none =>
      if (env.schedule.map (·.contains)) = some false then some (text "Logon outside configured session schedule")
      else if msg.get 8013 ≠ [] ∧ msg.get 8013 ≠ text "Y" ∧ msg.get 8013 ≠ text "N" then
        some (text "invalid CancelOnDisconnect (8013); expected Y or N")
      else none

def handleLogon : Session × Result :=
  match checkLogon env msg with
  | some reason => s.rejectLogon env reason
  | none =>
    match env.validate msg with
    | some v =>
      let s := if env.silentLogonFailures then s else s.send env (.reject seq v.tag msg.msgType v.reason v.text)
      s.rejectLogon env v.text
    | none =>
      let reset : Bool := msg.get 141 = text "Y" || env.resetOnLogon
      if reset ∧ seq ≠ 1 then s.rejectLogon env (text "ResetSeqNumFlag=Y requires MsgSeqNum=1")
      else
        match s.acquireStore env (env.keyOf msg) with
        | .error err => s.rejectLogon env err
        | .ok s =>
          match s.advanceSchedule env with
          | (s, some err) => (s, .error err)
          | (s, none) => s.logonWithStore env msg seq reset

/-- A rejection of a duplicate ends the session if the times are inconsistent. -/
def rejectPossDup (reason txt : Bytes) (s : Session) : Session × Result :=
  let s := s.sendPossDupReject env msg seq reason txt
  if reason = text "10" then (s.finishFatal env txt, .eof) else (s, .ok)

/-- A message with a number that was expected before. -/
def dispatchLow : Session × Result :=
  let possDup : Bool := msg.get 43 = text "Y"
  if msg.msgType = text "2" then
    match env.validate msg with
    | some v => (s.sendRejectRef env seq v.tag msg.msgType v.reason v.text, .ok)
    | none =>
      match env.validateSendingTime msg with
      | some (reason, txt) => (s.sendReject env seq reason txt, .ok)
      | none =>
        match if possDup then env.checkPossDup msg else none with
        | some (reason, txt) => s.rejectPossDup env msg seq reason txt
        | none => (s.handleResendRequest env msg, .ok)
  else if msg.msgType = text "5" then s.handleLogout env
  else if ¬ possDup then
    (s, .error (text "MsgSeqNum too low, expecting " ++ itoa s.inSeqNum ++ text " but received " ++ itoa seq))
  else
    match env.checkPossDup msg with
    | some (reason, txt) => s.rejectPossDup env msg seq reason txt
    | none => (s, .ok)

def bufferSize : Nat := (msg.tags.map fun f => f.value.length + 16).sum

def bufferFull : Bool :=
  64 ≤ s.pending.size || 256 * 1024 < (s.pending.toList.map fun (_, m) => bufferSize m).sum + bufferSize msg
    || 4096 < goInt (seq - s.inSeqNum)

/-- A message that comes too early. -/
def dispatchHigh : Session × Result :=
  if msg.msgType = text "2" then ((s.handleResendRequest env msg).requestResend env seq, .ok)
  else if msg.msgType = text "5" then s.handleLogout env
  else if s.bufferFull msg seq then (s, .error (text "replay buffer limit exceeded"))
  else ({ s with pending := s.pending.insertIfNew seq msg }.requestResend env seq, .ok)

/-- A message with the expected number, which is consumed; its type was read before the handler prepared it. -/
def process (msgType : Bytes) (msg : Message) (seq : Int) (s : Session) : Session × Result :=
  match env.validate msg with
  | some v => (s.sendRejectRef env seq v.tag msgType v.reason v.text, .ok)
  | none =>
    if msgType = text "A" then (s, .ok)
    else if msgType = text "5" then s.handleLogout env
    else if msgType = text "0" then (s, .ok)
    else if msgType = text "1" then (s.send env (.heartbeat (msg.get 112)), .ok)
    else if msgType = text "2" then (s.handleResendRequest env msg, .ok)
    else if msgType = text "3" then (s, .ok)
    else if msgType = text "4" then (s.applyNewSeqNo env msg seq, .ok)
    else (s.record (.handled seq), .ok)

def checkConsumed : Session × Result :=
  match if msg.get 43 = text "Y" then env.checkPossDup msg else none with
  | some (reason, txt) => s.rejectPossDup env msg seq reason txt
  | none =>
    if msg.get 52 = [] then (s.sendReject env seq (text "1") (text "SendingTime (52) missing"), .ok)
    else
      match env.validateSendingTime msg with
      | some (reason, txt) =>
        let s := s.sendRejectRef env seq 0 msg.msgType reason txt
        if reason = text "10" then (s.finishFatal env txt, .eof) else (s, .ok)
      | none =>
        if ¬ validMsgType msg.msgType then
          (s.sendRejectRef env seq 0 msg.msgType (text "11") (text "invalid MsgType " ++ env.quote msg.msgType), .ok)
        else if ¬ isAdminMsgType msg.msgType ∧ ¬ env.supportsApplicationMessage msg.msgType then
          (s.record (.handled seq), .ok)
        else s.process env msg.msgType (env.prepareInbound msg) seq

def dispatchExpected : Session × Result :=
  match s.advance env (goInt (s.inSeqNum + 1)) with
  | (s, false) => (s, .error env.storeError)
  | (s, true) => s.checkConsumed env msg seq

/-- A message without the identity of the session is consumed if it is expected. -/
def rejectIdentity (v : Violation) (s : Session) : Session × Result :=
  match if seq = s.inSeqNum then s.setInSeq env (goInt (seq + 1)) else (s, true) with
  | (s, false) => (s, .error env.storeError)
  | (s, true) => (s.sendRejectRef env seq v.tag msg.msgType v.reason v.text, .ok)

/-- SequenceReset-Reset, which ignores MsgSeqNum. -/
def isReset : Bool := msg.msgType = text "4" && msg.get 123 ≠ text "Y"

/-- Logon(141=Y), which ignores MsgSeqNum. -/
def isLogonReset : Bool := msg.msgType = text "A" && msg.get 141 = text "Y"

/-- A message of a session that is logged on. -/
def dispatchOpen : Session × Result :=
  match validateIdentity msg with
  | some v => s.rejectIdentity env msg seq v
  | none =>
    if msg.get 49 ≠ s.target ∨ msg.get 56 ≠ env.senderCompID then
      (s.sendRejectRef env seq 0 msg.msgType (text "9") (text "CompID problem"),
        .error (text "CompID problem: 49=" ++ env.quote (msg.get 49) ++ text " 56=" ++ env.quote (msg.get 56)))
    else if isReset msg then
      match env.validate msg with
      | some v => (s.sendRejectRef env seq v.tag msg.msgType v.reason v.text, .ok)
      | none => (s.applyNewSeqNo env msg seq, .ok)
    else if isLogonReset msg then (s.handleInSessionReset env seq, .ok)
    else if seq < s.inSeqNum then s.dispatchLow env msg seq
    else if s.inSeqNum < seq then s.dispatchHigh env msg seq
    else s.dispatchExpected env msg seq

/-- The number of a message; SequenceReset-Reset may have the number zero. -/
def msgSeqNum : Option Int :=
  (atoi (msg.get 34)).filter fun seq => 0 < seq ∨ (s.state.isOpen ∧ isReset msg ∧ seq = 0)

def dispatchOne : Session × Result :=
  match s.msgSeqNum msg with
  | none =>
    if s.state.isOpen then (s, .error (text "missing or invalid MsgSeqNum (34)"))
    else s.rejectLogon env (text "missing or invalid MsgSeqNum (34)")
  | some seq =>
    if s.state.isOpen then s.dispatchOpen env msg seq
    else if msg.msgType ≠ text "A" then
      s.rejectLogon env (text "first message must be Logon, got 35=" ++ msg.msgType)
    else s.handleLogon env msg seq

/-- Takes the message that was waiting for the one before it. -/
def drainStep : Session × Result → Option (Session × Result)
  | (s, .ok) =>
    (s.pending[s.inSeqNum]?).map fun next => { s with pending := s.pending.erase s.inSeqNum }.dispatchOne env next
  | (_, _) => none

def dispatch : Session × Result :=
  let r := s.dispatchOne env msg
  Loop.run (drainStep env) (r.1.pending.size + 1) r

/-- What `readLoop` does with one frame; the result says whether it goes on. -/
def read (frame : Except ParseError Message) (s : Session) : Session × Bool :=
  match frame with
  | .error (.beginString msg) =>
    let reason := text "unsupported BeginString " ++ env.quote (msg.get 8)
    (if s.state.isOpen then s.finishFatal env reason else (s.rejectLogon env reason).1, false)
  | .error .garbled => (s, true)
  | .error .eof => (s, false)
  | .ok msg =>
    match s.dispatch env msg with
    | (s, .ok) => (s, true)
    | (s, .eof) => (s, false)
    | (s, .error txt) => (s.finishFatal env txt, false)

def logout (reason : Bytes) (s : Session) : Session :=
  let s := if env.resetOnLogout then { s with resetAtClose := true } else s
  s.sendLogout env reason

/-- `CheckSchedule` when the schedule has ended or a reset is due. -/
def endOfSchedule : Session :=
  if s.state = .loggedOn then
    ({ s with resetAtClose := true }.logout env (text "session schedule ended; sequence numbers reset")).close
  else s

/-- The reset of a session that ends. -/
def resetOnRelease : Session :=
  if s.loggedOn ∧ (s.resetAtClose ∨ env.resetOnDisconnect) then
    match if env.schedule.isSome ∧ s.resetAtClose then s.advanceSchedule env else (s, none) with
    | (s, some _) => s
    | (s, none) => { s.resetStore env with inSeqNum := 1, resendTo := 0 }
  else s

def releaseStore : Registry :=
  let s := (s.resetOnRelease env).close
  match s.regKey with
  | none => s.registry
  | some k => s.registry.release k

end Session

/-- A process with its connections; `reading` connections still take frames. -/
structure World where
  registry : Registry := {}
  conns : Nat → Option Session := fun _ => none
  reading : Nat → Bool := fun _ => false

/-- What happens in the process: to connection `i`, or to all of it. -/
inductive Action
  | connect (i : Nat)
  | frame (i : Nat) (env : Env) (frame : Except ParseError Message)
  | send (i : Nat) (env : Env) (o : Outbound)
  | logout (i : Nat) (env : Env) (reason : Bytes)
  | endOfSchedule (i : Nat) (env : Env)
  | close (i : Nat)
  | disconnect (i : Nat) (env : Env)

/-- An action, or a kill after `written` of its events; an unfinished reset is finished when the store is opened. -/
inductive Move
  | act (a : Action)
  | kill (during : Action) (written : Nat) (resets : List SessionKey)

namespace World

def update (i : Nat) (f : Session → Session × Bool) (w : World) : World :=
  match w.conns i with
  | none => w
  | some s =>
    let r := f { s with registry := w.registry }
    { registry := r.1.registry
      conns := Function.update w.conns i (some r.1)
      reading := Function.update w.reading i r.2 }

def act (a : Action) (w : World) : World :=
  match a with
  | .connect i =>
    match w.conns i with
    | none => { w with conns := Function.update w.conns i (some {}), reading := Function.update w.reading i true }
    | some _ => w
  | .frame i env frame => if w.reading i then w.update i fun s => s.read env frame else w
  | .send i env o => w.update i fun s => (s.send env o, w.reading i)
  | .logout i env reason => w.update i fun s => (s.logout env reason, w.reading i)
  | .endOfSchedule i env => w.update i fun s => (s.endOfSchedule env, w.reading i)
  | .close i => w.update i fun s => (s.close, w.reading i)
  | .disconnect i env =>
    match w.conns i with
    | none => w
    | some s =>
      { registry := { s with registry := w.registry }.releaseStore env
        conns := Function.update w.conns i none
        reading := Function.update w.reading i false }

/-- A process that starts with what is on the disk. -/
def boot (events : List (SessionKey × Event)) : World :=
  let r : Registry := { events }
  { registry := { r with nextIn := fun k => durable (r.eventsOf k) } }

def move (w : World) : Move → World
  | .act a => w.act a
  | .kill during written resets =>
    let events := (w.act during).registry.events.take (w.registry.events.length + written)
    boot (events ++ resets.map fun k => (k, .reset true))

/-- The bridge after a sequence of moves, from the first start on. -/
def after (moves : List Move) : World := moves.foldl move {}

end World

end Fxp.Fix
