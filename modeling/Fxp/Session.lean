import Mathlib

/-!
# Time and the trading session

Instants, the daily schedule with its next boundary, and the instant at which a good-till-date order expires.
-/

namespace Fxp

structure Time where
  seconds : Int
  nanos : Int
deriving DecidableEq, Repr

namespace Time

instance : LT Time := ⟨fun a b => a.seconds < b.seconds ∨ (a.seconds = b.seconds ∧ a.nanos < b.nanos)⟩

instance : LE Time := ⟨fun a b => a.seconds < b.seconds ∨ (a.seconds = b.seconds ∧ a.nanos ≤ b.nanos)⟩

instance (a b : Time) : Decidable (a < b) :=
  inferInstanceAs (Decidable (a.seconds < b.seconds ∨ (a.seconds = b.seconds ∧ a.nanos < b.nanos)))

instance (a b : Time) : Decidable (a ≤ b) :=
  inferInstanceAs (Decidable (a.seconds < b.seconds ∨ (a.seconds = b.seconds ∧ a.nanos ≤ b.nanos)))

/-- Unsigned 64-bit milliseconds. -/
def asMillis (t : Time) : Nat :=
  ((t.seconds % 2 ^ 64).toNat * 1000 + (t.nanos % 2 ^ 64).toNat / 1000000) % 2 ^ 64

def ofSeconds (seconds : Int) : Time := { seconds := seconds, nanos := 0 }

end Time

inductive TradingPhase
  | closed
  | openingCall
  | continuous
  | closingCall
deriving DecidableEq, Repr

def isCall : TradingPhase → Bool
  | .openingCall | .closingCall => true
  | .continuous | .closed => false

inductive Boundary
  | openCall
  | open
  | closeCall
  | close
deriving DecidableEq, Repr

structure UtcTimeOfDay where
  seconds : Nat
  inDay : seconds < 86400
deriving DecidableEq

structure SessionSchedule where
  openCall : Option UtcTimeOfDay
  «open» : Option UtcTimeOfDay
  closeCall : Option UtcTimeOfDay
  close : UtcTimeOfDay
deriving DecidableEq

namespace SessionSchedule

def isFull (s : SessionSchedule) : Bool := s.openCall.isSome && s.open.isSome && s.closeCall.isSome

def phase (s : SessionSchedule) (now : Int) : TradingPhase :=
  match s.openCall, s.open, s.closeCall with
  | some openCall, some opening, some closeCall =>
    let time := (now % 86400).toNat
    if openCall.seconds ≤ time ∧ time < opening.seconds then .openingCall
    else if opening.seconds ≤ time ∧ time < closeCall.seconds then .continuous
    else if closeCall.seconds ≤ time ∧ time < s.close.seconds then .closingCall
    else .closed
  | _, _, _ => .continuous

/-- The first instant after `after` with this time of day. -/
def nextAt (after : Int) (time : UtcTimeOfDay) : Int :=
  let instant := after / 86400 * 86400 + time.seconds
  if instant ≤ after then instant + 86400 else instant

/-- The earlier of two boundaries; the first one when they coincide. -/
def earlier (a b : Int × Boundary) : Int × Boundary := if b.1 < a.1 then b else a

/-- The times of day of the schedule before the close, in the order of the source. -/
def callTimes (s : SessionSchedule) : List (UtcTimeOfDay × Boundary) :=
  [(s.openCall, Boundary.openCall), (s.open, .open), (s.closeCall, .closeCall)].filterMap fun e =>
    e.1.map fun time => (time, e.2)

def nextBoundary (s : SessionSchedule) (after : Int) : Int × Boundary :=
  (s.callTimes.map fun e => (nextAt after e.1, e.2)).foldr earlier (nextAt after s.close, .close)

end SessionSchedule

def isAsciiDigit (c : UInt8) : Bool := 48 ≤ c.toNat && c.toNat ≤ 57

def parseDigits (l : List UInt8) : Int := l.foldl (fun n c => n * 10 + (c.toNat - 48 : Nat)) 0

/-- The number of days of a month, `none` for a month that does not exist. -/
def daysOfMonth (year month : Int) : Option Int :=
  let leap := year % 4 = 0 ∧ (year % 100 ≠ 0 ∨ year % 400 = 0)
  if month = 2 then some (if leap then 29 else 28)
  else if month = 4 ∨ month = 6 ∨ month = 9 ∨ month = 11 then some 30
  else if 1 ≤ month ∧ month ≤ 12 then some 31
  else none

/-- Days since 1970-01-01 of a Gregorian date, by March-based eras. -/
def civilDays (year month day : Int) : Int :=
  let y := year - if month ≤ 2 then 1 else 0
  let era := y / 400
  let yoe := y - era * 400
  let m := month + if 2 < month then -3 else 9
  let doy := (153 * m + 2) / 5 + day - 1
  let doe := yoe * 365 + yoe / 4 - yoe / 100 + doy
  era * 146097 + doe - 719468

/-- The second at which an order good till `date` (`YYYY-MM-DD`) expires: the end of that day. -/
def expiryInstant (date : String) : Except String Int :=
  let bytes := date.toUTF8.toList
  if bytes.length ≠ 10 ∨ bytes[4]? ≠ some 45 ∨ bytes[7]? ≠ some 45 ∨
      !(bytes.take 4 ++ (bytes.drop 5).take 2 ++ bytes.drop 8).all isAsciiDigit then
    .error "expire_date must be YYYY-MM-DD"
  else
    let year := parseDigits (bytes.take 4)
    let month := parseDigits ((bytes.drop 5).take 2)
    let day := parseDigits (bytes.drop 8)
    match daysOfMonth year month with
    | none => .error "invalid expire_date month"
    | some days =>
      if year = 0 ∨ day < 1 ∨ days < day then .error "invalid expire_date"
      else .ok ((civilDays year month day + 1) * 86400)

end Fxp
