import Fxp.Engine
import Fxp.Lib.Codes
import Fxp.Lib.Storage

/-!
# The event log

Every input of the engines is a record of one file, in the order they were handled. A record is stored as a frame: the
length of its body, the body and a checksum.
-/

namespace Fxp

open Storage

structure Record where
  seq : Nat
  seconds : Int
  nanos : Int
  symbol : String
  kind : Nat
  payload : List UInt8
deriving DecidableEq

structure Prost where
  record : Codec Record
  newOrderSingle : Codec NewOrderSingle
  orderCancelRequest : Codec OrderCancelRequest
  orderCancelReplaceRequest : Codec OrderCancelReplaceRequest
  orderMassCancelRequest : Codec OrderMassCancelRequest
  sessionControl : Codec SessionControl

inductive Input
  | new (m : NewOrderSingle)
  | cancel (m : OrderCancelRequest)
  | replace (m : OrderCancelReplaceRequest)
  | tick
  | subscribe
  | massCancel (m : OrderMassCancelRequest)
  | sessionControl (m : SessionControl)

def Input.encode (p : Prost) : Input → Nat × List UInt8
  | .new m => (1, p.newOrderSingle.encode m)
  | .cancel m => (2, p.orderCancelRequest.encode m)
  | .replace m => (3, p.orderCancelReplaceRequest.encode m)
  | .tick => (4, [])
  | .subscribe => (5, [])
  | .massCancel m => (6, p.orderMassCancelRequest.encode m)
  | .sessionControl m => (7, p.sessionControl.encode m)

inductive LogError
  | invalidData (message : String)
  | other (message : String)
  | write
  | sync
deriving DecidableEq

def magic : List UInt8 := "FXPEVL01".toUTF8.toList

def maxRecord : Nat := 4 * 1024 * 1024

def crc32 (bytes : List UInt8) : UInt32 :=
  let round (crc : UInt32) : UInt32 := (crc >>> 1) ^^^ (0xedb88320 &&& (0 - (crc &&& 1)))
  ~~~ bytes.foldl (fun crc byte => Nat.repeat round 8 (crc ^^^ byte.toUInt32)) (~~~ 0)

/-- The four bytes of a 32-bit number, highest first. -/
def toBeBytes (n : Nat) : List UInt8 :=
  [.ofNat (n / 2 ^ 24), .ofNat (n / 2 ^ 16), .ofNat (n / 2 ^ 8), .ofNat n]

def fromBeBytes (bytes : List UInt8) : Nat := bytes.foldl (fun n byte => n * 256 + byte.toNat) 0

def sealed (body : List UInt8) : List UInt8 :=
  let bytes := toBeBytes body.length ++ body
  bytes ++ toBeBytes (crc32 bytes).toNat

def frame (p : Prost) (record : Record) : Except LogError (List UInt8) :=
  let body := p.record.encode record
  if body = [] ∨ maxRecord < body.length then .error (.invalidData "event record exceeds size limit")
  else .ok (sealed body)

/-- The next record, and `none` if it is torn or corrupt. -/
def readFrame (p : Prost) (file : File) : Option Record × File :=
  match file.readExact 4 with
  | (none, file) => (none, file)
  | (some length, file) =>
    let len := fromBeBytes length
    if len = 0 ∨ maxRecord < len then (none, file)
    else
      match file.readExact (len + 4) with
      | (none, file) => (none, file)
      | (some bytes, file) =>
        let expected := fromBeBytes (bytes.drop len)
        let bytes := bytes.take len
        if (crc32 (length ++ bytes)).toNat ≠ expected then (none, file) else (p.record.decode bytes, file)

abbrev SymbolConfig := HashMap SymbolRules

namespace SymbolConfig

def get (config : SymbolConfig) (symbol : String) : SymbolRules := config[symbol]?.getD {}

def canonical (config : SymbolConfig) : String :=
  String.join (config.toList.map fun (s, r) =>
    s!"{s},{r.priceScale},{r.tickSize},{r.lotSize},{r.minQuantity},{r.maxQuantity}\n")

end SymbolConfig

/-- How a schedule is printed into the header of a log. -/
def SessionSchedule.debug (schedule : Option SessionSchedule) : String :=
  let time (t : UtcTimeOfDay) : String := "UtcTimeOfDay \x7b seconds: " ++ toString t.seconds ++ " \x7d"
  let some? (t : Option UtcTimeOfDay) : String := t.elim "None" fun t => "Some(" ++ time t ++ ")"
  schedule.elim "None" fun s =>
    "Some(SessionSchedule \x7b open_call: " ++ some? s.openCall ++ ", open: " ++ some? s.open ++ ", close_call: "
      ++ some? s.closeCall ++ ", close: " ++ time s.close ++ " \x7d)"

structure Configuration where
  schedule : Option SessionSchedule
  stpDefault : StpMode := .none
  symbolConfig : SymbolConfig := ∅

/-- The header of a log: a log is only read with the configuration it was written with. -/
def Configuration.record (cfg : Configuration) : Record :=
  let stp := if cfg.stpDefault = .none then "" else ";stp_default=" ++ cfg.stpDefault.asStr
  let symbolText := cfg.symbolConfig.canonical
  let symbolSuffix := if symbolText = "" then "" else ";symbols=" ++ symbolText
  let text := "engine-input-v1;schedule=" ++ SessionSchedule.debug cfg.schedule ++ stp ++ symbolSuffix
  { seq := 0, seconds := 0, nanos := 0, symbol := "", kind := 0, payload := text.toUTF8.toList }

structure EventLog where
  file : File
  nextSeq : Nat
  failed : Bool
deriving DecidableEq

def nextSeqOf (seq : Nat) : Except LogError Nat :=
  if seq + 1 < 2 ^ 64 then .ok (seq + 1) else .error (.invalidData "event sequence exhausted")

/-- How the operating system answers a write and the sync after it: the write may fail after some bytes. -/
structure Disk where
  written : Option Nat := none
  synced : Bool := true

namespace EventLog

variable (p : Prost) (cfg : Configuration)

/-- The loop of `openConfigured` over the records of a file of length `len`; `good` is the end of the last one. -/
def scan (len : Nat) : Nat → File → Nat → Nat → List Record → Except LogError (EventLog × List Record)
  | 0, file, good, nextSeq, records => .ok ({ file := file.seek good, nextSeq, failed := false }, records)
  | fuel + 1, file, good, nextSeq, records =>
    if good < len then
      match readFrame p file with
      | (none, file) => .ok ({ file := (file.setLen good).seek good, nextSeq, failed := false }, records)
      | (some record, file) =>
        if record.seq ≠ nextSeq then .error (.invalidData "event log sequence gap")
        else do
          let nextSeq ← nextSeqOf nextSeq
          scan len fuel file file.pos nextSeq (records ++ [record])
    else .ok ({ file := file.seek good, nextSeq, failed := false }, records)

/-- `openConfigured` from where the file is read. -/
def load (file : File) : Except LogError (EventLog × List Record) :=
  match (file.seek 0).readExact 8 with
  | (none, _) => .error (.invalidData "invalid event log magic/version")
  | (some m, file) =>
    if m ≠ magic then .error (.invalidData "invalid event log magic/version")
    else
      let (header, file) := readFrame p file
      if header ≠ some cfg.record then
        .error (.invalidData "event log configuration/version mismatch or corrupt header")
      else scan p file.bytes.length file.bytes.length file file.pos 1 []

/-- Opens the log in a file with the contents `bytes`; an empty file gets a header. -/
def openConfigured (bytes : List UInt8) : Except LogError (EventLog × List Record) :=
  let file : File := { bytes }
  if bytes.length = 0 then do
    let header ← frame p cfg.record
    load p cfg ((file.write magic).write header)
  else load p cfg file

def record (log : EventLog) (symbol : String) («at» : Time) (input : Input) : Record :=
  let (kind, payload) := input.encode p
  { seq := log.nextSeq, seconds := «at».seconds, nanos := «at».nanos, symbol, kind, payload }

def append (disk : Disk) (symbol : String) («at» : Time) (input : Input) (log : EventLog) :
    Except LogError Unit × EventLog :=
  if log.failed then (.error (.other "event log is failed; restart required"), log)
  else
    match frame p (log.record p symbol «at» input), nextSeqOf log.nextSeq with
    | .error e, _ => (.error e, log)
    | .ok _, .error e => (.error e, log)
    | .ok bytes, .ok nextSeq =>
      match disk with
      | { written := some n, .. } =>
        (.error .write, { log with file := log.file.write (bytes.take n), failed := true })
      | { written := none, synced := false } =>
        (.error .sync, { log with file := log.file.write bytes, failed := true })
      | { written := none, synced := true } => (.ok (), { log with file := log.file.write bytes, nextSeq })

end EventLog

end Fxp
