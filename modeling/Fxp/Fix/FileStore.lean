import Fxp.Fix.Codec
import Fxp.Lib.Durable
import Fxp.Lib.Loop
import Fxp.Lib.Maps
import Fxp.Recovery

/-!
# The store of a FIX session

A store keeps the frames that a session has sent and its two sequence numbers. `MemoryStore` keeps them in memory;
`FileStore` appends every frame to a log and replaces a small file with the numbers at every change.
-/

namespace Fxp.Fix

open Durable

structure MemoryStore where
  msgs : Std.ExtTreeMap Int Bytes := ∅
  nextIn : Int := 1
  nextOut : Int := 1

namespace MemoryStore

def save (seq : Int) (frame : Bytes) (m : MemoryStore) : MemoryStore :=
  { m with msgs := m.msgs.insert seq frame, nextOut := seq + 1 }

def get (seq : Int) (m : MemoryStore) : Option Bytes := m.msgs[seq]?

def setNextInSeq (n : Int) (m : MemoryStore) : MemoryStore := { m with nextIn := n }

def seqNums (m : MemoryStore) : Int × Int := (m.nextIn, m.nextOut)

end MemoryStore

inductive Path
  | outboundLog
  | seqNums
  | epoch
  | resetPending
  | archive (epoch : Int) (file : Path)
  | tmp (file : Path)
deriving DecidableEq

inductive FsyncMode
  | strict
  | group
  | async
deriving DecidableEq

structure FileStoreOptions where
  fsync : FsyncMode := .strict
  maxMessages : Int := 0

def recordHeaderLen : Nat := 16

def maxRecordLen : Nat := 16 * 2 ^ 20

def defaultMaxMessages : Int := 100000

/-- Where the bytes of a frame are in the log. -/
structure RecordLoc where
  off : Nat
  n : Nat
deriving DecidableEq

abbrev Index := Std.ExtTreeMap Int RecordLoc

structure FileStore where
  dir : String
  opts : FileStoreOptions
  index : Index := ∅
  nextIn : Int := 1
  nextOut : Int := 1
  closed : Bool := false
  /-- A write failed in a way that cannot be undone. -/
  failed : Option String := none

def putUint64 (n : Int) : Bytes :=
  let u := (n % 2 ^ 64).toNat
  toBeBytes (u / 2 ^ 32) ++ toBeBytes u

def recordCRC (seq frame : Bytes) : UInt32 := crc32 (seq ++ frame)

/-- A record: the length of the frame, the checksum, the number and the frame. -/
def encodeRecord (seq : Int) (frame : Bytes) : Bytes :=
  toBeBytes frame.length ++ toBeBytes (recordCRC (putUint64 seq) frame).toNat ++ putUint64 seq ++ frame

/-- What reading the log has found so far. -/
structure Recovered where
  index : Index := ∅
  maxSeq : Int := 0
  off : Nat := 0

def Recovered.add (r : Recovered) (seq : Int) (n : Nat) : Recovered :=
  { index := r.index.insert seq ⟨r.off + recordHeaderLen, n⟩
    maxSeq := max r.maxSeq seq
    off := r.off + (recordHeaderLen + n) }

/-- Reads the next record, if it is whole. -/
def recoverStep : Bytes × Recovered → Option (Bytes × Recovered)
  | (b, r) =>
    if b.length < recordHeaderLen then none
    else
      let n := fromBeBytes (b.take 4)
      if n > maxRecordLen then none
      else
        let frame := (b.drop recordHeaderLen).take n
        if frame.length < n then none
        else if (recordCRC ((b.drop 8).take 8) frame).toNat ≠ fromBeBytes ((b.drop 4).take 4) then none
        else
          let seq := (fromBeBytes ((b.drop 8).take 8) : Int).bmod (2 ^ 64)
          some (b.drop (recordHeaderLen + n), r.add seq n)

def scanLog (b : Bytes) : Recovered := (Loop.run recoverStep (b.length + 1) (b, {})).2

def isSpace (b : UInt8) : Bool := b = 32 || (9 ≤ b && b ≤ 13)

def trimSpace (s : Bytes) : Bytes := ((s.dropWhile isSpace).reverse.dropWhile isSpace).reverse

/-- The spaces that `fmt.Sscanf` skips: a line ends the input. -/
def isBlank (b : UInt8) : Bool := isSpace b && b ≠ 10

/-- The verb `%d` of `fmt.Sscanf`: a number, and what is behind it. -/
def scanInt (s : Bytes) : Option (Int × Bytes) :=
  let s := s.dropWhile isBlank
  let start := if s.head? = some 45 ∨ s.head? = some 43 then s.take 1 else []
  let digits := (s.drop start.length).takeWhile isDigit
  (atoi (start ++ digits)).map fun n => (n, s.drop (start.length + digits.length))

/-- `fmt.Sscanf` with `%d %d`. -/
def scanSeqNums (s : Bytes) : Option (Int × Int) := do
  let (nextIn, s) ← scanInt s
  -- the space of the format stands for at least one
  if s.head?.any isBlank then
    let (nextOut, _) ← scanInt s
    some (nextIn, nextOut)
  else none

def seqNumsText (nextIn nextOut : Int) : Bytes := itoa nextIn ++ 32 :: itoa nextOut ++ [10]

def writeTmp (path : Path) (data : Bytes) : Attempt Path Unit := do
  let _ ← Attempt.op (.create (.tmp path))
  let _ ← Attempt.op (.append (.tmp path) data)
  let _ ← Attempt.op .sync

/-- Writes a new file and puts it in the place of the old one. -/
def durableFile (path : Path) (data : Bytes) : Attempt Path Unit := do
  writeTmp path data
  let _ ← Attempt.op (.rename (.tmp path) path)
  let _ ← Attempt.op .sync

namespace FileStore

variable (fs : FileStore)

/-- The beginning of all messages of a store. -/
def prefixed (e : String) : String := "FIX store " ++ fs.dir ++ ": " ++ e

def writeSeqNums : Attempt Path Unit := do
  writeTmp .seqNums (seqNumsText fs.nextIn fs.nextOut)
  let _ ← Attempt.op (.rename (.tmp .seqNums) .seqNums)

/-- The error of writing the numbers, if there is one. -/
def writeSeqNumsLocked : Prog Path (Option String) := do
  match ← fs.writeSeqNums.run with
  | .error e => .ret (some (fs.prefixed ("write seqnums: " ++ e)))
  | .ok _ => .ret none

/-- An error of `fsync` leaves the state of the file unknown. -/
def syncLocked : Prog Path (Option String × FileStore) := do
  if fs.opts.fsync = .strict then
    match ← Prog.op .sync with
    | .error e =>
      let err := fs.prefixed ("fsync: " ++ e)
      .ret (some err, { fs with failed := some err })
    | .ok _ => .ret (none, fs)
  else .ret (none, fs)

/-- Writes a record and says where the frame is; the rest of a record that could not be written is cut off. -/
def appendLocked (f : Path) (seq : Int) (frame : Bytes) (fs : FileStore) :
    Prog Path (Except String Nat × FileStore) := do
  match ← Prog.op (.read f) with
  | .error e => .ret (.error e, fs)
  | .ok b =>
    let size := (b.getD []).length
    match ← Prog.op (.append f (encodeRecord seq frame)) with
    | .ok _ => .ret (.ok (size + recordHeaderLen), fs)
    | .error e =>
      match ← Prog.op (.truncate f size) with
      | .ok _ => .ret (.error e, fs)
      | .error terr =>
        if f = .outboundLog then
          .ret (.error e, { fs with failed := some (fs.prefixed ("partial record left in outbound.log: " ++ terr)) })
        else .ret (.error e, fs)

def readLocked (seq : Int) (fs : FileStore) : Prog Path (Option Bytes) := do
  match fs.index[seq]? with
  | none => .ret none
  | some loc =>
    match ← Prog.op (.read .outboundLog) with
    | .error _ => .ret none
    | .ok b =>
      let frame := ((b.getD []).drop loc.off).take loc.n
      .ret (if frame.length < loc.n then none else some frame)

/-- The loop of `compactLocked`: writes the frames with the given numbers to the new log. -/
def compactFrom (fs : FileStore) : List Int → Index → Prog Path (Option Index)
  | [], index => .ret (some index)
  | seq :: rest, index => do
    match ← fs.readLocked seq with
    | none => fs.compactFrom rest index
    | some frame =>
      match ← fs.appendLocked (.tmp .outboundLog) seq frame with
      | (.error _, _) => .ret none
      | (.ok off, _) => fs.compactFrom rest (index.insert seq ⟨off, frame.length⟩)

def kept : List Int :=
  (List.range fs.opts.maxMessages.toNat).map fun i : Nat => fs.nextOut - fs.opts.maxMessages + i

/-- Rewrites the log with the newest records; the old log stays when that fails. -/
def compactLocked : Prog Path FileStore := do
  match ← Prog.op (.create (.tmp .outboundLog)) with
  | .error _ => .ret fs
  | .ok _ =>
    match ← fs.compactFrom fs.kept ∅ with
    | none => .ret fs
    | some index =>
      match ← Prog.op .sync with
      | .error _ => .ret fs
      | .ok _ =>
        match ← Prog.op (.rename (.tmp .outboundLog) .outboundLog) with
        | .error _ => .ret fs
        | .ok _ => .ret { fs with index }

def writableLocked : Option String := if fs.closed then some "FIX store closed" else fs.failed

/-- `Save` behind the append: the numbers are written, and the log is compacted. -/
def finishSave : Prog Path (Option String × FileStore) := do
  match ← fs.syncLocked with
  | (some e, fs) => .ret (some e, fs)
  | (none, fs) =>
    match ← fs.writeSeqNumsLocked with
    | some e => .ret (some e, fs)
    | none =>
      if 2 * fs.opts.maxMessages ≤ fs.index.size then do
        let fs ← fs.compactLocked
        .ret (none, fs)
      else .ret (none, fs)

def save (seq : Int) (frame : Bytes) (fs : FileStore) : Prog Path (Option String × FileStore) := do
  match fs.writableLocked with
  | some e => .ret (some e, fs)
  | none =>
    match ← fs.appendLocked .outboundLog seq frame with
    | (.error e, fs) => .ret (some (fs.prefixed ("append seq " ++ toString seq ++ ": " ++ e)), fs)
    | (.ok off, fs) =>
      finishSave { fs with index := fs.index.insert seq ⟨off, frame.length⟩, nextOut := seq + 1 }

def get (seq : Int) (fs : FileStore) : Prog Path (Option Bytes) :=
  if fs.closed || seq < fs.nextOut - fs.opts.maxMessages then .ret none else fs.readLocked seq

def setNextInSeq (n : Int) (fs : FileStore) : Prog Path (Option String × FileStore) := do
  match fs.writableLocked with
  | some e => .ret (some e, fs)
  | none =>
    let fs := { fs with nextIn := n }
    let err ← fs.writeSeqNumsLocked
    .ret (err, fs)

def seqNums : Int × Int := (fs.nextIn, fs.nextOut)

/-- All errors of a reset are only logged. -/
def reset : Prog Path FileStore := do
  if fs.closed then .ret fs
  else
    let _ ← Prog.op (.truncate .outboundLog 0)
    let (_, fs) ← syncLocked { fs with index := ∅, nextIn := 1, nextOut := 1 }
    let _ ← fs.writeSeqNumsLocked
    .ret fs

/-- The reset itself, which is done again when the store is opened after a crash. -/
def finishEpochReset (epoch : Int) (fs : FileStore) : Prog Path (Option String × FileStore) := do
  match ← (do let _ ← Attempt.op (.truncate .outboundLog 0); let _ ← Attempt.op .sync : Attempt Path Unit).run with
  | .error e => .ret (some e, fs)
  | .ok _ =>
    let fs := { fs with index := ∅, nextIn := 1, nextOut := 1 }
    let rest : Attempt Path Unit := do
      durableFile .seqNums (seqNumsText 1 1)
      durableFile .epoch (itoa epoch)
      let _ ← Attempt.op (.remove .resetPending)
    match ← rest.run with
    | .error e => .ret (some e, fs)
    | .ok _ => .ret (none, fs)

def parseInt (raw : Bytes) : Except String Int :=
  match atoi (trimSpace raw) with
  | some n => .ok n
  | none => .error "strconv.ParseInt: invalid syntax"

/-- Copies a file into the archive, if there is one. -/
def archiveFile (epoch : Int) (file : Path) : Attempt Path Unit := do
  match ← Attempt.op (.read file) with
  | none => pure ()
  | some raw => durableFile (.archive epoch file) raw

/-- The part of `AdvanceEpoch` before the reset: whether there is one. -/
def prepareEpoch (epoch : Int) : Attempt Path Bool := do
  let old ←
    match ← Attempt.op (.read .epoch) with
    | none => pure 0
    | some raw => ExceptT.mk (.ret (parseInt raw))
  if epoch ≤ old then pure false
  else
    let _ ← Attempt.op .sync
    archiveFile epoch .outboundLog
    archiveFile epoch .seqNums
    durableFile .resetPending (itoa epoch)
    pure true

def advanceEpoch (epoch : Int) (fs : FileStore) : Prog Path (Option String × FileStore) := do
  match fs.writableLocked with
  | some e => .ret (some e, fs)
  | none =>
    match ← (prepareEpoch epoch).run with
    | .error e => .ret (some e, fs)
    | .ok false => .ret (none, fs)
    | .ok true =>
      match ← fs.finishEpochReset epoch with
      | (some e, fs) => .ret (some e, { fs with failed := some e })
      | (none, fs) => .ret (none, fs)

/-- Indexes every whole record and cuts off what is behind them. -/
def recover : Attempt Path (Int × FileStore) := do
  let raw ← Attempt.op (.read .outboundLog)
  let r := scanLog (raw.getD [])
  let _ ← Attempt.op (.truncate .outboundLog r.off)
  pure (r.maxSeq, { fs with index := r.index })

def loadSeqNums (maxSeq : Int) (fs : FileStore) : Attempt Path FileStore := do
  match ← Attempt.op (.read .seqNums) with
  | none => pure { fs with nextOut := max fs.nextOut (maxSeq + 1) }
  | some raw =>
    match scanSeqNums raw with
    | none => throw "corrupt seqnums"
    | some (nextIn, nextOut) => pure { fs with nextIn, nextOut := max nextOut (maxSeq + 1) }

def load : Attempt Path FileStore := do
  let (maxSeq, fs) ← fs.recover
  fs.loadSeqNums maxSeq

/-- Finishes a reset that was interrupted. -/
def resume : Attempt Path FileStore := do
  match ← Attempt.op (.read .resetPending) with
  | none => pure fs
  | some raw =>
    let epoch ← ExceptT.mk (.ret (parseInt raw))
    match ← (fs.finishEpochReset epoch : Prog Path _) with
    | (some e, _) => throw e
    | (none, fs) => pure fs

end FileStore

def FileStoreOptions.withDefaults (opts : FileStoreOptions) : FileStoreOptions :=
  if opts.maxMessages ≤ 0 then { opts with maxMessages := defaultMaxMessages } else opts

/-- Opens the store, which is created if there is none, and recovers it. -/
def openFileStore (dir : String) (opts : FileStoreOptions) : Attempt Path FileStore := do
  let _ ← Attempt.op .sync
  let _ ← Attempt.op (.touch .outboundLog)
  let fs ← FileStore.resume { dir, opts := opts.withDefaults }
  fs.load

end Fxp.Fix
